import Xv6.Dir.Protocol

/-!
# The functions of `fs.c` follow the rules

One statement for each function: what it needs to know and what is known after it, for any other
knowledge of the caller.
-/

namespace Xv6.Dir

open Lib Function

theorem add_sub_self {ι : Type} (f g : ι → Nat) : f + g - g = f :=
  funext fun _ => Nat.add_sub_cancel ..

namespace Loc

variable {l : Loc} {q : Ptr} {n m : Nat} {x y : Node}

@[simp] theorem held_hold : (l.hold n x).held n = some (x, x) := update_self ..

theorem held_hold_of_ne (h : m ≠ n) : (l.hold n x).held m = l.held m := update_of_ne h ..

@[simp] theorem hold_hold : (l.hold n x).hold n y = l.hold n y := by
  simp only [hold, update_idem]

theorem update_none (h : l.held n = none) : Function.update l.held n none = l.held := by
  rw [← h, update_eq_self]

theorem release_hold (h : l.held n = none) : (l.hold n x).release n = l := by
  simp only [release, hold, update_idem, update_none h]

theorem refs_take_self : (l.take q).refs q = l.refs q + 1 := by simp [take]

theorem refs_le_take (r : Ptr) : l.refs r ≤ (l.take q).refs r := Nat.le_add_right ..

@[simp] theorem drop_take : (l.take q).drop q = l := by
  simp only [take, drop, add_sub_self]

theorem take_comm {r : Ptr} : (l.take q).take r = (l.take r).take q := by
  simp only [take, add_right_comm]

theorem uses_take : (l.take q).Uses q := .inl (by simp [take])

theorem Uses.take {r : Ptr} (h : l.Uses r) : (l.take q).Uses r :=
  h.imp_left fun h => h.trans_le (l.refs_le_take r)

/-- Nothing is locked and nothing is half done. -/
structure Calm (l : Loc) : Prop where
  mid : l.mid = .idle
  unlocked : l.Unlocked
  cwd : ∀ q, l.cwd = some q → 0 < l.refs q

theorem Calm.take (h : l.Calm) : (l.take q).Calm :=
  ⟨h.mid, h.unlocked, fun r hr => (h.cwd r hr).trans_le (l.refs_le_take r)⟩

theorem Calm.live (h : l.Calm) : l.mid ≠ .exited := by simp [h.mid]

end Loc

variable {sb : Superblock} {α β : Type} {l : Loc}

/-- The program follows the rules. -/
abbrev Runs (l : Loc) (x : Code α) (Q : α → Loc → Prop) : Prop :=
  Does Rule l x Q

namespace Runs

variable {Q : α → Loc → Prop} {o : Op} {R : iface.Res o → Loc → Prop}

theorem op {f : iface.Res o → Code α} (rule : Rule l o R)
    (next : ∀ r l', R r l' → Runs l' (f r) Q) : Runs l ((op o).bind f) Q :=
  Does.call rule next

theorem last {Q : iface.Res o → Loc → Prop} (rule : Rule l o R)
    (next : ∀ r l', R r l' → Q r l') : Runs l (Dir.op o) Q :=
  Does.call rule next

theorem bind {Q' : β → Loc → Prop} {x : Code α} {f : α → Code β} (h : Runs l x Q)
    (hf : ∀ a l', Q a l' → Runs l' (f a) Q') : Runs l (x.bind f) Q' :=
  Does.bind h hf

theorem ite {c : Prop} [Decidable c] {x y : Code α} (hx : c → Runs l x Q)
    (hy : ¬c → Runs l y Q) : Runs l (if c then x else y) Q := by
  split
  · exact hx ‹_›
  · exact hy ‹_›

theorem panic {e : Panic} (live : l.mid ≠ .exited) (ok : e ∉ lostPanics ++ entryPanics) :
    Runs l (Dir.panic e) Q :=
  Does.call (.panic live ok) fun r => nomatch r

theorem panicFull {i : IId} {d : Nat} {x : Node} (uses : l.Uses (i, d))
    (held : l.held d = some (x, x))
    (live : l.mid ≠ .exited) (type : x.type = .dir) (full : Full x.data) :
    Runs l (Dir.panic .dirlink) Q :=
  Does.call (.panicFull live uses held type full) fun r => nomatch r

end Runs

variable {i : IId} {n : Nat} {x : Node}

/-! ## Locks and references -/

theorem ilock_runs (mid : l.mid = .idle) (uses : l.Uses (i, n)) :
    Runs l (ilock i) fun _ l' => l.held n = none ∧ ∃ x, x.type ≠ .free ∧ l' = l.hold n x := by
  refine .op (.acquire mid uses) ?_
  rintro - _ ⟨hfree, rfl⟩
  refine .last (.load rfl) ?_
  rintro - _ ⟨x, ht, rfl⟩
  exact ⟨hfree, x, ht, by simp only [Loc.hold, ← mid]⟩

theorem iput_runs (mid : l.mid = .idle) (refs : 0 < l.refs (i, n))
    (free : l.held n = none ∨ 2 ≤ l.refs (i, n)) :
    Runs l (iput i) fun _ l' => l' = l.drop (i, n) := by
  refine .op (.iputTest mid refs free) ?_
  rintro (_ | _) l' ⟨hfalse, htrue⟩
  · exact hfalse rfl
  · obtain ⟨x, hfree, rfl⟩ := htrue rfl
    have uses : l.Uses (i, n) := .inl refs
    refine .op (.itrunc (.inr rfl) uses Loc.held_hold) ?_
    rintro - _ rfl
    refine .op (.inode nofun uses Loc.held_hold) ?_
    rintro _ _ ⟨rfl, rfl⟩
    refine .op (.setInode nofun uses Loc.held_hold) ?_
    rintro - _ rfl
    refine .op (.iupdateFree rfl (update_self ..) rfl) ?_
    rintro - _ rfl
    refine .op (.invalidate rfl) ?_
    rintro - _ rfl
    refine .op (.iputRelease rfl) ?_
    rintro - _ rfl
    refine .last (.iputDrop rfl) ?_
    rintro - _ rfl
    simp only [Loc.drop, Loc.release, Loc.hold, update_idem, Loc.update_none hfree, ← mid]

theorem iunlock_runs (mid : l.mid = .idle) (uses : l.Uses (i, n)) (held : l.held n = some (x, x)) :
    Runs l (iunlock i) fun _ l' => l' = l.release n :=
  .last (.iunlock mid uses held) fun _ _ h => h

theorem iunlockput_runs (mid : l.mid = .idle) (held : l.held n = some (x, x))
    (refs : 0 < l.refs (i, n)) :
    Runs l (iunlockput i) fun _ l' => l' = (l.release n).drop (i, n) := by
  refine .bind (iunlock_runs mid (.inl refs) held) ?_
  rintro - _ rfl
  exact iput_runs mid refs (.inl (update_self ..))

/-- `iunlockput` of an inode that has been looked up and locked. -/
theorem iunlockput_take_runs (mid : l.mid = .idle) (free : l.held n = none) :
    Runs ((l.take (i, n)).hold n x) (iunlockput i) fun _ l' => l' = l := by
  have refs : 0 < ((l.take (i, n)).hold n x).refs (i, n) :=
    Nat.succ_pos _ |>.trans_eq Loc.refs_take_self.symm
  refine (iunlockput_runs (l := (l.take (i, n)).hold n x) mid Loc.held_hold refs).mono ?_
  rintro - _ rfl
  have : ((l.take (i, n)).hold n x).release n = l.take (i, n) := Loc.release_hold free
  rw [this, Loc.drop_take]

theorem iput_take_runs (mid : l.mid = .idle) (free : l.held n = none ∨ 0 < l.refs (i, n)) :
    Runs (l.take (i, n)) (iput i) fun _ l' => l' = l := by
  have refs : (l.take (i, n)).refs (i, n) = l.refs (i, n) + 1 := Loc.refs_take_self
  refine (iput_runs (l := l.take (i, n)) mid (by omega) (free.imp_right fun h => by omega)).mono ?_
  rintro - _ rfl
  exact Loc.drop_take

theorem Runs.inode {Q : α → Loc → Prop} {y : Node} {f : Node → Code α} (uses : l.Uses (i, n))
    (held : l.held n = some (x, y)) (live : l.mid ≠ .exited) (next : Runs l (f x) Q) :
    Runs l ((Dir.op (.inode i)).bind f) Q := by
  refine .op (.inode live uses held) ?_
  rintro _ _ ⟨rfl, rfl⟩
  exact next

/-! ## Directories -/

section Lookup

variable {d : Nat} {name : List UInt8}

/-- What `dirlookup` finds in slots from `k` on. -/
def Found (l : Loc) (x : Node) (name : List UInt8) (k : Nat) (r : Option (IId × Nat))
    (l' : Loc) : Prop :=
  match r with
  | none => l' = l ∧ ∀ j, k ≤ j → j < x.data.length / DESIZE → (entry x.data j).inum ≠ 0 →
      namecmp name (entry x.data j).name = false
  | some (i, off) => ∃ j n, off = DESIZE * j ∧ j < x.data.length / DESIZE ∧
      (entry x.data j).inum = n ∧
      n ≠ 0 ∧ namecmp name (entry x.data j).name = true ∧ (∀ i', l.Uses (i', n) → i' = i) ∧
      l' = l.take (i, n)

theorem Found.skip {k : Nat} {r : Option (IId × Nat)} {l' : Loc} (h : Found l x name (k + 1) r l')
    (hk : (entry x.data k).inum ≠ 0 → namecmp name (entry x.data k).name = false) :
    Found l x name k r l' := by
  match r with
  | none =>
    refine ⟨h.1, fun j hj hlt h0 => ?_⟩
    rcases hj.eq_or_lt with rfl | hlt'
    · exact hk h0
    · exact h.2 j hlt' hlt h0
  | some (n, off) => exact h

theorem readEntry {data bs : List UInt8} {k : Nat}
    (hbs : bs = if data.length < DESIZE * k ∨ (DESIZE * k + DESIZE) % 2 ^ 32 < DESIZE * k then []
      else slice data (DESIZE * k) DESIZE) (hlen : bs.length = DESIZE) :
    k < data.length / DESIZE ∧ Dirent.ofBytes bs = entry data k := by
  split at hbs
  · subst hbs
    cases hlen
  · subst hbs
    rw [length_slice] at hlen
    simp only [DESIZE] at hlen ⊢
    exact ⟨by omega, rfl⟩

variable (uses : l.Uses (i, d)) (held : l.held d = some (x, x)) (mid : l.mid = .idle)

include uses held mid

theorem dirlookupFrom_runs {fuel k : Nat} (hfuel : x.data.length < fuel + DESIZE * k) :
    Runs l (dirlookupFrom i name fuel (DESIZE * k)) (Found l x name k) := by
  have live : l.mid ≠ .exited := by simp [mid]
  induction fuel generalizing k with
  | zero =>
    refine .ret ⟨rfl, fun j hj hlt => ?_⟩
    simp only [DESIZE] at hfuel hlt
    omega
  | succ fuel ih =>
    apply Runs.inode uses held live
    split
    · refine .op (.readi live uses held) ?_
      rintro bs _ ⟨rfl, hbs⟩
      split
      · exact .panic live (by decide)
      · rename_i hlen
        obtain ⟨hk, hent⟩ := readEntry hbs (not_not.1 hlen)
        have hnext : Runs l (dirlookupFrom i name fuel (DESIZE * k + DESIZE))
            (Found l x name (k + 1)) := by
          have := ih (k := k + 1) (by simp only [DESIZE] at hfuel ⊢; omega)
          rwa [Nat.mul_add, Nat.mul_one] at this
        rw [hent]
        split
        · exact hnext.mono fun r l' h => h.skip fun h0 => absurd ‹_› h0
        · split
          · refine .op (.iget mid) ?_
            rintro j _ ⟨huniq, rfl⟩
            exact .ret ⟨k, _, rfl, hk, rfl, ‹_›, ‹_›, huniq, rfl⟩
          · exact hnext.mono fun r l' h => h.skip fun _ => Bool.eq_false_of_not_eq_true ‹_›
    · refine .ret ⟨rfl, fun j hj hlt => ?_⟩
      simp only [DESIZE] at *
      omega

theorem dirlookup_runs :
    Runs l (dirlookup i name) fun r l' => x.type = .dir ∧ Found l x name 0 r l' := by
  have live : l.mid ≠ .exited := by simp [mid]
  apply Runs.inode uses held live
  split
  · exact .panic live (by decide)
  · rename_i ht
    have ht : x.type = .dir := not_not.1 ht
    exact (dirlookupFrom_runs (k := 0) uses held mid (by omega)).mono fun _ _ h => ⟨ht, h⟩

theorem emptyFrom_runs {fuel k : Nat} (hfuel : x.data.length < fuel + DESIZE * k)
    (hk : DESIZE * k ≤ x.data.length) :
    Runs l (emptyFrom i fuel (DESIZE * k)) fun off l' => l' = l ∧ ∃ j, off = DESIZE * j ∧
      FreeSlot x.data j ∧
      (firstFrom (fun k => (entry x.data k).inum == 0) (slotCount x.data) k).getD
        (slotCount x.data) = j := by
  have live : l.mid ≠ .exited := by simp [mid]
  induction fuel generalizing k with
  | zero => omega
  | succ fuel ih =>
    apply Runs.inode uses held live
    split
    · refine .op (.readi live uses held) ?_
      rintro bs _ ⟨rfl, hbs⟩
      split
      · exact .panic live (by decide)
      · rename_i hlen
        obtain ⟨hk', hent⟩ := readEntry hbs (not_not.1 hlen)
        have hlt : k < slotCount x.data := hk'
        rw [hent]
        split
        · refine .ret ⟨rfl, k, rfl, .inr ⟨hk', ‹_›⟩, ?_⟩
          rw [firstFrom_of_lt hlt, if_pos (beq_iff_eq.2 ‹_›), Option.getD_some]
        · have := ih (k := k + 1) (by simp only [DESIZE] at hfuel ⊢; omega)
            (by simp only [DESIZE] at hk' ⊢; omega)
          rw [firstFrom_of_lt hlt, if_neg (mt beq_iff_eq.1 ‹_›)]
          rwa [Nat.mul_add, Nat.mul_one] at this
    · have hcount : slotCount x.data = k := by
        simp only [slotCount, DESIZE] at *
        omega
      refine .ret ⟨rfl, k, rfl, .inl (by omega), ?_⟩
      rw [firstFrom_of_le hcount.le, Option.getD_none, hcount]

theorem dirlink_runs {m : Nat} (owns : ∀ n, l.held n ≠ none → ∃ j, 0 < l.refs (j, n)) :
    Runs l (dirlink i name m) fun r l' => (r = true → ∃ z, l' = l.hold d z) ∧
      (r = false → l' = l ∧ ∃ k, k < x.data.length / DESIZE ∧ (entry x.data k).inum ≠ 0 ∧
        namecmp name (entry x.data k).name = true) := by
  have live : l.mid ≠ .exited := by simp [mid]
  refine .bind (dirlookup_runs uses held mid) ?_
  rintro (_ | ⟨j, off⟩) l' ⟨ht, hfound⟩
  · obtain ⟨rfl, -⟩ := hfound
    apply Runs.inode uses held live
    refine .bind (emptyFrom_runs (k := 0) uses held mid (by omega) (by omega)) ?_
    rintro _ _ ⟨rfl, k, rfl, hk, hslot⟩
    refine .op (.writeEntry mid uses held (Dirent.length_mk' ..)) ?_
    intro r l'' ⟨hdone, hfail⟩
    split
    · obtain ⟨rfl, hfull⟩ := hfail ‹_›
      have hslot : emptySlot x.data = k := hslot
      refine .panicFull uses held live ht ?_
      rw [Full, hslot]
      exact hfull hk.le
    · obtain ⟨a, rfl⟩ := hdone (not_not.1 ‹_›)
      exact .ret ⟨fun _ => ⟨_, rfl⟩, nofun⟩
  · obtain ⟨k, n, -, hk, rfl, h0, hname, huniq, rfl⟩ := hfound
    have hheld : l.held (entry x.data k).inum = none ∨ 0 < l.refs (j, (entry x.data k).inum) := by
      by_cases hn : l.held (entry x.data k).inum = none
      · exact .inl hn
      · obtain ⟨j', hj'⟩ := owns _ hn
        obtain rfl := huniq j' (.inl hj')
        exact .inr hj'
    refine .bind (iput_take_runs mid hheld) ?_
    rintro - _ rfl
    exact .ret ⟨nofun, fun _ => ⟨rfl, k, hk, h0, hname⟩⟩

end Lookup

/-! ## Path names and new inodes -/

/-- `namex` returns with one reference more, to the inode it has found, or with none. -/
def Resolved (l : Loc) (r : Option (IId × List UInt8)) (l' : Loc) : Prop :=
  match r with
  | none => l' = l
  | some (i, _) => ∃ n, l' = l.take (i, n)

theorem namexFrom_runs {parent : Bool} {elems : List (List UInt8)} (calm : l.Calm) :
    Runs (l.take (i, n)) (namexFrom parent elems i) (Resolved l) := by
  induction elems generalizing i n with
  | nil =>
    rw [namexFrom]
    split
    · refine .bind (iput_take_runs calm.mid (.inl (calm.unlocked n))) ?_
      rintro - _ rfl
      exact .ret rfl
    · exact .ret ⟨n, rfl⟩
  | cons name rest ih =>
    have free : (l.take (i, n)).held n = none := calm.unlocked n
    refine .bind (ilock_runs calm.mid Loc.uses_take) ?_
    rintro - _ ⟨-, x, -, rfl⟩
    have uses : ((l.take (i, n)).hold n x).Uses (i, n) := Loc.uses_take
    have unlockput : Runs ((l.take (i, n)).hold n x) (iunlockput i) fun _ l' => l' = l :=
      iunlockput_take_runs calm.mid (calm.unlocked n)
    apply Runs.inode uses Loc.held_hold calm.live
    split
    · refine .bind unlockput ?_
      rintro - _ rfl
      exact .ret rfl
    split
    · refine .bind (iunlock_runs calm.mid uses Loc.held_hold) ?_
      rintro - _ rfl
      exact .ret ⟨n, Loc.release_hold (l := l.take (i, n)) free⟩
    refine .bind (dirlookup_runs uses Loc.held_hold calm.mid) ?_
    rintro (_ | ⟨j, off⟩) l' ⟨-, hfound⟩
    · obtain ⟨rfl, -⟩ := hfound
      refine .bind unlockput ?_
      rintro - _ rfl
      exact .ret rfl
    · obtain ⟨-, m, -, -, -, -, -, -, rfl⟩ := hfound
      have swap : ((l.take (i, n)).hold n x).take (j, m) =
          ((l.take (j, m)).take (i, n)).hold n x := by
        rw [Loc.take_comm (l := l)]
        rfl
      rw [swap]
      refine .bind (iunlockput_take_runs calm.mid (calm.unlocked n)) ?_
      rintro - _ rfl
      exact ih

theorem namex_runs {path : Path} {parent : Bool} (calm : l.Calm) :
    Runs l (namex path parent) (Resolved l) := by
  have start : Runs l (namexStart path) fun i l' => ∃ n, l' = l.take (i, n) := by
    rw [namexStart]
    split
    · exact .last (.iget calm.mid) fun i l' h => ⟨_, h.2⟩
    · refine .op (.cwd calm.live) ?_
      rintro c _ ⟨⟨n, hc⟩, rfl⟩
      refine .op (.idup calm.mid (calm.cwd _ hc)) ?_
      rintro - _ rfl
      exact .ret ⟨n, rfl⟩
  refine .bind start ?_
  rintro i _ ⟨n, rfl⟩
  exact namexFrom_runs calm

/-- An inode that was not locked has been allocated and is referenced. -/
def Allocated (l : Loc) (i : IId) (l' : Loc) : Prop := ∃ n, l.held n = none ∧ l' = l.take (i, n)

theorem ialloc_runs {type : IType} (mid : l.mid = .idle) (ht : type ≠ .free) :
    Runs l (ialloc sb type) (Allocated l) := by
  have live : l.mid ≠ .exited := by simp [mid]
  suffices ∀ fuel n, Runs l (iallocFrom sb type fuel n) (Allocated l) from this _ 1
  intro fuel
  induction fuel with
  | zero => exact fun n => .panic live (by decide)
  | succ fuel ih =>
    intro n
    rw [iallocFrom]
    split
    · refine .op (.alloc mid ht) ?_
      rintro (_ | _) _ ⟨rfl, hfree⟩
      · exact ih (n + 1)
      · refine .last (.iget mid) ?_
        rintro i _ ⟨-, rfl⟩
        exact ⟨n, hfree rfl, rfl⟩
    · exact .panic live (by decide)

end Xv6.Dir
