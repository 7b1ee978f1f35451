import Xv6.Dir.Boot

/-!
# The inode table

Reference counts, the identity of entries, and agreement with the disk in every run.
-/

namespace Xv6.Dir

open Lib Finset

variable {P : Type} [DecidableEq P] [Fintype P] {sb : Superblock} {guard : P → Op → St P → Prop}
  {s s' : St P} {g : Ledger P} {p q : P} {l : Loc} {i : IId} {o : Op} {r : o.Res}

/-! ## One operation -/

theorem exec_inum (he : exec sb p o s = .ok (r, s')) (hi : 0 < (s.inode i).ref) :
    (s'.inode i).inum = (s.inode i).inum := by
  have set {j : IId} {x : InCore P} (hx : x.inum = (s.inode j).inum) :
      ((s.setInode j x).inode i).inum = (s.inode i).inum := by
    by_cases hij : i = j
    · subst hij
      simpa [St.setInode] using hx
    · simp [St.setInode, hij]
  cases o with
  | iget n =>
    simp only [exec] at he
    split at he
    · cases he
      exact set rfl
    · rename_i j hf
      have hij : i ≠ j := by
        rintro rfl
        have := (St.find_false hf).1
        omega
      cases he
      simp [St.setInode, hij]
    · cases he
  | panic e => cases he
  | _ =>
    simp only [exec] at he
    repeat' first
      | cases he <;> first | rfl | exact set rfl
      | split at he

/-- The dinodes change through a locked entry, or from free to allocated. -/
theorem exec_disk {n : Nat} (he : exec sb p o s = .ok (r, s')) (hn : s'.disk n ≠ s.disk n) :
    (∃ i, (s.inode i).inum = n ∧
      (o = .iupdate i ∨ o = .itrunc i ∨ ∃ off k bs, o = .writei i off k bs)) ∨
      (s.disk n).type = .free ∧ ∃ type, o = .alloc n type := by
  have other {m : Nat} {x : Node} (h : (Function.update s.disk m x) n ≠ s.disk n) : n = m := by
    by_contra hne
    exact h (Function.update_of_ne hne ..)
  cases o with
  | iupdate i =>
    cases he
    exact .inl ⟨i, (other hn).symm, .inl rfl⟩
  | itrunc i =>
    cases he
    exact .inl ⟨i, (other hn).symm, .inr (.inl rfl)⟩
  | writei i off k bs =>
    rcases writei_cases he with ⟨-, rfl, -⟩ | ⟨addrs, -, rfl⟩
    · exact absurd rfl hn
    · exact .inl ⟨i, (other hn).symm, .inr (.inr ⟨off, k, bs, rfl⟩)⟩
  | alloc m type =>
    simp only [exec] at he
    split at he
    · rename_i hfree
      cases he
      obtain rfl := other hn
      exact .inr ⟨hfree, type, rfl⟩
    · cases he
      exact absurd rfl hn
  | panic e => cases he
  | _ =>
    simp only [exec] at he
    repeat' first
      | cases he <;> exact absurd rfl hn
      | split at he

/-! ## Knowledge of a process in a run -/

section

variable {c c' : Config iface (St P × Ledger P) P} {k : iface.Res o → Code Unit}

/-- A process that is about to execute an operation knows what its rule needs. -/
theorem Booted.rule (h : Booted sb guard c) (next : c.prog p = .call o k)
    (allowed : guard p o c.st.1) :
    ∃ l R, At p l c.st.1 c.st.2 ∧ Rule l o R :=
  h.good.pre next allowed

theorem Booted.idle (h : Booted sb guard c) (next : c.prog p = .ret ()) :
    ∃ l, l.Idle ∧ At p l c.st.1 c.st.2 := by
  have := h.good.safe p
  rwa [next] at this

theorem Booted.step (h : Booted sb guard c) (hs : (ledgered sb guard).Step c c') :
    Booted sb guard c' := by
  obtain ⟨s, boot, run⟩ := h
  exact ⟨s, boot, run.tail hs⟩

/-- The pointers that a process in a call holds are changed by its own operations only. -/
theorem Booted.refs_others (h : Booted sb (fun _ _ _ => True) c) (next : c.prog p = .call o k)
    (hs : (ledgered sb fun _ _ _ => True).Others p c c') : c'.st.2.refs p = c.st.2.refs p := by
  obtain ⟨l, R, hat, rule⟩ := h.rule next trivial
  have live := (hat.proc.live rule.live).1
  cases hs with
  | @op q o' _ r s' other _ _ exec =>
    obtain ⟨-, hg⟩ := System.withGhost_ok exec
    rw [hg]
    by_cases ho : o' = .runnable
    · subst ho
      show hand _ _ _ _ p = _
      cases hq : c.st.1.child q with
      | none => rw [hand, hq]
      | some q' => exact hand_of_ne hq other.symm (h.good.inv.proc.child_ne live hq).symm
    · exact enter_of_ne ho other.symm
  | start => rfl
  | env step => rw [step.2]

end

/-! ## The pointers that a program takes and gives up -/

/-- Counting pointers, whatever the results of the operations. -/
def Tally : Protocol iface (IId → ℤ) :=
  fun n o R => o ≠ .runnable ∧ R = fun r n' => n' = n + gainRefs o r

/-- What a program takes and gives up is what its process has more or less when it returns. -/
theorem Booted.tally {α : Type} {Q : α → (IId → ℤ) → Prop} {x : Code α} {a : α} {f : α → Code Unit}
    {c c' : Config iface (St P × Ledger P) P} (h : Booted sb (fun _ _ _ => True) c)
    (hx : Does Tally (c.st.2.refs p) x Q)
    (hr : (ledgered sb fun _ _ _ => True).Returns p f x c a c') :
    Q a (c'.st.2.refs p) := by
  induction hr with
  | ret here => exact hx
  | @call c c' o f' r s' a here allowed exec rest ih =>
    obtain ⟨R, ⟨ho, rfl⟩, hk⟩ := hx
    refine ih (h.step (.op here allowed exec)) (hk r _ ?_)
    obtain ⟨-, hg⟩ := System.withGhost_ok exec
    rw [hg]
    exact enter_self ho
  | @other c c₁ c' o f' a step rest ih =>
    refine ih (h.step step.step) ?_
    have here := step.prog_eq.symm.trans rest.prog_eq
    rwa [h.refs_others here step]

/-- The program takes `d` pointers more than it gives up, if it returns. -/
def Takes {α : Type} (x : Code α) (d : α → IId → ℤ) : Prop :=
  ∀ n, Does Tally n x fun a n' => n' = n + d a

namespace Takes

variable {α β : Type} {x : Code α} {d : α → IId → ℤ} {f : α → Code β} {e : β → IId → ℤ}

theorem ret {a : α} (h : d a = 0) : Takes (.ret a) d := fun n => by
  show n = n + d a
  rw [h, add_zero]

theorem op {d : o.Res → IId → ℤ} (ho : o ≠ .runnable) (h : ∀ r, gainRefs o r = d r) :
    Takes (Dir.op o) d :=
  fun n => ⟨_, ⟨ho, rfl⟩, fun r _ h' => h'.trans (congrArg (n + ·) (h r))⟩

theorem panic {e : Panic} : Takes (Dir.panic e) d := fun _ => ⟨_, ⟨nofun, rfl⟩, nofun⟩

theorem bind (hx : Takes x d) (hf : ∀ a, Takes (f a) fun b => e b - d a) :
    Takes (x.bind f) e := fun n => by
  refine Does.bind (hx n) ?_
  rintro a _ rfl
  refine (hf a _).mono fun b n' h => ?_
  rw [h, add_assoc, add_sub_cancel]

theorem andThen (hx : Takes x 0) (hf : ∀ a, Takes (f a) e) : Takes (x.bind f) e :=
  bind hx fun a => by simpa using hf a

end Takes

/-- The pointer that `namex` returns. -/
def returned : Option (IId × List UInt8) → IId → ℤ
  | none => 0
  | some (ip, _) => Pi.single ip 1

theorem takes_ilock : Takes (ilock i) 0 :=
  .andThen (.op nofun fun _ => rfl) fun _ => .op nofun fun _ => rfl

theorem takes_iput : Takes (iput i) fun _ => -Pi.single i 1 := by
  refine .bind (d := fun last => if last then 0 else -Pi.single i 1) (.op nofun ?_) ?_
  · rintro (_ | _) <;> rfl
  · rintro (_ | _)
    · exact .ret (sub_self _)
    · refine .andThen (.op nofun fun _ => rfl) fun _ =>
        .andThen (.op nofun fun _ => rfl) fun _ => ?_
      refine .andThen (.op nofun fun _ => rfl) fun _ =>
        .andThen (.op nofun fun _ => rfl) fun _ => ?_
      refine .andThen (.op nofun fun _ => rfl) fun _ =>
        .andThen (.op nofun fun _ => rfl) fun _ => ?_
      exact .op nofun fun _ => (sub_zero _).symm

theorem takes_iunlockput : Takes (iunlockput i) fun _ => -Pi.single i 1 :=
  .andThen (.op nofun fun _ => rfl) fun _ => takes_iput

theorem takes_dirlookupFrom {name : List UInt8} {fuel off : Nat} :
    Takes (dirlookupFrom i name fuel off) fun r => returned (r.map fun x => (x.1, [])) := by
  induction fuel generalizing off with
  | zero => exact .ret rfl
  | succ fuel ih =>
    refine .andThen (.op nofun fun _ => rfl) fun x : Node => ?_
    split
    · refine .andThen (.op nofun fun _ => rfl) fun bs : List UInt8 => ?_
      split
      · exact .panic
      split
      · exact ih
      split
      · refine .bind (.op nofun fun _ => rfl) fun j : IId => ?_
        exact .ret (sub_self _)
      · exact ih
    · exact .ret rfl

theorem takes_dirlookup {name : List UInt8} :
    Takes (dirlookup i name) fun r => returned (r.map fun x => (x.1, [])) := by
  refine .andThen (.op nofun fun _ => rfl) fun x : Node => ?_
  split
  · exact .panic
  · exact takes_dirlookupFrom

theorem takes_namexFrom {parent : Bool} {elems : List (List UInt8)} :
    Takes (namexFrom parent elems i) fun r => returned r - Pi.single i 1 := by
  induction elems generalizing i with
  | nil =>
    rw [namexFrom]
    split
    · exact .bind takes_iput fun _ => .ret (by simp [returned])
    · exact .ret (sub_self _)
  | cons name rest ih =>
    refine .andThen takes_ilock fun _ => .andThen (.op (by simp) fun _ => rfl) fun x : Node => ?_
    split
    · exact .bind takes_iunlockput fun _ => .ret (by simp [returned])
    split
    · exact .andThen (.op (by simp) fun _ => rfl) fun _ => .ret (sub_self _)
    refine .bind takes_dirlookup ?_
    rintro (_ | ⟨j, off⟩)
    · exact .bind takes_iunlockput fun _ => .ret (by simp [returned])
    · refine .bind takes_iunlockput fun _ => ?_
      have eq (r : Option (IId × List UInt8)) : returned r - Pi.single i 1 -
          returned ((some (j, off)).map fun x => (x.1, [])) - -Pi.single i 1 =
            returned r - Pi.single j 1 := by
        show returned r - Pi.single i 1 - Pi.single j 1 - -Pi.single i 1 = _
        abel
      simpa only [eq] using ih

/-- On every path, `namex` gives up all the pointers that it takes but the one that it returns. -/
theorem takes_namex {path : Path} {parent : Bool} : Takes (namex path parent) returned := by
  refine .bind (d := fun i => Pi.single i 1) ?_ fun i => takes_namexFrom
  rw [namexStart]
  split
  · exact .op (by simp) fun _ => rfl
  · refine .andThen (.op (by simp) fun _ => rfl) fun c : IId =>
      .bind (.op (by simp) fun _ => rfl) fun _ => .ret (sub_self _)

/-! ## Reference counts in all runs -/

section

variable {c : Config iface (St P × Ledger P) P}

omit [DecidableEq P] [Fintype P] in
/-- An idle process has a pointer to its current directory. -/
theorem At.refs_idle (h : At p l s g) (idle : l.Idle) :
    g.refs p = if s.stage p = .live then cwdCount (s.cwd p) else 0 := by
  funext i
  rw [(h.inode.slot i).refs, idle.refs]
  have hn {m : Nat} (hm : l.cwd = some (i, m)) : m = (s.inode i).inum := by
    refine (h.inum (.inl ?_)).symm
    simp [idle.refs, hm]
  split
  · rename_i live
    have hm : l.mid ≠ .exited := fun hm => (h.proc.dead hm).1 live
    rw [(h.proc.live hm).2.2]
    exact (cwdCount_map fun m => hn).symm
  · rename_i dead
    obtain ⟨-, hc, -⟩ := idle.mid.resolve_left (by simp [h.proc.exited dead])
    simp [hc]

omit [DecidableEq P] in
/-- A process with the only reference to an inode is the only one that uses it. -/
theorem InodeInv.alone (hI : InodeInv s g) (hp : 0 < g.refs p i) (h1 : (s.inode i).ref = 1)
    (hq : Used s g q i) :
    q = p ∧ g.refs p i = 1 := by
  have hfile := fileRefs_nonneg s.file i
  have hlaw := hI.law i
  rw [h1] at hlaw
  have hle := single_le_sum (f := fun p => g.refs p i) (fun p _ => hI.nonneg p i) (mem_univ p)
  refine ⟨?_, by omega⟩
  rcases hq with hq | ⟨f, -, hf⟩
  · by_contra hne
    have := pair_le_sum (fun r => hI.nonneg r i) hne
    omega
  · have := fileRefs_pos hf
    omega

/-- Where `iput` finds the last reference, nobody has locked the inode. -/
theorem Booted.iput_unlocked {k : Bool → Code Unit} (h : Booted sb (fun _ _ _ => True) c)
    (next : c.prog p = .call (.iputTest i) k) (h1 : (c.st.1.inode i).ref = 1) :
    (c.st.1.inode i).lock = none := by
  obtain ⟨l, R, hat, rule⟩ := h.rule next trivial
  cases rule with
  | @iputTest _ _ n mid refs free =>
    have slot := hat.inode.slot i
    have hrefs := slot.refs
    rw [hat.inum (.inl refs)] at hrefs
    by_contra hl
    obtain ⟨q, hq⟩ := Option.ne_none_iff_exists'.1 hl
    obtain ⟨rfl, hone⟩ :=
      h.good.inv.inode.alone (p := p) (by omega) h1 (h.good.inv.inode.user i q hq)
    obtain ⟨m, hu, hh⟩ := hat.locked mid hq
    obtain rfl : m = n := (hat.inum hu).symm.trans (hat.inum (.inl refs))
    have := free.resolve_left hh
    omega

/-- The reference counts of the inode table, in every configuration of every run. -/
theorem inode_references (h : Booted sb (fun _ _ _ => True) c) :
    -- no two entries for one inode
    (∀ i j, 0 < (c.st.1.inode i).ref → 0 < (c.st.1.inode j).ref →
      (c.st.1.inode i).inum = (c.st.1.inode j).inum → i = j) ∧
    -- open files, current directories, and the pointers of the calls in progress
    (∀ i, ((c.st.1.inode i).ref : ℤ) = fileRefs c.st.1.file i + ∑ p, c.st.2.refs p i) ∧
    (∀ p i, 0 ≤ c.st.2.refs p i) ∧
    (∀ p, c.prog p = .ret () →
      c.st.2.refs p = if c.st.1.stage p = .live then cwdCount (c.st.1.cwd p) else 0) ∧
    -- an entry in use stays with its inode
    (∀ c' i, (ledgered sb fun _ _ _ => True).Step c c' → 0 < (c.st.1.inode i).ref →
      (c'.st.1.inode i).inum = (c.st.1.inode i).inum) ∧
    -- locks
    (∀ i p, (c.st.1.inode i).lock = some p → Used c.st.1 c.st.2 p i) ∧
    (∀ p i k, c.prog p = .call (.iputTest i) k → (c.st.1.inode i).ref = 1 →
      (c.st.1.inode i).lock = none) ∧
    -- path names
    ∀ p path parent k a c', (ledgered sb fun _ _ _ => True).Returns p k (namex path parent) c a c' →
      c'.st.2.refs p = c.st.2.refs p + returned a := by
  have inv := h.good.inv
  refine ⟨inv.inode.unique, inv.inode.law, inv.inode.nonneg, fun p next => ?_,
    fun c' i step hi => ?_,
    inv.inode.user, fun p i k next => h.iput_unlocked next, fun p path parent k a c' run => ?_⟩
  · obtain ⟨l, idle, hat⟩ := h.idle next
    exact hat.refs_idle idle
  · cases step with
    | op next allowed exec => exact exec_inum (System.withGhost_ok exec).1 hi
    | start => rfl
    | env step =>
      obtain ⟨⟨room, bmap, spare, free, stage, -, -, -, hs⟩, -⟩ := step
      rw [hs]
  · exact h.tally (takes_namex _) run

/-- `chdir("/")` about to give up the old current directory. -/
theorem inode_references_chdir : ∃ (c : Config iface (St Bool) Bool) (g : Ledger Bool),
    Booted .mkfs (fun _ _ _ => True) ⟨(c.st, g), c.prog⟩ ∧ (c.st.inode ⟨0, by decide⟩).ref = 2 ∧
    (2 : ℤ) = fileRefs c.st.file ⟨0, by decide⟩ + ∑ p : Bool, g.refs p ⟨0, by decide⟩ := by
  have run : (replay .mkfs rootDisk [(true, some (.chdir (some [slash])), 7)]).any fun c =>
      (c.st.inode ⟨0, by decide⟩).ref = 2 := by decide
  obtain ⟨c, g, hg, href⟩ := replay_booted run
  have href := of_decide_eq_true href
  have law := (inode_references hg).2.1 ⟨0, by decide⟩
  rw [href] at law
  exact ⟨c, g, hg, href, law⟩

/-! ## Agreement with the disk -/

/-- When `ilock` returns, the entry is valid and agrees with the disk. -/
theorem At.load {n : Nat} {u : Unit} (h : At p l s g) (mid : l.mid = .loading (i, n))
    (he : exec sb p (.load i) s = .ok (u, s')) :
    (s'.inode i).lock = some p ∧ (s'.inode i).valid = true ∧
      (s'.inode i).node = s'.disk (s'.inode i).inum ∧ (s'.inode i).node.type ≠ .free := by
  have slot := h.inode.slot i
  obtain ⟨uses, -, valid⟩ := slot.loading n mid
  have lock := slot.lock.2 (.inr ⟨n, .inl mid⟩)
  have hn := h.inum uses
  simp only [exec] at he
  split at he
  · rename_i hv
    cases he
    obtain ⟨hx, ht⟩ := valid hv
    rw [hx, hn]
    exact ⟨lock, hv, rfl, ht⟩
  · split at he
    · cases he
    · rename_i ht
      cases he
      simp only [St.setInode, Function.update_self]
      exact ⟨lock, trivial, trivial, ht⟩

omit [Fintype P] [DecidableEq P] in
/-- A process that writes an inode has locked it and knows it. -/
theorem At.writes {R : o.Res → Loc → Prop} (h : At p l s g) (rule : Rule l o R)
    (ho : o = .iupdate i ∨ o = .itrunc i ∨ ∃ off k bs, o = .writei i off k bs) :
    ∃ n z w, l.Uses (i, n) ∧ l.held n = some (z, w) := by
  rcases ho with rfl | rfl | ⟨off, k, bs, rfl⟩
  · cases rule with
    | iupdate mid uses held => exact ⟨_, _, _, uses, held⟩
    | iupdateFree mid held => exact ⟨_, _, _, .inl ((h.inode.slot i).doomed _ mid).1, held⟩
  · cases rule with
    | itrunc mid uses held => exact ⟨_, _, _, uses, held⟩
  · cases rule with
    | write mid uses held => exact ⟨_, _, _, uses, held⟩
    | writeEntry mid uses held => exact ⟨_, _, _, uses, held⟩

/-- Agreement of the inode table with the disk, in every configuration of every run: what `ilock`
leaves, and whose updates a change of a dinode can overwrite. -/
theorem inode_coherence (h : Booted sb (fun _ _ _ => True) c) :
    (∀ p i k u t, c.prog p = .call (.load i) k →
      (ledgered sb fun _ _ _ => True).exec p (.load i) c.st = .ok (u, t) →
      (t.1.inode i).lock = some p ∧ (t.1.inode i).valid = true ∧
        (t.1.inode i).node = t.1.disk (t.1.inode i).inum ∧ (t.1.inode i).node.type ≠ .free) ∧
    -- only what the writer has last read or written itself, or a free dinode, is overwritten
    ∀ p o k r t n, c.prog p = .call o k →
    (ledgered sb fun _ _ _ => True).exec p o c.st = .ok (r, t) →
      t.1.disk n ≠ c.st.1.disk n →
      (∃ i, (c.st.1.inode i).inum = n ∧ (c.st.1.inode i).lock = some p ∧
        c.st.2.seen p i = c.st.1.disk n) ∨
        (c.st.1.disk n).type = .free ∧ ∃ type, o = .alloc n type := by
  refine ⟨fun p i k u t next he => ?_, fun p o k r t n next he hn => ?_⟩
  · obtain ⟨l, R, hat, rule⟩ := h.rule next trivial
    have he : exec sb p (.load i) c.st.1 = .ok (u, t.1) := (System.withGhost_ok he).1
    cases rule with
    | load mid => exact hat.load mid he
  · obtain ⟨l, R, hat, rule⟩ := h.rule next trivial
    rcases exec_disk (System.withGhost_ok he).1 hn with ⟨i, hi, ho⟩ | halloc
    · obtain ⟨m, z, w, uses, held⟩ := hat.writes rule ho
      obtain ⟨-, -, hd, -, hy⟩ := (hat.inode.slot i).held m z w uses held
      obtain rfl : m = n := (hat.inum uses).symm.trans hi
      exact .inl ⟨i, hi, hat.lock_of_held uses (by simp [held]), hy.trans hd.symm⟩
    · exact .inr halloc

/-- `chdir("/")` about to read the root directory that it has just locked. -/
theorem inode_coherence_chdir : ∃ (c : Config iface (St Bool) Bool) (g : Ledger Bool),
    Booted .mkfs (fun _ _ _ => True) ⟨(c.st, g), c.prog⟩ ∧
    (c.st.inode ⟨0, by decide⟩).lock = some true ∧
    ∀ p i k u t, c.prog p = .call (.load i) k →
      (ledgered .mkfs fun _ _ _ => True).exec p (.load i) (c.st, g) = .ok (u, t) →
      (t.1.inode i).lock = some p ∧ (t.1.inode i).valid = true ∧
        (t.1.inode i).node = t.1.disk (t.1.inode i).inum ∧ (t.1.inode i).node.type ≠ .free := by
  have run : (replay .mkfs rootDisk [(true, some (.chdir (some [slash])), 3)]).any fun c =>
      (c.st.inode ⟨0, by decide⟩).lock = some true := by decide
  obtain ⟨c, g, hg, hlock⟩ := replay_booted run
  exact ⟨c, g, hg, of_decide_eq_true hlock, (inode_coherence hg).1⟩

/-! ## What no call does -/

omit [DecidableEq P] [Fintype P] in
theorem At.not_locked (h : At p l s g) (unlocked : l.Unlocked)
    (mid : l.mid = .idle ∨ l.mid = .exited) (i : IId) :
    (s.inode i).lock ≠ some p := by
  intro hl
  obtain ⟨n, -, hn⟩ | ⟨n, hn⟩ := (h.inode.slot i).lock.1 hl
  · exact hn (unlocked n)
  · rcases mid with mid | mid <;> simp [mid] at hn

/-- No interleaving of calls loses a reference or a lock, so that no panic says so. A process has no
inode locked, and is outside of the operations on the log, whenever it waits for space in the log or
is back in user space. -/
theorem nothing_lost (h : Booted sb (fun _ _ _ => True) c) :
    (∀ e ∈ lostPanics, ¬(ledgered sb fun _ _ _ => True).Panics c e) ∧
    ∀ p, (c.prog p = .ret () ∨ ∃ k, c.prog p = .call .beginOp k) →
      (∀ i, (c.st.1.inode i).lock ≠ some p) ∧ c.st.1.busy p = false := by
  constructor
  · rintro e he ⟨p, o, k, next, allowed, hp⟩
    obtain ⟨l, R, hat, rule⟩ := h.rule next allowed
    exact rule.panics h.good.inv hat (System.withGhost_panic.1 hp) he
  · rintro p (next | ⟨k, next⟩)
    · obtain ⟨l, idle, hat⟩ := h.idle next
      exact ⟨hat.not_locked idle.unlocked (idle.mid.imp_right And.left),
        hat.proc.busy.trans idle.busy⟩
    · obtain ⟨l, R, hat, rule⟩ := h.rule next trivial
      cases rule with
      | beginOp busy unlocked mid =>
        exact ⟨hat.not_locked unlocked (.inl mid), hat.proc.busy.trans busy⟩

theorem nothing_lost_chdir : ∃ (c : Config iface (St Bool) Bool) (g : Ledger Bool),
    Booted .mkfs (fun _ _ _ => True) ⟨(c.st, g), c.prog⟩ ∧ c.prog true = .ret () ∧
    ∀ i, (c.st.inode i).lock ≠ some true := by
  have run : (replay .mkfs rootDisk [(true, some (.chdir (some [slash])), 11)]).any fun c =>
      (c.prog true).isRet := by
    decide
  obtain ⟨c, g, hg, hc⟩ := replay_booted run
  exact ⟨c, g, hg, Prog.eq_ret hc, ((nothing_lost hg).2 true (.inl (Prog.eq_ret hc))).1⟩

end

end Xv6.Dir
