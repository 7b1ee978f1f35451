import Xv6.Dir.Threads

/-!
# The calls of `sysfile.c` follow the rules

`sys_link` and `sys_unlink`. Every call that starts with a process at rest ends with the process at
rest.
-/

namespace Xv6.Dir

open Lib Function

namespace Loc

variable {l : Loc} {q : Ptr} {n m k : Nat} {x y : Node}

theorem Idle.calm (h : l.Idle) (mid : l.mid = .idle) : l.Calm where
  mid := mid
  unlocked := h.unlocked
  cwd q hq := by simp [h.refs, cwdRefs, hq]

@[simp] theorem setBusy_setBusy {a b : Bool} : (l.setBusy a).setBusy b = l.setBusy b := rfl

theorem setBusy_eq {b : Bool} (h : l.busy = b) : l.setBusy b = l := by
  subst h
  rfl

theorem Calm.setBusy {b : Bool} (h : l.Calm) : (l.setBusy b).Calm := ⟨h.mid, h.unlocked, h.cwd⟩

end Loc

variable {α : Type} {l : Loc} {i j : IId} {n d : Nat} {x : Node}

theorem endOp_runs (live : l.mid ≠ .exited) : Runs l endOp fun _ l' => l' = l.setBusy false := by
  refine .op (.endOp live) ?_
  rintro (_ | _) _ rfl
  · exact .ret rfl
  · exact .last (.commit live) fun _ _ h => h.symm

theorem fail_runs {r : Int} (live : l.mid ≠ .exited) :
    Runs l (endOp.bind fun _ => .ret r) fun _ l' => l' = l.setBusy false := by
  refine .bind (endOp_runs live) ?_
  rintro - _ rfl
  exact .ret rfl

theorem Node.type_decr : x.decr.type = x.type := by rw [Node.decr]

/-- A locked inode is changed in memory and written back. -/
theorem update_runs {f : Node → Node} (uses : l.Uses (i, n)) (held : l.held n = some (x, x))
    (mid : l.mid = .idle) (type : (f x).type = x.type) :
    Runs l (update i f) fun _ l' => l' = l.hold n (f x) := by
  have live : l.mid ≠ .exited := by simp [mid]
  apply Runs.inode uses held live
  refine .op (.setInode live uses held) ?_
  rintro - _ rfl
  refine .last (.iupdate mid uses (update_self ..) type) ?_
  rintro - _ rfl
  simp only [Loc.hold, update_idem]

/-- The end of most calls: the last inode is given back. -/
theorem leave_runs {r : Int} (calm : l.Calm) :
    Runs ((l.take (i, n)).hold n x) (do
      iunlockput i
      endOp
      return r) fun _ l' => l' = l.setBusy false := by
  refine .bind (iunlockput_take_runs calm.mid (calm.unlocked n)) ?_
  rintro - _ rfl
  exact fail_runs calm.live

/-! ## `sys_link` -/

theorem linkBad_runs (calm : l.Calm) :
    Runs (l.take (i, n)) (linkBad i) fun _ l' => l' = l.setBusy false := by
  have uses : (l.take (i, n)).Uses (i, n) := Loc.uses_take
  refine .bind (ilock_runs calm.mid uses) ?_
  rintro - _ ⟨-, x, -, rfl⟩
  refine .bind (update_runs uses Loc.held_hold calm.mid Node.type_decr) ?_
  rintro - _ rfl
  rw [Loc.hold_hold]
  exact leave_runs calm

/-- Only the locked directory is held, by a reference. -/
theorem Loc.Calm.owns (h : l.Calm) {q : Ptr} (hn : ((l.take q).hold q.2 x).held n ≠ none) :
    ∃ j, 0 < ((l.take q).hold q.2 x).refs (j, n) := by
  by_cases hq : n = q.2
  · subst hq
    exact ⟨q.1, Nat.succ_pos _ |>.trans_eq Loc.refs_take_self.symm⟩
  · rw [Loc.held_hold_of_ne hq] at hn
    exact absurd (h.unlocked n) hn

theorem linkNew_runs {new : Path} (calm : l.Calm) :
    Runs (l.take (i, n)) (linkNew i new) fun _ l' => l' = l.setBusy false := by
  have calm₁ : (l.take (i, n)).Calm := calm.take
  refine .bind (namex_runs calm₁) ?_
  rintro (_ | ⟨dp, name⟩) l₂ hres
  · obtain rfl := hres
    exact linkBad_runs calm
  obtain ⟨d, rfl⟩ := hres
  have uses : ((l.take (i, n)).take (dp, d)).Uses (i, n) := Loc.uses_take.take
  refine .bind (ilock_runs calm.mid Loc.uses_take) ?_
  rintro - _ ⟨-, x, -, rfl⟩
  have usesd : (((l.take (i, n)).take (dp, d)).hold d x).Uses (dp, d) := Loc.uses_take
  refine .op (.inum calm.live uses) ?_
  rintro _ _ ⟨rfl, rfl⟩
  refine .bind (dirlink_runs usesd Loc.held_hold calm.mid fun n' => calm₁.owns (q := (dp, d))) ?_
  rintro (_ | _) l₄ ⟨htrue, hfalse⟩
  · obtain ⟨rfl, -⟩ := hfalse rfl
    refine .bind (iunlockput_take_runs calm.mid (calm.unlocked d)) ?_
    rintro - _ rfl
    exact linkBad_runs calm
  · obtain ⟨z, rfl⟩ := htrue rfl
    rw [Loc.hold_hold]
    refine .bind (iunlockput_take_runs calm.mid (calm.unlocked d)) ?_
    rintro - _ rfl
    refine .bind (iput_take_runs calm.mid (.inl (calm.unlocked n))) ?_
    rintro - _ rfl
    exact fail_runs calm.live

theorem sysLink_runs {old new : Option Path} (calm : l.Calm) (busy : l.busy = false) :
    Runs l (sysLink old new) fun _ l' => l' = l.setBusy false := by
  match old, new with
  | none, _ => exact .ret (Loc.setBusy_eq busy).symm
  | some _, none => exact .ret (Loc.setBusy_eq busy).symm
  | some old, some new =>
    refine .op (.beginOp busy calm.unlocked calm.mid) ?_
    rintro - _ rfl
    have calm₁ : (l.setBusy true).Calm := calm.setBusy
    refine .bind (namex_runs calm₁) ?_
    rintro (_ | ⟨i, name⟩) l₂ hres
    · obtain rfl := hres
      exact fail_runs calm.live
    obtain ⟨n, rfl⟩ := hres
    refine .bind (ilock_runs calm.mid Loc.uses_take) ?_
    rintro - _ ⟨-, x, -, rfl⟩
    have uses : (((l.setBusy true).take (i, n)).hold n x).Uses (i, n) := Loc.uses_take
    apply Runs.inode uses Loc.held_hold calm.live
    split
    · exact leave_runs calm₁
    · refine .bind (update_runs uses Loc.held_hold calm.mid rfl) ?_
      rintro - _ rfl
      rw [Loc.hold_hold]
      refine .op (.iunlock calm.mid Loc.uses_take Loc.held_hold) ?_
      rintro - _ rfl
      rw [Loc.release_hold (l := (l.setBusy true).take (i, n)) (calm.unlocked n)]
      exact linkNew_runs calm₁

/-! ## `sys_unlink` -/

theorem isdirempty_runs (uses : l.Uses (i, n)) (held : l.held n = some (x, x))
    (mid : l.mid = .idle) :
    Runs l (isdirempty i) fun _ l' => l' = l := by
  have live : l.mid ≠ .exited := by simp [mid]
  have loop : ∀ fuel off, Runs l (isdiremptyFrom i fuel off) fun _ l' => l' = l := by
    intro fuel
    induction fuel with
    | zero => exact fun off => .ret rfl
    | succ fuel ih =>
      intro off
      apply Runs.inode uses held live
      split
      · refine .op (.readi live uses held) ?_
        rintro bs _ ⟨rfl, -⟩
        split
        · exact .panic live (by decide)
        split
        · exact .ret rfl
        · exact ih _
      · exact .ret rfl
  apply Runs.inode uses held live
  exact loop _ _

/-- A directory and an inode that has been looked up in it are locked. -/
def Loc.both (l : Loc) (dp ip : IId) (d n : Nat) (x z : Node) : Loc :=
  (((l.take (dp, d)).hold d x).take (ip, n)).hold n z

section Both

variable {dp ip : IId} {w z : Node}

theorem Loc.uses_both : (l.both dp ip d n x z).Uses (dp, d) := (Loc.uses_take (l := l)).take

theorem Loc.uses_both' : (l.both dp ip d n x z).Uses (ip, n) :=
  Loc.uses_take (l := (l.take (dp, d)).hold d x)

theorem Loc.held_both (hne : n ≠ d) : (l.both dp ip d n x z).held d = some (x, x) :=
  (Loc.held_hold_of_ne hne.symm).trans Loc.held_hold

theorem Loc.hold_both (hne : n ≠ d) : (l.both dp ip d n x z).hold d w = l.both dp ip d n w z := by
  simp only [both, hold, take, update_comm hne.symm, update_idem]

theorem Loc.both_eq (hne : n ≠ d) :
    l.both dp ip d n x z = (((l.take (ip, n)).hold n z).take (dp, d)).hold d x := by
  simp only [both, hold, take, update_comm hne, add_right_comm]

theorem unlinked_runs (calm : l.Calm) (hne : n ≠ d) :
    Runs (l.both dp ip d n x z) (do
      iunlockput dp
      update ip Node.decr
      iunlockput ip
      endOp
      return (0 : Int)) fun _ l' => l' = l.setBusy false := by
  have uses : ((l.take (ip, n)).hold n z).Uses (ip, n) := Loc.uses_take
  have free : ((l.take (ip, n)).hold n z).held d = none :=
    (Loc.held_hold_of_ne hne.symm).trans (calm.unlocked d)
  rw [Loc.both_eq hne]
  refine .bind (iunlockput_take_runs (l := (l.take (ip, n)).hold n z) calm.mid free) ?_
  rintro - _ rfl
  refine .bind (update_runs uses Loc.held_hold calm.mid Node.type_decr) ?_
  rintro - _ rfl
  rw [Loc.hold_hold]
  exact leave_runs calm

theorem erase_runs {k : Nat} {isDir : Bool} (calm : l.Calm) (hne : n ≠ d) :
    Runs (l.both dp ip d n x z) (erase dp ip (DESIZE * k) isDir) fun _ l' =>
      l' = l.setBusy false := by
  refine .op (.writeEntry calm.mid Loc.uses_both (Loc.held_both hne) Dirent.length_zero) ?_
  rintro r l₅ ⟨htrue, hfalse⟩
  split
  · obtain ⟨rfl, -⟩ := hfalse ‹_›
    exact .panic calm.live (by decide)
  obtain ⟨a, rfl⟩ := htrue (not_not.1 ‹_›)
  rw [Loc.hold_both hne]
  cases isDir with
  | true =>
    refine .bind (update_runs Loc.uses_both (Loc.held_both hne) calm.mid Node.type_decr) ?_
    rintro - _ rfl
    rw [Loc.hold_both hne]
    exact unlinked_runs calm hne
  | false => exact unlinked_runs calm hne

end Both

theorem sysUnlink_runs {path : Option Path} (calm : l.Calm) (busy : l.busy = false) :
    Runs l (sysUnlink path) fun _ l' => l' = l.setBusy false := by
  match path with
  | none => exact .ret (Loc.setBusy_eq busy).symm
  | some path =>
    refine .op (.beginOp busy calm.unlocked calm.mid) ?_
    rintro - _ rfl
    have calm₁ : (l.setBusy true).Calm := calm.setBusy
    refine .bind (namex_runs calm₁) ?_
    rintro (_ | ⟨dp, name⟩) l₂ hres
    · obtain rfl := hres
      exact fail_runs calm.live
    obtain ⟨d, rfl⟩ := hres
    refine .bind (ilock_runs calm.mid Loc.uses_take) ?_
    rintro - _ ⟨-, x, -, rfl⟩
    split
    · exact leave_runs calm₁
    have uses : (((l.setBusy true).take (dp, d)).hold d x).Uses (dp, d) := Loc.uses_take
    refine .bind (dirlookup_runs uses Loc.held_hold calm.mid) ?_
    rintro (_ | ⟨ip, off⟩) l₃ ⟨-, hfound⟩
    · obtain ⟨rfl, -⟩ := hfound
      exact leave_runs calm₁
    obtain ⟨k, n, rfl, -, -, -, -, -, rfl⟩ := hfound
    have uses' : ((((l.setBusy true).take (dp, d)).hold d x).take (ip, n)).Uses (ip, n) :=
      Loc.uses_take
    refine .bind (ilock_runs calm.mid uses') ?_
    rintro - _ ⟨hfree, z, -, rfl⟩
    have hne : n ≠ d := by
      rintro rfl
      have : (((l.setBusy true).take (dp, n)).hold n x).held n = some (x, x) := Loc.held_hold
      exact absurd (hfree.symm.trans this) nofun
    have both : ((l.setBusy true).both dp ip d n x z).Uses (ip, n) := Loc.uses_both'
    apply Runs.inode both Loc.held_hold calm.live
    split
    · exact .panic calm.live (by decide)
    split
    · refine .bind (isdirempty_runs both Loc.held_hold calm.mid) ?_
      rintro (_ | _) _ rfl
      · refine .bind (iunlockput_take_runs calm.mid hfree) ?_
        rintro - _ rfl
        exact leave_runs calm₁
      · exact erase_runs calm₁ hne
    · exact erase_runs calm₁ hne

end Xv6.Dir
