import Xv6.Dir.Directory
import Xv6.Dir.Table

/-!
# Full directories

A directory is full if no slot is empty and the file is as large as files can be. The panics that
say that a name could not be entered are reached with full directories only.
-/

namespace Xv6.Dir

open Lib

variable {P : Type} [DecidableEq P] [Fintype P] {sb : Superblock} {p : P} {s : St P} {dp : IId}
  {name : List UInt8} {inum : Nat}

/-- `dirlink` adds the entry and returns 0, or returns -1 and leaves the directory as it is. -/
def Links (sb : Superblock) (p : P) (s : St P) (dp : IId) (name : List UInt8) (inum : Nat) : Prop :=
  (dirlink dp name inum).Wp (exec sb p) (fun _ => False)
    (fun r s' =>
      (r = true ∧ Directory (s'.inode dp).node.data ∧
        binding (s'.inode dp).node.data =
          Function.update (binding (s.inode dp).node.data) (cstr name) (some inum)) ∨
      (r = false ∧ s'.disk = s.disk ∧ s'.inode dp = s.inode dp)) s

/-- What `dirlink` needs: for a name that is bound, an entry of the inode table for the inode; for a
name that is not, a slot in the directory and blocks for the slot. -/
def Accepts (sb : Superblock) (s : St P) (dp : IId) (name : List UInt8) (inum : Nat) : Prop :=
  match binding (s.inode dp).node.data (cstr name) with
  | some n => s.find n ≠ none
  | none => ¬Full (s.inode dp).node.data ∧ used sb (Function.update s.disk (s.inode dp).inum
      (s.writeSlot dp (emptySlot (s.inode dp).node.data) (Dirent.mk' name inum).bytes)) ≤ sb.nblocks

/-- No directory on the disk is full. -/
def NoFull (s : St P) : Prop := ∀ n, (s.disk n).type = .dir → ¬Full (s.disk n).data

theorem Accepts.links (hd : LockedDir sb s dp) (h0 : inum ≠ 0) (hi : inum < 2 ^ 16)
    (h : Accepts sb s dp name inum) : Links sb p s dp name inum := by
  rw [Accepts] at h
  cases hb : binding (s.inode dp).node.data (cstr name) with
  | some n =>
    rw [hb] at h
    refine ((hd.linked (by simp [hb])).weaken fun e he => ?_).mono fun r s' hr => ?_
    · obtain ⟨-, m, hm, hfind⟩ := he
      cases hb.symm.trans hm
      exact h hfind
    · obtain ⟨rfl, hdisk, hkeep⟩ := hr
      exact .inr ⟨rfl, hdisk, (hkeep dp).2 hd.ref⟩
  | none =>
    rw [hb] at h
    refine ((hd.link h0 hi hb).weaken fun e he => ?_).mono fun r s' hr => ?_
    · rcases he with ⟨-, hfull⟩ | ⟨-, hroom⟩
      · exact h.1 hfull
      · exact absurd h.2 (Nat.not_le.2 hroom)
    · obtain ⟨rfl, hdir, -, hbind, -⟩ := hr
      exact .inl ⟨rfl, hdir, hbind⟩

theorem Links.accepts (hd : LockedDir sb s dp) (h : Links sb p s dp name inum) :
    Accepts sb s dp name inum := by
  rw [Accepts]
  cases hb : binding (s.inode dp).node.data (cstr name) with
  | some n =>
    intro hfind
    obtain ⟨k, hk, hn⟩ := Option.map_eq_some_iff.1 hb
    have higet : exec sb p (.iget (entry (s.inode dp).node.data k).inum) s =
        .panic .igetNoInodes := by
      simp only [exec, hn, hfind]
    have hlookup : (dirlookup dp name).run (exec sb p) s = _ := dirlookup_run hd.loaded hd.type
    rw [hk] at hlookup
    exact (Prog.wp_bind.1 h).tol_of_run_panic (hlookup.trans (run_op_panic higet))
  | none =>
    have hrun : (dirlink dp name inum).run (exec sb p) s = _ :=
      dirlink_unbound_run hd.loaded hd.type (Option.map_eq_none_iff.1 hb)
    constructor
    · intro hfull
      rw [Full] at hfull
      rw [if_pos hfull] at hrun
      exact h.tol_of_run_panic hrun
    · by_contra hroom
      by_cases hfull : MAXFILE * BSIZE < DESIZE * emptySlot (s.inode dp).node.data + DESIZE
      · rw [if_pos hfull] at hrun
        exact h.tol_of_run_panic hrun
      · rw [if_neg hfull, if_pos (Nat.not_le.1 hroom)] at hrun
        exact h.tol_of_run_panic hrun

/-- Only the calls of `panic` say that a name could not be entered. -/
theorem exec_entryPanic {o : Op} {e : Panic} (he : exec sb p o s = .panic e)
    (hmem : e ∈ entryPanics) :
    o = .panic e := by
  cases o with
  | panic e' =>
    cases he
    rfl
  | _ =>
    simp only [exec] at he
    repeat' first | cases he <;> exact absurd hmem (by decide) | split at he

omit [DecidableEq P] [Fintype P] in
/-- A process that is about to give up has a full directory locked. -/
theorem Rule.full_of_panic {g : Ledger P} {l : Loc} {e : Panic} {R : (Op.panic e).Res → Loc → Prop}
    (h : At p l s g) (rule : Rule l (.panic e) R) (hmem : e ∈ entryPanics) : ¬NoFull s := by
  cases rule with
  | panic live ok => exact absurd (List.mem_append_right _ hmem) ok
  | panicFull live uses held type full =>
    rename_i i d x
    obtain ⟨-, -, hdisk, -⟩ := (h.inode.slot i).held d x x uses held
    intro hno
    refine hno d ?_ ?_
    · rw [hdisk, type]
    · rw [hdisk]
      exact full

/-- `dirlink` fails as it should iff it finds what it needs, and in runs in which no directory gets
full, no sequence of calls reaches the panics of `dirlink` and `create`. -/
theorem full_directory :
    (∀ (sb : Superblock) (p : P) (s : St P) (dp : IId) (name : List UInt8) (inum : Nat),
      LockedDir sb s dp →
      inum ≠ 0 → inum < 2 ^ 16 → (Links sb p s dp name inum ↔ Accepts sb s dp name inum)) ∧
    ∀ (sb : Superblock) (c : Config iface (St P × Ledger P) P) (e : Panic),
      Booted sb (fun _ _ s => NoFull s) c → e ∈ entryPanics →
      ¬(ledgered sb fun _ _ s => NoFull s).Panics c e := by
  constructor
  · intro sb p s dp name inum hd h0 hi
    exact ⟨fun h => h.accepts hd, fun h => h.links hd h0 hi⟩
  · rintro sb c e h hmem ⟨p, o, k, next, allowed, he⟩
    obtain ⟨l, R, hat, rule⟩ := h.rule next allowed
    obtain rfl := exec_entryPanic (System.withGhost_panic.1 he) hmem
    exact rule.full_of_panic hat hmem allowed

theorem dirlink_run_full {n : Nat} (hn : DESIZE * n = MAXFILE * BSIZE) :
    (dirlink ⟨0, by decide⟩ [97] 2).run (exec fourInodes true) (fullState n) = .panic .dirlink := by
  have hd : LockedDir fourInodes (fullState n) ⟨0, by decide⟩ := lockedDir_fullState hn.le
  have hun := Option.map_eq_none_iff.1 (unbound_fullState hn.le)
  have hfull : MAXFILE * BSIZE < DESIZE * n + DESIZE := by
    rw [hn]
    exact Nat.lt_add_of_pos_right (by decide)
  have hrun : (dirlink ⟨0, by decide⟩ [97] 2).run (exec fourInodes true) (fullState n) = _ :=
    dirlink_unbound_run hd.loaded hd.type hun
  rwa [emptySlot_fullState, if_pos hfull] at hrun

theorem not_links_full {n : Nat} (hn : DESIZE * n = MAXFILE * BSIZE) :
    ¬Links fourInodes true (fullState n) ⟨0, by decide⟩ [97] 2 := by
  intro h
  exact h.tol_of_run_panic (dirlink_run_full hn)

/-- A link in a directory with 17152 entries, on an image with free blocks. -/
theorem dirlink_panics_on_full : LockedDir fourInodes (fullState 17152) ⟨0, by decide⟩ ∧
    ¬Links fourInodes true (fullState 17152) ⟨0, by decide⟩ [97] 2 ∧
    (dirlink ⟨0, by decide⟩ [97] 2).run (exec fourInodes true)
    (fullState 17152) = .panic .dirlink := by
  have hn : DESIZE * 17152 = MAXFILE * BSIZE := by decide
  exact ⟨lockedDir_fullState hn.le, not_links_full hn, dirlink_run_full hn⟩

/-- A link in a directory with nothing but `.` and `..`, and the first state of a run. -/
theorem full_directory_two : Accepts fourInodes (fullState 2) ⟨0, by decide⟩ [97] 2 ∧
    Links fourInodes true (fullState 2) ⟨0, by decide⟩ [97] 2 ∧
    ¬(ledgered fourInodes fun _ _ s => NoFull s).Panics
      ⟨(bootState rootDisk, .start (bootState rootDisk)), fun _ => .ret ()⟩ .dirlink := by
  have hd : LockedDir fourInodes (fullState 2) ⟨0, by decide⟩ := lockedDir_fullState (by decide)
  have hacc : Accepts fourInodes (fullState 2) ⟨0, by decide⟩ [97] 2 := by
    have hun := unbound_fullState (n := 2) (by decide)
    have hcstr : cstr [97] = [97] := rfl
    rw [Accepts, hcstr, hun, Full, emptySlot_fullState]
    exact ⟨by decide, room_fullState (by decide)⟩
  exact ⟨hacc, (full_directory.1 _ _ _ _ _ _ hd (by decide) (by decide)).2 hacc,
    full_directory.2 _ _ _ ⟨_, boot_bootState rootDisk, .refl⟩ (by decide)⟩

end Xv6.Dir
