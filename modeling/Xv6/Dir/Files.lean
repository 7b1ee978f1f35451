import Xv6.Dir.Create

/-!
# The calls on files follow the rules

`open`, `close`, `dup`, `pipe`, `fork`, `exit`, `exec`, `read`, `write` and `fstat`; and from these,
every call: it starts with a process at rest and ends with it at rest.
-/

namespace Xv6.Dir

open Lib Function List

variable {sb : Superblock} {l : Loc} {i : IId} {f : FId} {n : Nat} {x z : Node}

namespace Loc

theorem closeFile_newFile (fresh : f ∉ l.fresh) (via : l.via = none) (viaPipe : l.viaPipe = none) :
    (l.newFile f).closeFile f = l := by
  have : insert f l.fresh \ {f} = l.fresh := Set.insert_sdiff_self_of_notMem fresh
  simp only [closeFile, newFile, add_sub_self, this, ← via, ← viaPipe]

theorem Calm.closeFile (h : l.Calm) : (l.closeFile f).Calm := { h with }

theorem Calm.newFile (h : l.Calm) : (l.newFile f).Calm := { h with }

theorem Calm.setFd {fd : Fd} {f : Option FId} (h : l.Calm) : (l.setFd fd f).Calm := { h with }

end Loc

/-! ## `fileclose` -/

/-- Closing a new file touches no inode and no pipe. -/
theorem filecloseNew_runs (mid : l.mid = .idle) (files : 0 < l.files f) (fresh : f ∈ l.fresh)
    (refs : ∀ i n, l.held n ≠ none → l.Uses (i, n) → 0 < l.refs (i, n)) :
    Runs l (fileclose f) fun _ l' => l' = l.closeFile f := by
  refine .op (.fileclose mid files refs) ?_
  rintro (_ | ff) l' ⟨hnone, hsome⟩
  · exact .ret (hnone rfl)
  · obtain ⟨htype, n, rfl⟩ := hsome ff rfl
    have htype := htype fresh
    simp only [htype]
    exact .ret rfl

theorem pipeclose_runs {pi : Nat} {w : Bool} (live : l.mid ≠ .exited) :
    Runs { l with ends := l.ends + Pi.single (pi, w) 1 } (pipeclose pi w) fun _ l' => l' = l := by
  refine .op (.pipeclose live (by simp)) ?_
  rintro (_ | _) l' ⟨htrue, hfalse⟩
  · obtain rfl := hfalse rfl
    exact .ret (by simp only [add_sub_self])
  · obtain rfl := htrue rfl
    refine .last (.kfree live (by simp)) ?_
    rintro - _ rfl
    simp only [add_sub_self]

theorem fileclose_runs (calm : l.Calm) (busy : l.busy = false) (files : 0 < l.files f) :
    Runs l (fileclose f) fun _ l' => l' = l.closeFile f := by
  refine .op (.fileclose calm.mid files fun i n h => absurd (calm.unlocked n) h) ?_
  rintro (_ | ff) l' ⟨hnone, hsome⟩
  · exact .ret (hnone rfl)
  obtain ⟨-, n, rfl⟩ := hsome ff rfl
  have calm' : (l.closeFile f).Calm := calm.closeFile
  by_cases hp : ff.type = .pipe
  · simp only [hp]
    exact pipeclose_runs (l := l.closeFile f) calm.live
  by_cases hi : ff.type = .inode ∨ ff.type = .device
  · simp only [hp, hi, if_false, if_true]
    refine .op (.beginOp busy calm.unlocked calm.mid) ?_
    rintro - _ rfl
    refine .bind (iput_take_runs (l := (l.closeFile f).setBusy true) calm.mid
      (.inl (calm.unlocked n))) ?_
    rintro - _ rfl
    refine (endOp_runs (l := (l.closeFile f).setBusy true) calm.live).mono ?_
    rintro - _ rfl
    exact Loc.setBusy_eq (l := l.closeFile f) busy
  · simp only [hp, hi, if_false]
    exact .ret rfl

/-! ## `sys_open` -/

/-- `sys_open` has made a descriptor. -/
def Loc.opened (l : Loc) (f : FId) (fd : Fd) (v : Option (FId × Ptr)) : Loc :=
  { l.setFd fd (some f) with files := l.files + Pi.single f 1, via := v }

section Open

variable {omode : Nat} (calm : l.Calm) (via : l.via = none)

include calm via

theorem openFile_runs {fd : Fd} (fresh : f ∉ l.fresh) :
    Runs ((((l.newFile f).setFd fd (some f)).take (i, n)).hold n z)
      (Dir.openFile i z f fd omode) fun _ l' => ∃ v, l' = (l.opened f fd v).setBusy false := by
  have mem : f ∈ ((((l.newFile f).setFd fd (some f)).take (i, n)).hold n z).fresh :=
    Set.mem_insert ..
  have refs : ((((l.newFile f).setFd fd (some f)).take (i, n)).hold n z).refs (i, n) =
      l.refs (i, n) + 1 :=
    Loc.refs_take_self
  refine .op (.file calm.live (by simp [Loc.take, Loc.hold, Loc.newFile, Loc.setFd])) ?_
  rintro ff _ ⟨rfl, href⟩
  refine .op (.setFile calm.mid mem (href mem) ?_ (n := n) (refs.symm ▸ Nat.succ_pos _) ?_) ?_
  · split
    · exact .inr rfl
    · exact .inl rfl
  · rintro i' m - (h | ⟨f', h⟩)
    · exact .inr h
    · exact absurd (via.symm.trans h) (by simp)
  rintro - _ rfl
  have given : ({ (((l.newFile f).setFd fd (some f)).take (i, n)).hold n z with
      refs := ((((l.newFile f).setFd fd (some f)).take (i, n)).hold n z).refs - Pi.single (i, n) 1
      fresh := ((((l.newFile f).setFd fd (some f)).take (i, n)).hold n z).fresh \ {f}
      via := some (f, (i, n)) } : Loc) = (l.opened f fd (some (f, (i, n)))).hold n z := by
    have : insert f l.fresh \ {f} = l.fresh := Set.insert_sdiff_self_of_notMem fresh
    simp only [Loc.opened, Loc.newFile, Loc.setFd, Loc.take, Loc.hold, add_sub_self, this]
  rw [given]
  have uses (z) : ((l.opened f fd (some (f, (i, n)))).hold n z).Uses (i, n) := .inr ⟨_, rfl⟩
  have rest (z) : Runs ((l.opened f fd (some (f, (i, n)))).hold n z) (do
        iunlock i
        endOp
        return (fd.val : Int)) fun _ l' => ∃ v, l' = (l.opened f fd v).setBusy false := by
    refine .bind (iunlock_runs calm.mid (uses z) Loc.held_hold) ?_
    rintro - _ rfl
    rw [Loc.release_hold (l := l.opened f fd _) (calm.unlocked n)]
    exact (fail_runs (l := l.opened f fd _) calm.live).mono fun _ _ h => ⟨_, h⟩
  split
  · refine .op (.itrunc (.inl calm.mid) (uses z) Loc.held_hold) ?_
    rintro - _ rfl
    rw [Loc.hold_hold]
    exact rest _
  · exact rest z

theorem openInode_runs (viaPipe : l.viaPipe = none) :
    Runs ((l.take (i, n)).hold n z) (openInode i omode) fun _ l' => l' = l.setBusy false ∨
    ∃ f fd v, l.ofile fd = none ∧ l' = (l.opened f fd v).setBusy false := by
  have uses : ((l.take (i, n)).hold n z).Uses (i, n) := Loc.uses_take
  apply Runs.inode uses Loc.held_hold calm.live
  split
  · exact (leave_runs calm).mono fun _ _ => .inl
  refine .op (.filealloc calm.live) ?_
  rintro (_ | f) l₁ ⟨hnone, hsome⟩
  · obtain rfl := hnone rfl
    exact (leave_runs calm).mono fun _ _ => .inl
  obtain ⟨hf, fresh, rfl⟩ := hsome f rfl
  have mem : f ∈ (((l.newFile f).take (i, n)).hold n z).fresh := Set.mem_insert ..
  refine .op (.fdalloc calm.live) ?_
  rintro (_ | fd) l₂ ⟨hnone, hsome⟩
  · obtain rfl := hnone rfl
    refine .bind
      (filecloseNew_runs (l := ((l.newFile f).take (i, n)).hold n z) calm.mid ?_ mem ?_) ?_
    · simp [Loc.newFile, Loc.take, Loc.hold]
    · rintro i' m - (h | ⟨f', h⟩)
      · exact h
      · exact absurd (via.symm.trans h) (by simp)
    · rintro - _ rfl
      change Runs ((((l.newFile f).closeFile f).take (i, n)).hold n z) _ _
      rw [Loc.closeFile_newFile (l := l) fresh via viaPipe]
      exact (leave_runs calm).mono fun _ _ => .inl
  · obtain ⟨hfd, rfl⟩ := hsome fd rfl
    exact (openFile_runs calm via fresh).mono fun _ _ h => h.elim fun v h => .inr ⟨f, fd, v, hfd, h⟩

end Open

/-! ## Calls -/

/-- What is known when a call starts. -/
structure Loc.Ready (l : Loc) : Prop where
  idle : l.Idle
  mid : l.mid = .idle
  via : l.via = none
  viaPipe : l.viaPipe = none

namespace Loc

theorem Ready.calm (h : l.Ready) : l.Calm := h.idle.calm h.mid

theorem Ready.rest {l' : Loc} (h : l.Ready) (hl : l' = l.setBusy false) : l'.Idle := by
  rw [hl, setBusy_eq h.idle.busy]
  exact h.idle

theorem Idle.look {ff : File} (h : l.Idle) : (l.look n f ff).Idle :=
  { h with }

theorem Ready.opened {fd : Fd} {v : Option (FId × Ptr)} (h : l.Ready) (hfd : l.ofile fd = none) :
    ((l.opened f fd v).setBusy false).Idle where
  unlocked := h.idle.unlocked
  refs := h.idle.refs
  mid := .inl h.mid
  busy := rfl
  files := (congrArg (· + Pi.single f 1) h.idle.files).trans (fdFiles_set hfd).symm
  fresh := h.idle.fresh
  ends := h.idle.ends
  corpses := h.idle.corpses
  kid := h.idle.kid

end Loc

theorem failed_runs {r : Int} (h : l.Ready) :
    Runs (l.setBusy true) (endOp.bind fun _ => .ret r) fun _ => Loc.Idle :=
  (fail_runs (l := l.setBusy true) h.calm.live).mono fun _ _ => h.rest

theorem sysOpen_runs {path : Option Path} {omode : Nat} (h : l.Ready) :
    Runs l (sysOpen sb path omode) fun _ => Loc.Idle := by
  have calm := h.calm
  match path with
  | none => exact .ret h.idle
  | some path =>
    refine .op (.beginOp h.idle.busy calm.unlocked calm.mid) ?_
    rintro - _ rfl
    have calm₁ : (l.setBusy true).Calm := calm.setBusy
    have opened {i : IId} {n : Nat} {z : Node} :
        Runs (((l.setBusy true).take (i, n)).hold n z) (openInode i omode) fun _ => Loc.Idle := by
      refine (openInode_runs calm₁ h.via h.viaPipe).mono ?_
      rintro - _ (hl | ⟨f, fd, v, hfd, rfl⟩)
      · exact h.rest hl
      · exact h.opened hfd
    by_cases hc : has omode O_CREATE
    · simp only [hc, if_true]
      refine .bind (create_runs nofun calm₁) ?_
      rintro (_ | i) l₂ ⟨hnone, hsome⟩
      · obtain rfl := hnone rfl
        exact failed_runs h
      · obtain ⟨n, z, rfl⟩ := hsome i rfl
        exact opened
    · simp only [hc]
      refine .bind (namex_runs calm₁) ?_
      rintro (_ | ⟨i, name⟩) l₂ hres
      · obtain rfl := hres
        exact failed_runs h
      obtain ⟨n, rfl⟩ := hres
      refine .bind (ilock_runs calm.mid Loc.uses_take) ?_
      rintro - _ ⟨-, z, -, rfl⟩
      have uses : (((l.setBusy true).take (i, n)).hold n z).Uses (i, n) := Loc.uses_take
      apply Runs.inode uses Loc.held_hold calm.live
      split
      · exact (leave_runs calm₁).mono fun _ _ => h.rest
      · exact opened

theorem sysMake_runs {path : Option Path} {type : IType} {major minor : Nat} (ht : type ≠ .free)
    (h : l.Ready) :
    Runs l (sysMake sb path type major minor) fun _ => Loc.Idle := by
  have calm := h.calm
  have calm₁ : (l.setBusy true).Calm := calm.setBusy
  refine .op (.beginOp h.idle.busy calm.unlocked calm.mid) ?_
  rintro - _ rfl
  match path with
  | none => exact failed_runs h
  | some path =>
    refine .bind (create_runs ht calm₁) ?_
    rintro (_ | i) l₂ ⟨hnone, hsome⟩
    · obtain rfl := hnone rfl
      exact failed_runs h
    · obtain ⟨n, z, rfl⟩ := hsome i rfl
      exact (leave_runs calm₁).mono fun _ _ => h.rest

theorem sysChdir_runs {path : Option Path} (h : l.Ready) :
    Runs l (sysChdir path) fun _ => Loc.Idle := by
  have calm := h.calm
  have calm₁ : (l.setBusy true).Calm := calm.setBusy
  refine .op (.beginOp h.idle.busy calm.unlocked calm.mid) ?_
  rintro - _ rfl
  match path with
  | none => exact failed_runs h
  | some path =>
    refine .bind (namex_runs calm₁) ?_
    rintro (_ | ⟨i, name⟩) l₂ hres
    · obtain rfl := hres
      exact failed_runs h
    obtain ⟨n, rfl⟩ := hres
    refine .bind (ilock_runs calm.mid Loc.uses_take) ?_
    rintro - _ ⟨-, z, -, rfl⟩
    have uses : (((l.setBusy true).take (i, n)).hold n z).Uses (i, n) := Loc.uses_take
    apply Runs.inode uses Loc.held_hold calm.live
    split
    · exact (leave_runs calm₁).mono fun _ _ => h.rest
    refine .bind (iunlock_runs calm.mid uses Loc.held_hold) ?_
    rintro - _ rfl
    rw [Loc.release_hold (l := (l.setBusy true).take (i, n)) (calm.unlocked n)]
    refine .op (.cwd calm.live) ?_
    rintro (c : IId) _ ⟨⟨m, hc⟩, rfl⟩
    have refs : l.refs = Pi.single (c, m) 1 := by
      rw [h.idle.refs, show l.cwd = some (c, m) from hc, cwdRefs_some]
    refine .bind (iput_runs calm.mid ?_ (.inl (calm.unlocked m))) ?_
    · exact (calm.cwd _ hc).trans_le (Loc.refs_le_take _)
    rintro - _ rfl
    refine .bind (endOp_runs (l := ((l.setBusy true).take (i, n)).drop (c, m)) calm.live) ?_
    rintro - _ rfl
    refine .op (.setCwd (c := some (i, n)) calm.live) ?_
    rintro - _ rfl
    refine .ret { h.idle with refs := ?_, mid := .inl calm.mid, busy := rfl }
    simp only [Loc.drop, Loc.take, Loc.setBusy, refs, cwdRefs_some]
    rw [add_comm, add_sub_self]

theorem Loc.Idle.close {fd : Fd} (h : l.Idle) (mid : l.mid = .idle) (hf : l.ofile fd = some f) :
    ((l.setFd fd none).closeFile f).Idle where
  unlocked := h.unlocked
  refs := h.refs
  mid := .inl mid
  busy := h.busy
  files := by
    have := h.files.trans (fdFiles_clear hf)
    simp only [closeFile, setFd, this, add_sub_self]
  fresh := by simp [closeFile, setFd, h.fresh]
  ends := h.ends
  corpses := h.corpses
  kid := h.kid

theorem Loc.Idle.files_pos {fd : Fd} (h : l.Idle) (hf : l.ofile fd = some f) : 0 < l.files f :=
  h.files ▸ fdFiles_pos hf

theorem sysClose_runs {fd : Fd} (h : l.Ready) : Runs l (sysClose fd) fun _ => Loc.Idle := by
  have calm := h.calm
  refine .op (.fd calm.live) ?_
  rintro (_ | f) _ ⟨hf, rfl⟩
  · exact .ret h.idle
  refine .op (.fdclear calm.live) ?_
  rintro - _ rfl
  refine .bind (fileclose_runs calm.setFd h.idle.busy (h.idle.files_pos hf)) ?_
  rintro - _ rfl
  exact .ret (h.idle.close h.mid hf)

theorem sysDup_runs {fd : Fd} (h : l.Ready) : Runs l (sysDup fd) fun _ => Loc.Idle := by
  have calm := h.calm
  refine .op (.fd calm.live) ?_
  rintro (_ | f) _ ⟨hf, rfl⟩
  · exact .ret h.idle
  refine .op (.fdalloc calm.live) ?_
  rintro (_ | fd') l₁ ⟨hnone, hsome⟩
  · obtain rfl := hnone rfl
    exact .ret h.idle
  obtain ⟨hfd, rfl⟩ := hsome fd' rfl
  refine .op (.filedup calm.live (h.idle.files_pos hf)) ?_
  rintro - _ rfl
  refine .ret { h.idle with mid := .inl calm.mid, files := ?_, fresh := ?_ }
  · exact (congrArg (· + Pi.single f 1) h.idle.files).trans (fdFiles_set hfd).symm
  · simp [Loc.setFd, h.idle.fresh]

/-! ## `sys_pipe` -/

theorem Loc.newFile_comm {f0 f1 : FId} : (l.newFile f0).newFile f1 = (l.newFile f1).newFile f0 := by
  simp only [newFile, add_right_comm, Set.insert_comm]

theorem closeNew_runs (calm : l.Calm) (fresh : f ∉ l.fresh) (via : l.via = none)
    (viaPipe : l.viaPipe = none) : Runs (l.newFile f) (fileclose f) fun _ l' => l' = l := by
  refine (filecloseNew_runs (l := l.newFile f) calm.mid (by simp [Loc.newFile]) (Set.mem_insert ..)
    fun i n h => absurd (calm.unlocked n) h).mono ?_
  rintro - _ rfl
  exact Loc.closeFile_newFile fresh via viaPipe

/-- Both ends of a new pipe have their files. -/
def Loc.piped (l : Loc) (f0 f1 : FId) : Loc :=
  { l with files := l.files + Pi.single f0 1 + Pi.single f1 1 }

theorem pipeFiles_runs {f0 f1 : FId} {pi : Nat} (live : l.mid ≠ .exited) (hf : f1 ≠ f0)
    (h0 : f0 ∉ l.fresh) (h1 : f1 ∉ l.fresh) :
    Runs { (l.newFile f0).newFile f1 with
      ends := l.ends + Pi.single (pi, false) 1 + Pi.single (pi, true) 1 } (pipeFiles f0 f1 pi)
      fun _ l' => l' = l.piped f0 f1 := by
  refine .op (.file live (by simp [Loc.newFile])) ?_
  rintro ff _ ⟨rfl, href⟩
  refine .op (.setFilePipe live ?_ (href ?_) rfl ?_) ?_
  · simp [Loc.newFile]
  · simp [Loc.newFile]
  · simp
  rintro - _ rfl
  refine .op (.file live (by simp [Loc.newFile])) ?_
  rintro ff _ ⟨rfl, href⟩
  refine .last (.setFilePipe live ?_ (href ?_) rfl ?_) ?_
  · simp [Loc.newFile, hf]
  · simp [Loc.newFile, hf]
  · simp
  rintro - _ rfl
  have fresh : (insert f1 (insert f0 l.fresh) \ {f0}) \ {f1} = l.fresh := by
    ext f
    simp only [Set.mem_sdiff, Set.mem_insert_iff, Set.mem_singleton_iff]
    grind
  have ends : l.ends + Pi.single (pi, false) 1 + Pi.single (pi, true) 1 - Pi.single (pi, false) 1 -
      Pi.single (pi, true) 1 = l.ends := by
    rw [add_right_comm, add_sub_self, add_sub_self]
  simp only [Loc.newFile, Loc.piped, fresh, ends]

theorem pipealloc_runs (calm : l.Calm) (via : l.via = none) (viaPipe : l.viaPipe = none) :
    Runs l pipealloc fun r l' => (r = none → l' = l) ∧
      ∀ f0 f1, r = some (f0, f1) → l' = l.piped f0 f1 := by
  refine .op (.filealloc calm.live) ?_
  rintro (_ | f0) l₁ ⟨hnone, hsome⟩
  · obtain rfl := hnone rfl
    exact .ret ⟨fun _ => rfl, nofun⟩
  obtain ⟨hf0, h0, rfl⟩ := hsome f0 rfl
  refine .op (.filealloc calm.live) ?_
  rintro (_ | f1) l₂ ⟨hnone, hsome⟩
  · obtain rfl := hnone rfl
    refine .bind (closeNew_runs calm h0 via viaPipe) ?_
    rintro - _ rfl
    exact .ret ⟨fun _ => rfl, nofun⟩
  obtain ⟨hf1, h1, rfl⟩ := hsome f1 rfl
  have hne : f1 ≠ f0 := fun h => h1 (h ▸ Set.mem_insert ..)
  have h1 : f1 ∉ l.fresh := fun h => h1 (Set.mem_insert_of_mem _ h)
  refine .op (.pipeNew calm.live) ?_
  rintro (_ | pi) l₃ ⟨hnone, hsome⟩
  · obtain rfl := hnone rfl
    rw [Loc.newFile_comm]
    have h0' : f0 ∉ (l.newFile f1).fresh := fun h => h.elim hne.symm h0
    refine .bind (closeNew_runs calm.newFile h0' via viaPipe) ?_
    rintro - _ rfl
    refine .bind (closeNew_runs calm h1 via viaPipe) ?_
    rintro - _ rfl
    exact .ret ⟨fun _ => rfl, nofun⟩
  · obtain rfl := hsome pi rfl
    refine .bind (pipeFiles_runs calm.live hne h0 h1) ?_
    rintro - _ rfl
    refine .ret ⟨nofun, ?_⟩
    rintro _ _ ⟨⟩
    rfl

theorem pipeBad_runs {rf wf : FId} {fds : List Fd} (calm : l.Calm) (busy : l.busy = false) :
    Runs (l.piped rf wf) (pipeBad fds rf wf) fun _ l' =>
      l' = { l with
        ofile := fds.foldl (fun o fd => Function.update o fd none) l.ofile
        fresh := (l.fresh \ {rf}) \ {wf}, via := none, viaPipe := none } := by
  induction fds generalizing l with
  | nil =>
    refine .bind (fileclose_runs (l := l.piped rf wf) { calm with }
      busy ?_) ?_
    · simp only [Loc.piped, Pi.add_apply, Pi.single_eq_same]
      omega
    rintro - _ rfl
    refine .bind (fileclose_runs { calm with } busy ?_) ?_
    · simp only [Loc.piped, Loc.closeFile, add_right_comm _ (Pi.single rf 1), add_sub_self]
      simp
    rintro - _ rfl
    refine .ret ?_
    simp only [Loc.piped, Loc.closeFile, add_right_comm _ (Pi.single rf 1), add_sub_self, foldl_nil]
  | cons fd fds ih =>
    refine .op (.fdclear calm.live) ?_
    rintro - _ rfl
    exact ih (l := l.setFd fd none) calm.setFd busy

theorem sysPipe_runs {mapped : Bool} (h : l.Ready) : Runs l (sysPipe mapped) fun _ => Loc.Idle := by
  have calm := h.calm
  have idle {o : Fd → Option FId} {fr : Set FId} (ho : o = l.ofile) (hfr : fr = ∅) :
      Loc.Idle { l with ofile := o, fresh := fr, via := none, viaPipe := none } := by
    subst ho hfr
    exact { h.idle with fresh := rfl }
  have fresh {rf wf : FId} : (l.fresh \ {rf}) \ {wf} = ∅ := by simp [h.idle.fresh]
  refine .bind (pipealloc_runs calm h.via h.viaPipe) ?_
  rintro (_ | ⟨rf, wf⟩) l₁ ⟨hnone, hsome⟩
  · obtain rfl := hnone rfl
    exact .ret h.idle
  obtain rfl := hsome rf wf rfl
  refine .op (.fdalloc calm.live) ?_
  rintro (_ | fd0) l₂ ⟨hnone, hsome⟩
  · obtain rfl := hnone rfl
    refine (pipeBad_runs calm h.idle.busy).mono ?_
    rintro - _ rfl
    exact idle rfl fresh
  obtain ⟨h0, rfl⟩ := hsome fd0 rfl
  refine .op (.fdalloc calm.live) ?_
  rintro (_ | fd1) l₃ ⟨hnone, hsome⟩
  · obtain rfl := hnone rfl
    refine (pipeBad_runs (l := l.setFd fd0 (some rf)) calm.setFd h.idle.busy).mono ?_
    rintro - _ rfl
    refine idle ?_ fresh
    simp only [foldl_cons, foldl_nil, Loc.setFd, update_idem]
    rw [← show l.ofile fd0 = none from h0, update_eq_self]
  obtain ⟨h1, rfl⟩ := hsome fd1 rfl
  have hne : fd0 ≠ fd1 := by
    rintro rfl
    simp [Loc.setFd] at h1
  have h0 : l.ofile fd0 = none := h0
  have h1 : l.ofile fd1 = none := by simpa [Loc.setFd, Loc.piped, update_of_ne hne.symm] using h1
  cases mapped with
  | true =>
    refine .ret { h.idle with mid := .inl calm.mid, files := ?_ }
    simp only [Loc.setFd, Loc.piped]
    rw [fdFiles_set (by simpa [update_of_ne hne.symm] using h1), fdFiles_set h0, h.idle.files]
  | false =>
    refine (pipeBad_runs (l := (l.setFd fd0 (some rf)).setFd fd1 (some wf)) calm.setFd.setFd
      h.idle.busy).mono ?_
    rintro - _ rfl
    refine idle ?_ fresh
    simp only [foldl_cons, foldl_nil, Loc.setFd]
    funext fd
    by_cases hfd1 : fd = fd1
    · simp [hfd1, h1]
    · by_cases hfd0 : fd = fd0
      · simp [hfd0, hne, h0]
      · simp [hfd0, hfd1]

/-! ## `fork` and `exit` -/

/-- A new process with its references. -/
def Loc.forking (l : Loc) (o : Fd → Option FId) : Loc :=
  { l with files := l.files + fdFiles o, kid := some ⟨o, none⟩ }

theorem dupFiles_runs {fds : List Fd} {o : Fd → Option FId} (h : l.Ready) (nodup : fds.Nodup)
    (free : ∀ fd ∈ fds, o fd = none) :
    Runs (l.forking o) (dupFiles fds) fun _ l' => ∃ o, l' = l.forking o := by
  induction fds generalizing o with
  | nil => exact .ret ⟨o, rfl⟩
  | cons fd fds ih =>
    obtain ⟨hfd, nodup⟩ := nodup_cons.1 nodup
    refine .op (.fd h.calm.live) ?_
    rintro (_ | f) _ ⟨hf, rfl⟩
    · exact ih nodup fun fd' hmem => free fd' (.tail _ hmem)
    refine .op (.filedup h.calm.live (Nat.add_pos_left (h.idle.files_pos hf) _)) ?_
    rintro - _ rfl
    refine .op (.childFd h.calm.live rfl) ?_
    rintro - _ rfl
    have step : ({ l with
        files := l.files + fdFiles o + Pi.single f 1, fresh := l.fresh \ {f}
        kid := some ⟨Function.update o fd (some f), none⟩ } : Loc) =
          l.forking (Function.update o fd (some f)) := by
      have : l.fresh \ {f} = l.fresh := by simp [h.idle.fresh]
      rw [Loc.forking, fdFiles_set (free fd mem_cons_self), ← add_assoc, this]
    rw [show ({ l.forking o with
        files := (l.forking o).files + Pi.single f 1, fresh := (l.forking o).fresh \ {f}
        kid := some ⟨Function.update o fd (some f), none⟩ } : Loc) = _ from step]
    refine ih nodup fun fd' hmem => ?_
    have hne : fd' ≠ fd := by
      rintro rfl
      exact hfd hmem
    rw [update_of_ne hne]
    exact free fd' (.tail _ hmem)

theorem fork_runs {copied : Bool} (h : l.Ready) : Runs l (fork copied) fun _ => Loc.Idle := by
  have calm := h.calm
  refine .op (.allocproc calm.live h.idle.kid) ?_
  rintro (_ | _) l₁ ⟨htrue, hfalse⟩
  · obtain rfl := hfalse rfl
    exact .ret h.idle
  obtain rfl := htrue rfl
  cases copied with
  | false =>
    refine .op (.freeproc calm.live rfl) ?_
    rintro - _ rfl
    refine .ret ?_
    rw [show ({ l with kid := none } : Loc) = l by rw [← h.idle.kid]]
    exact h.idle
  | true =>
    have start : ({ l with kid := some ⟨fun _ => none, none⟩ } : Loc) =
        l.forking fun _ => none := by
      simp only [Loc.forking, fdFiles_none, add_zero]
    rw [start]
    refine .bind (dupFiles_runs h (nodup_finRange _) fun _ _ => rfl) ?_
    rintro - _ ⟨o, rfl⟩
    refine .op (.cwd calm.live) ?_
    rintro (c : IId) _ ⟨⟨n, hc⟩, rfl⟩
    refine .op (.idup calm.mid (calm.cwd _ hc)) ?_
    rintro - _ rfl
    refine .op
      (.childCwd (q := (c, n)) calm.live rfl (Loc.refs_take_self (l := l) ▸ Nat.succ_pos _)) ?_
    rintro - _ rfl
    refine .op (.runnable calm.mid rfl calm.unlocked h.idle.fresh nofun ?_ ?_) ?_
    · intro q
      simp [Loc.take]
    · intro f
      simp [Loc.take, Loc.forking]
    rintro - _ rfl
    refine .ret { h.idle with refs := ?_, files := ?_, kid := rfl }
    · simp only [Loc.take, Loc.forking, cwdRefs_some, add_sub_self, h.idle.refs]
    · simp only [Loc.take, Loc.forking, add_sub_self, h.idle.files]

theorem closeFiles_runs {fds : List Fd} (h : l.Idle) (mid : l.mid = .idle) :
    Runs l (closeFiles fds) fun _ l' => l'.Idle ∧ l'.mid = .idle ∧
      ∀ fd, fd ∈ fds ∨ l.ofile fd = none → l'.ofile fd = none := by
  induction fds generalizing l with
  | nil => exact .ret ⟨h, mid, fun fd hfd => hfd.resolve_left nofun⟩
  | cons fd fds ih =>
    have calm := h.calm mid
    refine .op (.fd calm.live) ?_
    rintro (_ | f) _ ⟨hf, rfl⟩
    · refine (ih h mid).mono fun _ l' ⟨hi, hm, ho⟩ => ⟨hi, hm, fun fd' hfd' => ho fd' ?_⟩
      rcases hfd' with hfd' | hfd'
      · rcases mem_cons.1 hfd' with rfl | hmem
        · exact .inr hf
        · exact .inl hmem
      · exact .inr hfd'
    · refine .bind (fileclose_runs calm h.busy (h.files_pos hf)) ?_
      rintro - _ rfl
      refine .op (.fdclear calm.live) ?_
      rintro - _ rfl
      refine (ih (l := (l.closeFile f).setFd fd none) (h.close mid hf) mid).mono ?_
      refine fun _ l' ⟨hi, hm, ho⟩ => ⟨hi, hm, fun fd' hfd' => ho fd' ?_⟩
      by_cases he : fd' = fd
      · exact .inr (by simp [he, Loc.setFd])
      · rcases hfd' with hfd' | hfd'
        · exact .inl ((mem_cons.1 hfd').resolve_left he)
        · exact .inr ((update_of_ne he ..).trans hfd')

theorem exit_runs (h : l.Ready) : Runs l Dir.exit fun _ => Loc.Idle := by
  refine .bind (closeFiles_runs h.idle h.mid) ?_
  rintro - l₁ ⟨idle, mid, hofile⟩
  have calm := idle.calm mid
  have ofile : l₁.ofile = fun _ => none := funext fun fd => hofile fd (.inl (mem_finRange fd))
  refine .op (.beginOp idle.busy calm.unlocked calm.mid) ?_
  rintro - _ rfl
  refine .op (.cwd calm.live) ?_
  rintro (c : IId) _ ⟨⟨n, hc⟩, rfl⟩
  have refs : l₁.refs = Pi.single (c, n) 1 := by
    rw [idle.refs, show l₁.cwd = some (c, n) from hc, cwdRefs_some]
  refine .bind (iput_runs calm.mid (calm.cwd _ hc) (.inl (calm.unlocked n))) ?_
  rintro - _ rfl
  refine .bind (endOp_runs (l := (l₁.setBusy true).drop (c, n)) calm.live) ?_
  rintro - _ rfl
  refine .op (.setCwd (c := none) calm.live) ?_
  rintro - _ rfl
  have done : Loc.Idle { ((l₁.setBusy true).drop (c, n)).setBusy false with cwd := none } := by
    refine { idle with refs := ?_, mid := .inl calm.mid, busy := rfl }
    simp only [Loc.drop, Loc.setBusy, refs, cwdRefs_none]
    exact funext fun q => Nat.sub_self _
  refine .op (.zombie calm.mid done rfl ofile) ?_
  rintro - _ rfl
  exact .ret { done with mid := .inr ⟨rfl, rfl, ofile⟩ }

/-! ## `exec`, `read`, `write` and `fstat` -/

theorem execFile_runs {path : Path} {reads : List (Nat × Nat)} (h : l.Ready) :
    Runs l (execFile path reads) fun _ => Loc.Idle := by
  have calm := h.calm
  have calm₁ : (l.setBusy true).Calm := calm.setBusy
  refine .op (.beginOp h.idle.busy calm.unlocked calm.mid) ?_
  rintro - _ rfl
  refine .bind (namex_runs calm₁) ?_
  rintro (_ | ⟨i, name⟩) l₂ hres
  · obtain rfl := hres
    exact failed_runs h
  obtain ⟨n, rfl⟩ := hres
  refine .bind (ilock_runs calm.mid Loc.uses_take) ?_
  rintro - _ ⟨-, z, -, rfl⟩
  have uses : (((l.setBusy true).take (i, n)).hold n z).Uses (i, n) := Loc.uses_take
  have read (rs) : Runs (((l.setBusy true).take (i, n)).hold n z) (readRanges i rs)
      fun _ l' => l' = ((l.setBusy true).take (i, n)).hold n z := by
    induction rs with
    | nil => exact .ret rfl
    | cons r rs ih =>
      refine .op (.readi calm.live uses Loc.held_hold) ?_
      rintro - _ ⟨rfl, -⟩
      exact ih
  refine .bind (read reads) ?_
  rintro - _ rfl
  exact (leave_runs calm₁).mono fun _ _ => h.rest

theorem pipeTransfer_runs {pi : Nat} {io : Transfer} (live : l.mid ≠ .exited)
    (via : l.viaPipe = some (f, pi)) :
    Runs l (pipeTransfer pi io) fun _ l' => l' = l := by
  have rounds (n) : Runs l (pipeRounds pi n) fun _ l' => l' = l := by
    induction n with
    | zero => exact .last (.pipeAccess live via) fun _ _ h => h.symm
    | succ n ih =>
      refine .op (.pipeAccess live via) ?_
      rintro - _ rfl
      exact ih
  refine .bind (rounds _) ?_
  rintro - _ rfl
  exact .ret rfl

section File

variable {ff : File} (h : l.Ready) (hi : ff.type = .inode ∨ ff.type = .device)

include hi in
theorem Loc.via_look : (l.look n f ff).via = some (f, (ff.ip, n)) := if_pos hi

include hi in
theorem Loc.uses_look : (l.look n f ff).Uses (ff.ip, n) := .inr ⟨_, Loc.via_look hi⟩

include h hi in
theorem ilockFile_runs {b : Bool} : Runs ((l.look n f ff).setBusy b) (ilock ff.ip) fun _ l' =>
    ∃ x, l' = ((l.look n f ff).setBusy b).hold n x := by
  have uses : ((l.look n f ff).setBusy b).Uses (ff.ip, n) := Loc.uses_look (l := l) hi
  refine (ilock_runs (l := (l.look n f ff).setBusy b) h.mid uses).mono ?_
  rintro - _ ⟨-, x, -, rfl⟩
  exact ⟨x, rfl⟩

include h hi in
theorem iunlockFile_runs {b : Bool} : Runs (((l.look n f ff).setBusy b).hold n x) (iunlock ff.ip)
    fun _ l' => l' = (l.look n f ff).setBusy b := by
  refine (iunlock_runs (l := ((l.look n f ff).setBusy b).hold n x) h.mid (Loc.uses_look (l := l) hi)
    Loc.held_hold).mono ?_
  rintro - _ rfl
  exact Loc.release_hold (l := (l.look n f ff).setBusy b) (h.calm.unlocked n)

end File

theorem fileread_runs {k : Nat} {mapped : Bool} {io : Transfer} (h : l.Ready)
    (files : 0 < l.files f) :
    Runs l (fileread f k mapped io) fun _ => Loc.Idle := by
  have live := h.calm.live
  refine .op (.fileVia h.mid files h.calm.unlocked) ?_
  rintro (ff : File) _ ⟨n, rfl⟩
  split
  · exact .ret h.idle.look
  split
  · exact (pipeTransfer_runs (l := l.look n f ff) live (if_pos ‹_›)).mono fun _ _ hl =>
      hl ▸ h.idle.look
  split
  · have hi : ff.type = .inode ∨ ff.type = .device := .inl ‹_›
    have uses (x) : ((l.look n f ff).hold n x).Uses (ff.ip, n) := Loc.uses_look (l := l) hi
    have unlock {x : Node} {r : Int} : Runs ((l.look n f ff).hold n x) (do
        iunlock ff.ip
        return r) fun _ => Loc.Idle := by
      refine .bind (iunlockFile_runs (b := l.busy) h hi) ?_
      rintro - _ rfl
      exact .ret h.idle.look
    refine .bind (ilockFile_runs (b := l.busy) h hi) ?_
    rintro - _ ⟨x, rfl⟩
    refine .op (.file live files) ?_
    rintro y _ ⟨rfl, -⟩
    refine .op (.readi live (uses x) Loc.held_hold) ?_
    rintro (bs : List UInt8) _ ⟨rfl, -⟩
    refine .ite (fun _ => ?_) fun _ => unlock
    refine .op (.setOff live files) ?_
    rintro - _ rfl
    exact unlock
  split
  · exact .panic (l := l.look n f ff) live (by decide)
  · exact .ret h.idle.look

theorem filewriteFrom_runs {ff : File} {k fuel pos : Nat}
    {src : Nat → Nat → List UInt8} (h : l.Ready)
    (files : 0 < l.files f) (hi : ff.type = .inode ∨ ff.type = .device) :
    Runs (l.look n f ff) (filewriteFrom f ff.ip k src fuel pos) fun _ => Loc.Idle := by
  have live := h.calm.live
  induction fuel generalizing pos with
  | zero => exact .ret h.idle.look
  | succ fuel ih =>
    have uses (x) : (((l.look n f ff).setBusy true).hold n x).Uses (ff.ip, n) :=
      Loc.uses_look (l := l) hi
    rw [filewriteFrom]
    split
    · refine .op (.beginOp (l := l.look n f ff) h.idle.busy h.calm.unlocked h.mid) ?_
      rintro - _ rfl
      refine .bind (ilockFile_runs h hi) ?_
      rintro - _ ⟨x, rfl⟩
      refine .op (.file live files) ?_
      rintro y _ ⟨rfl, -⟩
      refine .op (.write h.mid (uses x) Loc.held_hold) ?_
      rintro (r : Int) _ ⟨addrs, data, rfl⟩
      rw [Loc.hold_hold]
      have unlock : Runs (((l.look n f ff).setBusy true).hold n { x with addrs, data }) (do
          iunlock ff.ip
          endOp
          if r ≠ (min (k - pos) ((MAXOPBLOCKS - 1 - 1 - 2) / 2 * BSIZE) : Nat) then
            return (-1 : Int)
          else
            filewriteFrom f ff.ip k src fuel
              (pos + min (k - pos) ((MAXOPBLOCKS - 1 - 1 - 2) / 2 * BSIZE)))
          fun _ => Loc.Idle := by
        refine .bind (iunlockFile_runs h hi) ?_
        rintro - _ rfl
        refine .bind (endOp_runs (l := (l.look n f ff).setBusy true) live) ?_
        rintro - _ rfl
        rw [Loc.setBusy_setBusy, Loc.setBusy_eq (l := l.look n f ff) h.idle.busy]
        exact .ite (fun _ => .ret h.idle.look) fun _ => ih
      refine .ite (fun _ => ?_) fun _ => unlock
      refine .op (.setOff live files) ?_
      rintro - _ rfl
      exact unlock
    · exact .ret h.idle.look

theorem filewrite_runs {k : Nat} {src : Nat → Nat → List UInt8} {io : Transfer} (h : l.Ready)
    (files : 0 < l.files f) : Runs l (filewrite f k src io) fun _ => Loc.Idle := by
  have live := h.calm.live
  refine .op (.fileVia h.mid files h.calm.unlocked) ?_
  rintro (ff : File) _ ⟨n, rfl⟩
  split
  · exact .ret h.idle.look
  split
  · exact (pipeTransfer_runs (l := l.look n f ff) live (if_pos ‹_›)).mono fun _ _ hl =>
      hl ▸ h.idle.look
  split
  · exact filewriteFrom_runs h files (.inl ‹_›)
  split
  · exact .panic (l := l.look n f ff) live (by decide)
  · exact .ret h.idle.look

theorem filestat_runs {mapped : Bool} (h : l.Ready) (files : 0 < l.files f) :
    Runs l (filestat f mapped) fun _ => Loc.Idle := by
  refine .op (.fileVia h.mid files h.calm.unlocked) ?_
  rintro (ff : File) _ ⟨n, rfl⟩
  split
  · have hi := ‹ff.type = .inode ∨ ff.type = .device›
    refine .bind (ilockFile_runs (b := l.busy) h hi) ?_
    rintro - _ ⟨x, rfl⟩
    have uses : ((l.look n f ff).hold n x).Uses (ff.ip, n) := Loc.uses_look (l := l) hi
    apply Runs.inode uses Loc.held_hold h.calm.live
    refine .bind (iunlockFile_runs (b := l.busy) h hi) ?_
    rintro - _ rfl
    exact .ret h.idle.look
  · exact .ret h.idle.look

theorem withFile_runs {fd : Fd} {k : FId → Code Int} (h : l.Ready)
    (hk : ∀ f, 0 < l.files f → Runs l (k f) fun _ => Loc.Idle) :
    Runs l (withFile fd k) fun _ => Loc.Idle := by
  refine .op (.fd h.calm.live) ?_
  rintro (_ | f) _ ⟨hf, rfl⟩
  · exact .ret h.idle
  · exact hk f (h.idle.files_pos hf)

theorem call_runs (h : l.Ready) (c : Call) :
    Runs l (c.code sb) fun _ => Loc.Idle := by
  cases c with
  | link old new => exact (sysLink_runs h.calm h.idle.busy).mono fun _ _ => h.rest
  | unlink path => exact (sysUnlink_runs h.calm h.idle.busy).mono fun _ _ => h.rest
  | openAt path omode => exact sysOpen_runs h
  | mkdir path => exact sysMake_runs nofun h
  | mknod path major minor => exact sysMake_runs nofun h
  | chdir path => exact sysChdir_runs h
  | close fd => exact sysClose_runs h
  | dup fd => exact sysDup_runs h
  | pipe mapped => exact sysPipe_runs h
  | fork copied => exact fork_runs h
  | exit => exact exit_runs h
  | exec path reads => exact execFile_runs h
  | read fd n mapped io => exact withFile_runs h fun f hf => fileread_runs h hf
  | write fd n src io => exact withFile_runs h fun f hf => filewrite_runs h hf
  | fstat fd mapped => exact withFile_runs h fun f hf => filestat_runs h hf

end Xv6.Dir
