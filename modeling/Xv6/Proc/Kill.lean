import Xv6.Proc.Code

/-!
# Who is killed

`p->killed` is set by `kill`, which looks for a pid in all entries of the table, and by a fault, and
cleared by `freeproc` only. A free entry has pid 0, so `kill(0)` marks one as killed, and the next
process that gets the entry starts out killed.
-/

namespace Xv6.Procs

open Lib List

/-- `e` is the allocation of process `i`. -/
def Event.allocates (i : Nat) : Event → Bool
  | .fork _ child _ => child == i
  | _ => false

/-- What happened after process `i` was allocated. -/
def since (i : Nat) (hist : List Event) : List Event := hist.takeWhile fun e => !e.allocates i

/-- Since the allocation of process `i`, which has this `pid`, somebody killed it or it faulted. -/
def Doomed (i : Nat) (pid : BitVec 32) (hist : List Event) : Prop :=
  .kill pid ∈ since i hist ∨ .fault i ∈ since i hist

instance (i : Nat) (pid : BitVec 32) (hist : List Event) : Decidable (Doomed i pid hist) :=
  inferInstanceAs (Decidable (_ ∨ _))

/-- `kill` finds no free entry. -/
def Targeted (_ : Slot) : Op → St → Prop
  | .kill q pid, s => (s.proc q).pid = pid → (s.proc q).state ≠ .unused
  | _, _ => True

instance (p : Slot) : (o : Op) → (s : St) → Decidable (Targeted p o s)
  | .kill q pid, s =>
    inferInstanceAs (Decidable ((s.proc q).pid = pid → (s.proc q).state ≠ .unused))
  | .acquire, _ | .release, _ | .alloc .., _ | .parent _, _ | .setParent .., _ | .setRunnable _, _
  | .wakeup .., _ | .zombie _, _ | .reap .., _ | .killed, _ | .waitFailed _, _ | .sleepWait, _
  | .sleep _, _ | .awake, _ | .fault, _ | .panicInit, _ | .stop, _ => .isTrue trivial

variable {i : Nat} {e : Event} {hist : List Event}

theorem since_cons (h : e.allocates i = false) :
    since i (e :: hist) = e :: since i hist := by
  simp [since, h]

theorem Doomed.cons {pid : BitVec 32}
    (hd : Doomed i pid hist) (h : e.allocates i = false) : Doomed i pid (e :: hist) := by
  unfold Doomed
  rw [since_cons h]
  exact hd.imp (.tail _) (.tail _)

structure KillLaw (s : St) : Prop where
  id_lt : ∀ q, s.id q < s.nextId
  unused : ∀ q, (s.proc q).state = .unused → (s.proc q).killed = false
  doomed : ∀ q, (s.proc q).killed = true → Doomed (s.id q) (s.proc q).pid s.hist

namespace KillLaw

variable {s : St} {q : Slot} {x : Proc Chan}

theorem setProc (h : KillLaw s) (unused : x.state = .unused → x.killed = false)
    (doomed : x.killed = true → Doomed (s.id q) x.pid s.hist) : KillLaw (s.setProc q x) where
  id_lt := h.id_lt
  unused := St.forall_setProc (P := fun _ x => x.state = .unused → x.killed = false) unused
    fun r _ => h.unused r
  doomed :=
    St.forall_setProc (P := fun r x => x.killed = true → Doomed (s.id r) x.pid s.hist) doomed
    fun r _ => h.doomed r

/-- A change of one entry that does not kill and does not free. -/
theorem keep (h : KillLaw s) (pid : x.pid = (s.proc q).pid) (killed : x.killed = (s.proc q).killed)
    (unused : x.state = .unused → (s.proc q).state = .unused) : KillLaw (s.setProc q x) := by
  refine h.setProc (fun hx => ?_) fun hk => ?_
  · rw [killed]
    exact h.unused q (unused hx)
  · rw [pid]
    exact h.doomed q (killed ▸ hk)

theorem free (h : KillLaw s) (q : Slot) : KillLaw (s.setProc q .zero) :=
  h.setProc (fun _ => rfl) nofun

theorem record (h : KillLaw s) {e : Event} (he : ∀ i, e.allocates i = false) :
    KillLaw (s.record e) :=
  ⟨h.id_lt, h.unused, fun q hk => (h.doomed q hk).cons (he _)⟩

theorem relock (h : KillLaw s) (lock : Option Slot) : KillLaw { s with waitLock := lock } :=
  ⟨h.id_lt, h.unused, h.doomed⟩

/-- The process in a free entry is new, and not killed. -/
theorem alloc (h : KillLaw s) (p : Slot) (hq : (s.proc q).state = .unused) :
    KillLaw (s.allocate p q) := by
  have hk := h.unused q hq
  refine ⟨fun r => ?_, fun r => ?_, fun r => ?_⟩
  all_goals
    unfold St.allocate
    rcases eq_or_ne r q with rfl | hr
  · simp
  · simpa [hr] using Nat.lt_succ_of_lt (h.id_lt r)
  · simp
  · simpa [hr] using h.unused r
  · simp [hk]
  · simp only [Function.update_of_ne hr]
    refine fun hk => (h.doomed r hk).cons ?_
    have := h.id_lt r
    simp only [Event.allocates, beq_eq_false_iff_ne]
    omega

theorem step {p : Slot} {o : Op} {r : iface.Res o} {s' : St} (h : KillLaw s) (hg : Targeted p o s)
    (he : exec p o s = .ok (r, s')) : KillLaw s' := by
  unfold exec at he
  split at he
  swap
  · cases he
  rename_i hrun
  cases o with
  | acquire =>
    simp only [Procs.step] at he
    split at he
    · cases he; exact h.relock _
    · split at he <;> cases he
  | release =>
    simp only [Procs.step] at he
    split at he <;> cases he
    exact h.relock _
  | alloc q memory =>
    simp only [Procs.step] at he
    split at he
    · split at he
      · cases he; exact h.alloc p ‹_›
      · cases he; exact ⟨(h.free q).id_lt, (h.free q).unused, (h.free q).doomed⟩
    · cases he; exact h
  | parent | killed => cases he; exact h
  | setParent q r => cases he; exact h.keep rfl rfl id
  | setRunnable q => cases he; exact h.keep rfl rfl (by simp)
  | wakeup q chan =>
    cases he
    show KillLaw (if q = p then s else _)
    split
    · exact h
    · refine h.keep ?_ ?_ ?_ <;> unfold Proc.wakeup <;> split <;> first | rfl | exact id | simp
  | zombie status =>
    simp only [Procs.step] at he
    split at he <;> cases he
    have hz : KillLaw (s.setProc p { s.proc p with xstate := status, state := .zombie }) :=
      h.keep rfl rfl (by simp)
    exact (hz.record (e := .exit (s.id p) (s.proc p).pid status) fun _ => rfl).relock none
  | reap q addr =>
    simp only [Procs.step] at he
    split at he
    · split at he
      · cases he; exact h
      · cases he
        have hr := (h.free q).record
          (e := .reap (s.id p) (s.id q) (s.proc q).pid (s.proc q).xstate) fun _ => rfl
        exact ⟨hr.id_lt, hr.unused, hr.doomed⟩
    · cases he; exact h
  | waitFailed addr =>
    simp only [Procs.step] at he
    split at he <;> cases he
    exact (h.record (e := .waitFailed _ addr _ _) fun _ => rfl).relock none
  | sleepWait =>
    simp only [Procs.step] at he
    split at he <;> cases he
    have hs : KillLaw (s.setProc p ((s.proc p).sleep (.proc p))) :=
      h.keep rfl rfl (by simp [Proc.sleep])
    exact hs.relock none
  | sleep n => cases he; exact h.keep rfl rfl (by simp [Proc.sleep])
  | awake => cases he; exact h.keep rfl rfl id
  | kill q pid =>
    simp only [Procs.step] at he
    split at he
    · rename_i hpid
      cases he
      refine (h.record (e := .kill pid) fun _ => rfl).setProc (q := q) (fun hx => ?_) fun _ => ?_
      · have hq := hg hpid
        simp only [Proc.kill] at hx
        split at hx
        · cases hx
        · exact absurd hx hq
      · refine .inl ?_
        show Event.kill (s.proc q).pid ∈ since _ (.kill pid :: s.hist)
        rw [since_cons rfl, hpid]
        exact mem_cons_self
    · cases he; exact h
  | fault =>
    cases he
    refine (h.record (e := .fault (s.id p)) fun _ => rfl).setProc (q := p)
      (fun hx => ?_) fun _ => ?_
    · exact absurd (hx.symm.trans hrun) (by simp)
    · refine .inr ?_
      show Event.fault (s.id p) ∈ since _ (.fault (s.id p) :: s.hist)
      rw [since_cons rfl]
      exact mem_cons_self
  | panicInit | stop => cases he

theorem boot : KillLaw boot.st := by
  refine ⟨fun _ => Nat.one_pos, fun q => ?_, fun q => ?_⟩
  all_goals
    unfold Procs.boot
    rcases eq_or_ne q initproc with rfl | hq
    · simp [Proc.zero]
    · simp [hq, Proc.zero]

end KillLaw

/-- In every run whose kills find no free entry, a free entry is not marked as killed, so that every
process starts out not killed, and a process is marked only if it was killed by its pid or faulted
since it was allocated. -/
theorem only_target_killed {c : Config iface St Slot} (hr : (system Targeted).Reaches boot c)
    (q : Slot) :
    ((c.st.proc q).state = .unused → (c.st.proc q).killed = false) ∧
    ((c.st.proc q).killed = true → Doomed (c.st.id q) (c.st.proc q).pid c.st.hist) := by
  have h : KillLaw c.st := by
    induction hr with
    | refl => exact .boot
    | tail _ hs ih =>
      cases hs with
      | op _ allowed he => exact ih.step allowed he
      | start => exact ih
      | env he =>
        obtain ⟨q, x, hx, rfl⟩ := he
        refine ih.keep ?_ ?_ ?_ <;> cases hx <;> first | rfl | nofun
  exact ⟨h.unused q, h.doomed q⟩

/-- Init forks a child and kills it. -/
def killChild : List (Move iface St Slot) :=
  [run initproc, .start initproc do let _ ← fork initproc true] ++ replicate 6 (.op initproc) ++
  [.start initproc do let _ ← kill 2] ++ replicate 2 (.op initproc)

/-- Init calls `kill(0)` and forks. -/
def killFree : List (Move iface St Slot) :=
  [run initproc, .start initproc do let _ ← kill 0] ++ replicate 2 (.op initproc) ++
  [.start initproc do let _ ← fork initproc true] ++ replicate 6 (.op initproc)

variable {guard : Slot → Op → St → Prop}

theorem legal_killChild :
    ∀ m ∈ killChild, m.Legal (system guard) := by
  intro m hm
  simp only [killChild, mem_append, mem_cons, not_mem_nil, or_false,
    mem_replicate] at hm
  rcases hm with (((rfl | rfl) | ⟨-, rfl⟩) | rfl) | ⟨-, rfl⟩
  · exact legal_run _
  · exact fun _ => .fork true
  · trivial
  · exact fun _ => .kill 2
  · trivial

theorem legal_killFree :
    ∀ m ∈ killFree, m.Legal (system guard) := by
  intro m hm
  simp only [killFree, mem_append, mem_cons, not_mem_nil, or_false,
    mem_replicate] at hm
  rcases hm with (((rfl | rfl) | ⟨-, rfl⟩) | rfl) | ⟨-, rfl⟩
  · exact legal_run _
  · exact fun _ => .kill 0
  · trivial
  · exact fun _ => .fork true
  · trivial

theorem only_target_killed_child :
    ∃ c, (system Targeted).Reaches boot c ∧ (c.st.proc slot1).killed = true ∧
      Doomed (c.st.id slot1) (c.st.proc slot1).pid c.st.hist := by
  have hallow : ∀ p o s, decide (Targeted p o s) = true → Targeted p o s :=
    fun _ _ _ => of_decide_eq_true
  obtain ⟨c, hr, hk⟩ := reaches_of_play (P := fun c => (c.st.proc slot1).killed = true) killChild _
    legal_killChild hallow (by decide)
  exact ⟨c, hr, hk, (only_target_killed hr slot1).2 hk⟩

/-- After `kill(0)` the next process starts out killed. -/
theorem kill_zero_kills_next_process :
    ∃ c, (system fun _ _ _ => True).Reaches boot c ∧ (c.st.proc slot1).state = .runnable ∧
      (c.st.proc slot1).killed = true ∧ c.st.hist = [.fork 0 1 2, .kill 0] ∧
      ¬Doomed (c.st.id slot1) (c.st.proc slot1).pid c.st.hist := by
  obtain ⟨c, hr, hc⟩ := reaches_of_play (P := fun c => (c.st.proc slot1).state = .runnable ∧
    (c.st.proc slot1).killed = true ∧ c.st.hist = [.fork 0 1 2, .kill 0] ∧
    ¬Doomed (c.st.id slot1) (c.st.proc slot1).pid c.st.hist) killFree (fun _ _ _ => true)
      legal_killFree (fun _ _ _ _ => trivial)
    (by decide)
  exact ⟨c, hr, hc⟩

end Xv6.Procs
