import Xv6.Pipe.Code

/-!
# The proof outline of the pipe code

Whoever holds `pi->lock` may break the laws of the pipe and restores them before it lets go of the
lock: the byte ledger (`Ledger`) and, in runs in which `pipewrite` keeps its wakeups (`Alert`), the
laws of the processes that sleep on the pipe (`Readers`, `Writers`). While a process holds the lock
the others leave the pipe alone and can only wake up sleepers (`Kept`).
-/

namespace Xv6.Pipe

open Lib Function

/-- Every byte accepted was stored, lost in a failed copy, is on its `way` out, or is in the pipe.
-/
structure Ledger (way : List UInt8) (s : St) : Prop where
  count : s.stored.length + s.failed + way.length + s.pipe.length = s.accepted.length
  exact : s.failed = 0 → s.stored ++ way ++ s.pipe.contents = s.accepted

/-- Readers sleep only on an empty pipe whose write end is open. -/
def Readers (s : St) : Prop :=
  ∀ q, (s.proc q).Sleeps .nread → s.pipe.Empty ∧ s.pipe.writeopen = true

/-- Writers sleep only on a full pipe whose read end is open. -/
def Writers (s : St) : Prop :=
  ∀ q, (s.proc q).Sleeps .nwrite → s.pipe.Full ∧ s.pipe.readopen = true

/-- When `pipewrite` finds itself killed after it has stored bytes, no reader sleeps. -/
def Alert (p : Slot) : Op → St → Prop
  | .killed, s => s.fresh = true → (s.proc p).killed = true → ∀ q, ¬(s.proc q).Sleeps .nread
  | _, _ => True

/-- What holds whenever nobody holds the lock; the laws of sleepers if `W`. -/
structure Quiet (W : Prop) (s : St) : Prop where
  ledger : Ledger [] s
  readers : W → Readers s
  writers : W → Writers s

/-- What the holder of the lock can rely on. -/
structure Kept (s s' : St) : Prop where
  lock : s'.lock = s.lock
  pipe : s'.pipe = s.pipe
  accepted : s'.accepted = s.accepted
  stored : s'.stored = s.stored
  failed : s'.failed = s.failed
  fresh : s'.fresh = s.fresh
  sleeps : ∀ q chan, (s'.proc q).Sleeps chan → (s.proc q).Sleeps chan

namespace Kept

variable {s s' s'' : St} {way : List UInt8} {W : Prop}

theorem refl (s : St) : Kept s s := ⟨rfl, rfl, rfl, rfl, rfl, rfl, fun _ _ => id⟩

theorem trans (h : Kept s s') (h' : Kept s' s'') : Kept s s'' :=
  ⟨h'.lock.trans h.lock, h'.pipe.trans h.pipe, h'.accepted.trans h.accepted,
    h'.stored.trans h.stored, h'.failed.trans h.failed, h'.fresh.trans h.fresh,
    fun q chan => h.sleeps q chan ∘ h'.sleeps q chan⟩

theorem ledger (h : Kept s s') (hs : Ledger way s) : Ledger way s' := by
  constructor
  · rw [h.stored, h.failed, h.pipe, h.accepted]; exact hs.count
  · rw [h.stored, h.failed, h.pipe, h.accepted]; exact hs.exact

theorem readers (h : Kept s s') (hs : Readers s) : Readers s' := by
  intro q hq
  rw [h.pipe]
  exact hs q (h.sleeps q _ hq)

theorem writers (h : Kept s s') (hs : Writers s) : Writers s' := by
  intro q hq
  rw [h.pipe]
  exact hs q (h.sleeps q _ hq)

theorem quiet (h : Kept s s') (hs : Quiet W s) : Quiet W s' :=
  ⟨h.ledger hs.ledger, fun w => h.readers (hs.readers w), fun w => h.writers (hs.writers w)⟩

/-- Changing one entry of the process table, if it does not go to sleep. -/
theorem proc {q : Slot} {x : Proc Chan} (hx : ∀ chan, x.Sleeps chan → (s.proc q).Sleeps chan) :
    Kept s { s with proc := update s.proc q x } := by
  refine ⟨rfl, rfl, rfl, rfl, rfl, rfl, fun q' chan h => ?_⟩
  change (update s.proc q x q').Sleeps chan at h
  rcases eq_or_ne q' q with rfl | hq
  · rw [update_self] at h
    exact hx chan h
  · rwa [update_of_ne hq] at h

theorem wakeup (s : St) (q : Slot) (chan : Chan) :
    Kept s { s with proc := update s.proc q ((s.proc q).wakeup chan) } :=
  proc fun _ => .of_wakeup

theorem env (h : Env s s') : Kept s s' := by
  cases h with
  | sched h => exact proc fun chan hs => absurd hs (h.not_sleeps chan)
  | kill q => exact proc fun chan hs => absurd hs ((s.proc q).not_sleeps_kill chan)
  | mem q m => exact ⟨rfl, rfl, rfl, rfl, rfl, rfl, fun _ _ => id⟩

end Kept

/-! ## Ring lemmas -/

variable {pi : Pipe}

theorem length_put (h : pi.length < PIPESIZE) (ch : UInt8) :
    (pi.put ch).length = pi.length + 1 :=
  Ring.length_push h (by decide)

theorem contents_put (h : pi.length < PIPESIZE) (ch : UInt8) :
    (pi.put ch).contents = pi.contents ++ [ch] :=
  Ring.contents_push (by decide) (by decide) h ch

theorem length_take (h : ¬pi.Empty) :
    pi.length = pi.advance.length + 1 :=
  Ring.length_pop h

theorem contents_take (h : ¬pi.Empty) :
    pi.contents = pi.next :: pi.advance.contents :=
  Ring.contents_pop h

theorem full_iff : pi.Full ↔ pi.length = PIPESIZE :=
  (Ring.length_eq_iff (by decide)).symm

/-! ## The outline -/

section Outline

variable {W : Prop} {p q : Slot} {o : Op} {s s' : St} {r : iface.Res o}

structure Inv (W : Prop) (s : St) : Prop where
  length_le : s.pipe.length ≤ PIPESIZE
  quiet : s.lock = none → Quiet W s

structure Rely (p : Slot) (s s' : St) : Prop where
  held : s.lock = some p → Kept s s'
  free : s.lock ≠ some p → s'.lock ≠ some p

/-- The precondition of each operation. -/
def Pre (W : Prop) (p : Slot) : Op → St → Prop
  | .acquire, s => s.lock ≠ some p
  | .release, s => s.lock = some p ∧ Quiet W s
  | .sleep .nread, s => s.lock = some p ∧ Quiet W s ∧ s.pipe.Empty ∧ s.pipe.writeopen = true
  | .sleep .nwrite, s => s.lock = some p ∧ Quiet W s ∧ s.pipe.Full ∧ s.pipe.readopen = true
  | .put _, s => s.lock = some p ∧ ¬s.pipe.Full
  | .take, s => s.lock = some p ∧ ¬s.pipe.Empty
  | .close _, s | .copyout .., s => s.lock = some p
  | _, _ => True

theorem exec_ok (h : exec p o s = .ok (r, s')) :
    (s.proc p).state = .running ∧ step p o s = .ok (r, s') := by
  unfold exec at h
  split at h
  · exact ⟨‹_›, h⟩
  · cases h

variable {e : LockPanic}

theorem exec_panic (h : exec p o s = .panic e) : step p o s = .panic e := by
  unfold exec at h
  split at h
  · exact h
  · cases h

/-- Going to sleep keeps the laws if the new sleeper meets them. -/
theorem Quiet.sleep {chan : Chan} (h : Quiet W s)
    (read : chan = .nread → s.pipe.Empty ∧ s.pipe.writeopen = true)
    (write : chan = .nwrite → s.pipe.Full ∧ s.pipe.readopen = true) :
    Quiet W { s with lock := none, proc := update s.proc p ((s.proc p).sleep chan) } := by
  have old : ∀ q chan', ((update s.proc p ((s.proc p).sleep chan)) q).Sleeps chan' →
      chan = chan' ∨ (s.proc q).Sleeps chan' := by
    intro q chan' hq
    rcases eq_or_ne q p with rfl | hne
    · rw [update_self] at hq
      exact .inl (Option.some.inj hq.2)
    · rw [update_of_ne hne] at hq
      exact .inr hq
  refine ⟨⟨h.ledger.count, h.ledger.exact⟩, fun w q hq => ?_, fun w q hq => ?_⟩
  · exact (old q _ hq).elim read (h.readers w q)
  · exact (old q _ hq).elim write (h.writers w q)

/-- What one operation of `p` can do to the pipe. -/
inductive Effect (W : Prop) (p : Slot) (s s' : St) : Prop
  | kept (h : Kept s s')
  | acquire (lock : s.lock = none) (lock' : s'.lock = some p) (pipe : s'.pipe = s.pipe)
  | inside (lock : s.lock = some p) (lock' : s'.lock = some p) (length : s'.pipe.length ≤ PIPESIZE)
  | leave (lock : s.lock = some p) (lock' : s'.lock = none) (pipe : s'.pipe = s.pipe)
      (quiet : Quiet W s')

theorem Effect.of_step (hI : Inv W s) (hpre : Pre W p o s) (h : step p o s = .ok (r, s')) :
    Effect W p s s' := by
  have hlen := hI.length_le
  cases o with
  | acquire =>
    simp only [step] at h
    split at h
    · cases h
      exact .acquire ‹_› rfl rfl
    · split at h <;> cases h
  | release =>
    simp only [step, if_pos hpre.1] at h
    cases h
    exact .leave hpre.1 rfl rfl ⟨⟨hpre.2.ledger.count, hpre.2.ledger.exact⟩, hpre.2.readers,
      hpre.2.writers⟩
  | pipe | killed => cases h; exact .kept (.refl s)
  | copyin va =>
    simp only [step] at h
    split at h <;> (cases h; exact .kept (.refl s))
  | copyout va ch =>
    simp only [step] at h
    split at h <;> (cases h; exact .inside hpre hpre hlen)
  | put ch =>
    cases h
    have : s.pipe.length < PIPESIZE := lt_of_le_of_ne hlen fun e => hpre.2 (full_iff.2 e)
    refine .inside hpre.1 hpre.1 ?_
    rw [length_put this]
    exact this
  | take =>
    cases h
    have hlen' : s.pipe.advance.length ≤ PIPESIZE := by
      have := length_take hpre.2
      omega
    exact .inside hpre.1 hpre.1 hlen'
  | close writable => cases writable <;> (cases h; exact .inside hpre hpre hlen)
  | sleep chan =>
    cases chan with
    | nread =>
      simp only [step, if_pos hpre.1] at h
      cases h
      exact .leave hpre.1 rfl rfl (hpre.2.1.sleep (fun _ => hpre.2.2) nofun)
    | nwrite =>
      simp only [step, if_pos hpre.1] at h
      cases h
      exact .leave hpre.1 rfl rfl (hpre.2.1.sleep nofun fun _ => hpre.2.2)
  | awake =>
    cases h
    exact .kept (.proc fun chan hs => by cases hs.2)
  | wakeup q chan =>
    simp only [step] at h
    split at h
    · cases h; exact .kept (.refl s)
    · cases h; exact .kept (.wakeup s q chan)
  | stop => cases h

theorem Kept.inv (h : Kept s s') (hI : Inv W s) : Inv W s' :=
  ⟨h.pipe ▸ hI.length_le, fun e => h.quiet (hI.quiet (h.lock ▸ e))⟩

theorem Effect.inv (h : Effect W p s s') (hI : Inv W s) : Inv W s' := by
  cases h with
  | kept h => exact h.inv hI
  | acquire _ lock' pipe => exact ⟨pipe ▸ hI.length_le, fun e => by rw [lock'] at e; cases e⟩
  | inside _ lock' length => exact ⟨length, fun e => by rw [lock'] at e; cases e⟩
  | leave _ _ pipe quiet => exact ⟨pipe ▸ hI.length_le, fun _ => quiet⟩

theorem Effect.rely (h : Effect W p s s') (hq : q ≠ p) : Rely q s s' := by
  cases h with
  | kept h => exact ⟨fun _ => h, fun e => by rwa [h.lock]⟩
  | acquire lock lock' pipe =>
    refine ⟨fun e => ?_, fun _ e => ?_⟩
    · rw [lock] at e; cases e
    · rw [lock'] at e; exact hq (Option.some.inj e).symm
  | inside lock lock' =>
    refine ⟨fun e => ?_, fun _ e => ?_⟩
    · rw [lock] at e; exact absurd (Option.some.inj e).symm hq
    · rw [lock'] at e; exact hq (Option.some.inj e).symm
  | leave lock lock' =>
    refine ⟨fun e => ?_, fun _ e => ?_⟩
    · rw [lock] at e; exact absurd (Option.some.inj e).symm hq
    · rw [lock'] at e; cases e

theorem no_panic (hpre : Pre W p o s) (h : step p o s = .panic e) : False := by
  cases o with
  | acquire =>
    simp only [step] at h
    split at h
    · cases h
    · rename_i q hl
      split at h
      · rename_i e; subst e; exact hpre hl
      · cases h
  | release => simp only [step, if_pos hpre.1] at h; cases h
  | copyin | copyout => simp only [step] at h; split at h <;> cases h
  | close writable => cases writable <;> cases h
  | sleep chan => cases chan <;> (simp only [step, if_pos hpre.1] at h; cases h)
  | wakeup => simp only [step] at h; split at h <;> cases h
  | pipe | killed | put | take | awake | stop => cases h

variable (guard : Slot → Op → St → Prop)

/-- The outline; the lock is never acquired twice or released by another. -/
def outline (W : Prop) : RelyGuarantee (system guard) where
  Inv := Inv W
  Rely := Rely
  Idle p s := s.lock ≠ some p
  Pre := Pre W
  Tol _ := False
  rely_refl _ s := ⟨fun _ => .refl s, id⟩
  rely_trans h h' :=
    ⟨fun e => (h.held e).trans (h'.held ((h.held e).lock.trans e)), fun e => h'.free (h.free e)⟩
  idle_stable h e := h.free e
  op_ok hI _ hp he :=
    have effect := Effect.of_step hI hp (exec_ok he).2
    ⟨effect.inv hI, fun _ hq => effect.rely hq⟩
  op_panic _ _ hp he := no_panic hp (exec_panic he)
  env_ok h hI :=
    have hk := Kept.env h
    ⟨hk.inv hI, fun _ => ⟨fun _ => hk, fun e => hk.lock ▸ e⟩⟩

end Outline

end Xv6.Pipe
