import Xv6.Log.Protocol
import Mathlib.Tactic.Common

/-!
# Group commit

The invariant of the log protocol: `log.outstanding` counts the processes between `begin_op` and
`end_op`, `log.committing` is set exactly while one process is in `commit`, the two exclude each
other, a log that nobody uses is empty, and whoever sleeps on `&log` has a waker.
-/

namespace Xv6.Protocol
open St Function Finset

/-- Between `begin_op` and `end_op`, as `log.outstanding` counts it. -/
def Pc.inOp : Pc → Bool
  | .op | .writeAcquire _ | .writeBody _ | .endAcquire | .endBody => true
  | _ => false

def Pc.holdsLock : Pc → Bool
  | .beginTest | .sleepRelease | .writeBody _ | .endBody | .endWakeup _ | .doneBody
  | .doneWakeup _ => true
  | _ => false

/-- From the decision to commit to `log.committing = 0`. -/
def Pc.inCommit : Pc → Bool
  | .commit | .writeLog _ | .writeHead | .installTrans _ | .clearHead | .eraseHead | .doneAcquire
  | .doneBody => true
  | _ => false

/-- In `commit` or after it, with `log.lh.n = 0`. -/
def Pc.emptied : Pc → Bool
  | .eraseHead | .doneAcquire | .doneBody => true
  | _ => false

/-- In `sleep`, with `p->lock` held. -/
def Pc.fallingAsleep : Pc → Bool
  | .sleepRelease | .sleepSwitch => true
  | _ => false

/-- The number of processes between `begin_op` and `end_op`. -/
def ops (N : Nat) (proc : Nat → Proc) : Nat :=
  ((range N).filter fun p => (proc p).pc.inOp).card

theorem ops_update {N p : Nat} (hp : p < N) (proc : Nat → Proc) (x : Proc) :
    ops N (update proc p x) + (proc p).pc.inOp.toNat = ops N proc + x.pc.inOp.toNat := by
  have hmem : p ∈ range N := mem_range.2 hp
  have key : ∀ f : Nat → Proc, ops N f =
      (((range N).erase p).filter fun q => (f q).pc.inOp).card + (f p).pc.inOp.toNat := by
    intro f
    unfold ops
    conv_lhs => rw [← insert_erase hmem]
    rw [filter_insert]
    split <;> simp_all
  have same : (((range N).erase p).filter fun q => (update proc p x q).pc.inOp) =
      ((range N).erase p).filter fun q => (proc q).pc.inOp := by
    apply filter_congr
    intro q hq
    rw [update_of_ne (ne_of_mem_erase hq)]
  rw [key proc, key, same, update_self]
  omega

def Proc.waits (x : Proc) : Prop := x.pc.fallingAsleep ∨ x.sleeping

/-- Somebody is bound to wake process `q`: a commit or an operation in progress, or a process
that finished a commit and has not yet reached entry `q` in its `wakeup`. -/
def St.Due (s : St) (q : Nat) : Prop :=
  s.log.committing = true ∨ 1 ≤ s.log.outstanding ∨
    ∃ r i, (s.proc r).pc = .doneWakeup i ∧ i ≤ q

/-- A due process stays due while the log's counters stay and `p` is not about to wake it. -/
theorem St.Due.mono {s s' : St} {p q : Nat} {x : Proc} (hd : s.Due q)
    (hproc : s'.proc = update s.proc p x) (hc : s'.log.committing = s.log.committing)
    (ho : s.log.outstanding ≤ s'.log.outstanding)
    (hp : ∀ i, (s.proc p).pc = .doneWakeup i → i ≤ q → ∃ j, x.pc = .doneWakeup j ∧ j ≤ q) :
    s'.Due q := by
  rcases hd with hd | hd | ⟨r, i, hr, hi⟩
  · exact .inl (hc.trans hd)
  · exact .inr (.inl (hd.trans ho))
  · refine .inr (.inr ?_)
    by_cases hrp : r = p
    · subst hrp
      obtain ⟨j, hj, hjq⟩ := hp i hr hi
      exact ⟨r, j, by rw [hproc, update_self, hj], hjq⟩
    · exact ⟨r, i, by rw [hproc, update_of_ne hrp, hr], hi⟩

structure Inv (N : Nat) (s : St) : Prop where
  outside : ∀ p, N ≤ p → (s.proc p).pc = .user
  lock : ∀ p, s.lock = some p ↔ (s.proc p).pc.holdsLock
  locked : ∀ p, (s.proc p).locked = (s.proc p).pc.fallingAsleep
  asleep : ∀ p, (s.proc p).sleeping → (s.proc p).pc = .asleep
  outstanding : s.log.outstanding = ops N s.proc
  committing : ∀ p, (s.proc p).pc.inCommit → s.log.committing = true
  committer : s.log.committing = true → ∃ p, (s.proc p).pc.inCommit
  one : ∀ p q, (s.proc p).pc.inCommit → (s.proc q).pc.inCommit → p = q
  exclusive : s.log.committing = true → s.log.outstanding = 0
  clean : s.log.committing = false → s.log.outstanding = 0 → s.log.block = []
  emptied : ∀ p, (s.proc p).pc.emptied → s.log.block = []
  due : ∀ p, (s.proc p).waits → s.Due p
  panic : s.panic ≠ some .logCommitting

namespace Inv

variable {N p : Nat} {s s' : St}

theorem boot (N size : Nat) : Inv N (boot size) := by
  constructor <;> simp [Protocol.boot, Log.init, ops, Proc.waits, Pc.inOp, Pc.holdsLock,
    Pc.inCommit, Pc.emptied, Pc.fallingAsleep]

/-- The invariant after a step of `p`, from what the step does to `p` itself, to the lock and to
the log. -/
theorem move (h : Inv N s) (hp : p < N) {x : Proc} (hproc : s'.proc = update s.proc p x)
    (lock : s'.lock = if x.pc.holdsLock then some p else if (s.proc p).pc.holdsLock then
      none else s.lock)
    (free : x.pc.holdsLock → (s.proc p).pc.holdsLock ∨ s.lock = none)
    (locked : x.locked = x.pc.fallingAsleep) (asleep : x.sleeping → x.pc = .asleep)
    (outstanding : s'.log.outstanding + (s.proc p).pc.inOp.toNat =
      s.log.outstanding + x.pc.inOp.toNat)
    (committing : s'.log.committing =
      (x.pc.inCommit || (!(s.proc p).pc.inCommit && s.log.committing)))
    (enter : x.pc.inCommit → (s.proc p).pc.inCommit ∨ s.log.committing = false)
    (exclusive : x.pc.inCommit → s'.log.outstanding = 0)
    (admitted : s.log.outstanding < s'.log.outstanding → s.log.committing = false)
    (clean : s'.log.committing = false → s'.log.outstanding = 0 → s'.log.block = [])
    (block : s.log.block = [] → s.log.committing = true → s'.log.block = [])
    (emptied : x.pc.emptied → s'.log.block = [])
    (due : ∀ q, q ≠ p → (s.proc q).waits → s.Due q → s'.Due q) (dueSelf : x.waits → s'.Due p)
    (panic : s'.panic ≠ some .logCommitting) : Inv N s' := by
  have self : s'.proc p = x := by rw [hproc, update_self]
  have other : ∀ q, q ≠ p → s'.proc q = s.proc q := fun q hq => by
    rw [hproc, update_of_ne hq]
  have hlock : ∀ q, q ≠ p → (s'.lock = some q ↔ s.lock = some q) := by
    intro q hq
    have hne : p ≠ q := fun e => hq e.symm
    rw [lock]
    split
    · rename_i hx
      rcases free hx with hf | hf
      · simp [hne, (h.lock p).2 hf]
      · simp [hne, hf]
    · split
      · rename_i hf
        simp [hne, (h.lock p).2 hf]
      · rfl
  constructor
  · intro q hq
    rw [other q (by omega), h.outside q hq]
  · intro q
    by_cases hq : q = p
    · subst hq
      rw [self, lock]
      split
      · simp [*]
      · split
        · simp [*]
        · rename_i h₁ h₂
          simp [h₁, h.lock q, h₂]
    · rw [hlock q hq, other q hq, h.lock q]
  · intro q
    by_cases hq : q = p
    · subst hq; rw [self, locked]
    · rw [other q hq, h.locked q]
  · intro q
    by_cases hq : q = p
    · subst hq; rw [self]; exact asleep
    · rw [other q hq]; exact h.asleep q
  · have := ops_update hp s.proc x
    rw [hproc]
    have := h.outstanding
    omega
  · intro q hc
    by_cases hq : q = p
    · subst hq; rw [self] at hc; rw [committing, hc]; rfl
    · rw [other q hq] at hc
      rw [committing, h.committing q hc]
      cases hpc : (s.proc p).pc.inCommit
      · simp
      · exact absurd (h.one q p hc hpc) hq
  · intro hc
    rw [committing] at hc
    cases hx : x.pc.inCommit
    · simp only [hx, Bool.false_or, Bool.and_eq_true, Bool.not_eq_true'] at hc
      obtain ⟨q, hq⟩ := h.committer hc.2
      refine ⟨q, ?_⟩
      rw [other q (fun e => by subst e; simp [hq] at hc)]
      exact hq
    · exact ⟨p, by rw [self]; exact hx⟩
  · have key : ∀ q, q ≠ p → (s.proc q).pc.inCommit → x.pc.inCommit → False := by
      intro q hq hc hx
      rcases enter hx with h' | h'
      · exact hq (h.one q p hc h')
      · rw [h.committing q hc] at h'; cases h'
    intro q r hq hr
    by_cases hqp : q = p <;> by_cases hrp : r = p
    · rw [hqp, hrp]
    · subst hqp; rw [self] at hq; rw [other r hrp] at hr; exact (key r hrp hr hq).elim
    · subst hrp; rw [self] at hr; rw [other q hqp] at hq; exact (key q hqp hq hr).elim
    · rw [other q hqp] at hq; rw [other r hrp] at hr; exact h.one q r hq hr
  · intro hc
    cases hx : x.pc.inCommit
    · rw [committing, hx] at hc
      simp only [Bool.false_or, Bool.and_eq_true, Bool.not_eq_true'] at hc
      have h0 := h.exclusive hc.2
      by_contra hne
      have := admitted (by omega)
      rw [hc.2] at this; cases this
    · exact exclusive hx
  · exact clean
  · intro q he
    by_cases hq : q = p
    · subst hq; rw [self] at he; exact emptied he
    · rw [other q hq] at he
      have hc : (s.proc q).pc.inCommit := by
        revert he; cases (s.proc q).pc <;> simp [Pc.emptied, Pc.inCommit]
      exact block (h.emptied q he) (h.committing q hc)
  · intro q hw
    by_cases hq : q = p
    · subst hq; rw [self] at hw; exact dueSelf hw
    · rw [other q hq] at hw; exact due q hq hw (h.due q hw)
  · exact panic

theorem keep (h : Inv N s) (hp : p < N) {x : Proc} (hproc : s'.proc = update s.proc p x)
    (hlog : s'.log = s.log)
    (lock : s'.lock = if x.pc.holdsLock then some p else if (s.proc p).pc.holdsLock then
      none else s.lock)
    (free : x.pc.holdsLock → (s.proc p).pc.holdsLock ∨ s.lock = none)
    (locked : x.locked = x.pc.fallingAsleep) (asleep : x.sleeping → x.pc = .asleep)
    (op : x.pc.inOp = (s.proc p).pc.inOp) (commit : x.pc.inCommit = (s.proc p).pc.inCommit)
    (emptied : x.pc.emptied → s.log.block = [])
    (wakeup : ∀ q i, (s.proc q).waits → (s.proc p).pc = .doneWakeup i → i ≤ q →
      ∃ j, x.pc = .doneWakeup j ∧ j ≤ q)
    (dueSelf : x.waits → s'.Due p) (panic : s'.panic = none) : Inv N s' := by
  have hc : x.pc.inCommit → s.log.committing = true := fun hx => h.committing p (commit ▸ hx)
  refine h.move hp hproc lock free locked asleep (by rw [hlog, op]) ?_
    (fun hx => .inl (commit ▸ hx))
    (fun hx => hlog ▸ h.exclusive (hc hx)) (by simp [hlog]) (hlog ▸ h.clean) (fun hb _ => hlog ▸ hb)
      (hlog ▸ emptied)
    (fun q _ hw hd => hd.mono hproc (by rw [hlog]) (by rw [hlog]) fun i hi => wakeup q i hw hi)
      dueSelf (by simp [panic])
  rw [hlog, ← commit]
  cases hx : x.pc.inCommit
  · rfl
  · exact hc hx

theorem awake (h : Inv N s) (hpc : (s.proc p).pc ≠ .asleep) : (s.proc p).sleeping = false := by
  cases hs : (s.proc p).sleeping
  · rfl
  · exact absurd (h.asleep p hs) hpc

theorem unlocked (h : Inv N s) (hpc : (s.proc p).pc.fallingAsleep = false) :
    (s.proc p).locked = false :=
  (h.locked p).trans hpc

theorem wake (h : Inv N s) (i : Nat) : Inv N (s.wake i) := by
  have key (q : Nat) : ((s.wake i).proc q).pc = (s.proc q).pc ∧
      ((s.wake i).proc q).locked = (s.proc q).locked ∧
      (((s.wake i).proc q).sleeping → (s.proc q).sleeping) := by
    by_cases hq : q = i
    · subst hq; simp [St.wake]
    · simp [St.wake, update_of_ne hq]
  have hpc : ∀ q, ((s.wake i).proc q).pc = (s.proc q).pc := fun q => (key q).1
  have hops : ops N (s.wake i).proc = ops N s.proc := by simp only [ops, hpc]
  refine ⟨fun q hq => ?_, fun q => ?_, fun q => ?_, fun q hq => ?_, ?_,
    fun q hq => ?_, fun hc => ?_,
    fun q r hq hr => ?_, h.exclusive, h.clean, fun q hq => ?_, fun q hq => ?_, h.panic⟩
  · rw [hpc]; exact h.outside q hq
  · rw [hpc]; exact h.lock q
  · rw [hpc, (key q).2.1]; exact h.locked q
  · rw [hpc]; exact h.asleep q ((key q).2.2 hq)
  · rw [hops]; exact h.outstanding
  · exact h.committing q (by rwa [hpc] at hq)
  · obtain ⟨q, hq⟩ := h.committer hc
    exact ⟨q, by rwa [hpc]⟩
  · exact h.one q r (by rwa [hpc] at hq) (by rwa [hpc] at hr)
  · exact h.emptied q (by rwa [hpc] at hq)
  · have hw : (s.proc q).waits := by
      rcases hq with hq | hq
      · exact .inl (by rwa [hpc] at hq)
      · exact .inr ((key q).2.2 hq)
    rcases h.due q hw with hd | hd | ⟨r, j, hr, hj⟩
    · exact .inl hd
    · exact .inr (.inl hd)
    · exact .inr (.inr ⟨r, j, by rw [hpc]; exact hr, hj⟩)

theorem lt_of_waits (h : Inv N s) (hw : (s.proc p).waits) : p < N := by
  by_contra hp
  have hu := h.outside p (by omega)
  rcases hw with hw | hw
  · rw [hu] at hw; cases hw
  · have := h.asleep p hw
    rw [hu] at this; cases this

theorem lt_of_inOp (h : Inv N s) (hop : (s.proc p).pc.inOp) : p < N := by
  by_contra hp
  rw [h.outside p (by omega)] at hop
  cases hop

theorem one_le_outstanding (h : Inv N s) (hp : p < N) (hop : (s.proc p).pc.inOp) :
    1 ≤ s.log.outstanding := by
  rw [h.outstanding]
  exact card_pos.2 ⟨p, by simp [hp, hop]⟩

/-- No process is in `commit` while an operation is outstanding. -/
theorem not_committing (h : Inv N s) (hp : p < N) (hop : (s.proc p).pc.inOp) :
    s.log.committing = false := by
  cases hc : s.log.committing
  · rfl
  · have := h.exclusive hc
    have := h.one_le_outstanding hp hop
    omega

section

variable (h : Inv N s) (hp : p < N) (np : s.panic = none)
include h hp np

/-- Moves of `p` that touch neither the lock nor the log. -/
theorem goto {pc : Pc} (lock : pc.holdsLock = (s.proc p).pc.holdsLock)
    (op : pc.inOp = (s.proc p).pc.inOp) (commit : pc.inCommit = (s.proc p).pc.inCommit)
    (falling : pc.fallingAsleep = (s.proc p).pc.fallingAsleep)
    (notFalling : pc.fallingAsleep = false)
    (emptied : pc.emptied → s.log.block = []) (awake : (s.proc p).sleeping = false)
    (wakeup : ∀ i, (s.proc p).pc = .doneWakeup i → pc = .doneWakeup (i + 1) ∧ ¬(s.proc i).waits) :
    Inv N (s.goto p pc) := by
  refine h.keep hp (x := { s.proc p with pc }) rfl rfl ?_ (fun hx => .inl (lock ▸ hx))
    ((h.locked p).trans falling.symm) (by simp [awake]) op commit emptied (fun q i hw hi hiq => ?_)
    (by simp [Proc.waits, notFalling, awake]) np
  · rw [lock]
    split
    · exact (h.lock p).2 ‹_›
    · rfl
  · obtain ⟨rfl, hn⟩ := wakeup i hi
    have : i ≠ q := by rintro rfl; exact hn hw
    exact ⟨i + 1, rfl, by omega⟩

theorem acquire {pc : Pc} (unheld : (s.proc p).pc.holdsLock = false) (lock : pc.holdsLock)
    (op : pc.inOp = (s.proc p).pc.inOp) (commit : pc.inCommit = (s.proc p).pc.inCommit)
    (falling : (s.proc p).pc.fallingAsleep = false) (notFalling : pc.fallingAsleep = false)
    (emptied : pc.emptied → s.log.block = []) (awake : (s.proc p).sleeping = false)
    (hs : s.acquire p pc = some s') : Inv N s' := by
  unfold St.acquire at hs
  split at hs
  · rename_i free
    cases hs
    refine h.keep hp (x := { s.proc p with pc }) rfl rfl (by simp [lock]) (fun _ => .inr free)
      (by rw [notFalling]; exact (h.locked p).trans falling) (by simp [awake]) op commit emptied
        (fun q i _ hi _ => ?_)
      (by simp [Proc.waits, notFalling, awake]) np
    rw [hi] at unheld
    cases unheld
  · cases hs

theorem wakeupAt {pc : Pc} {i : Nat}
    (hpc : ((s.proc p).pc = .endWakeup i ∧ pc = .endWakeup (i + 1)) ∨
      ((s.proc p).pc = .doneWakeup i ∧ pc = .doneWakeup (i + 1)))
    (hs : s.wakeupAt p i pc = some s') : Inv N s' := by
  have flags : (s.proc p).pc.holdsLock ∧ (s.proc p).pc.inOp = false ∧
      (s.proc p).pc.inCommit = false ∧ (s.proc p).pc.fallingAsleep = false ∧
      (s.proc p).pc ≠ .asleep := by
    rcases hpc with ⟨h, -⟩ | ⟨h, -⟩ <;> rw [h] <;> simp [Pc.holdsLock, Pc.inOp, Pc.inCommit,
      Pc.fallingAsleep]
  have flags' : pc.holdsLock ∧ pc.inOp = false ∧ pc.inCommit = false ∧ pc.fallingAsleep = false ∧
      pc.emptied = false := by
    rcases hpc with ⟨-, rfl⟩ |
      ⟨-, rfl⟩ <;> simp [Pc.holdsLock, Pc.inOp, Pc.inCommit, Pc.fallingAsleep, Pc.emptied]
  obtain ⟨f1, f2, f3, f4, f5⟩ := flags
  obtain ⟨g1, g2, g3, g4, g5⟩ := flags'
  have awake := h.awake f5
  unfold St.wakeupAt at hs
  split at hs
  · rename_i hip
    cases hs
    refine h.goto hp np (by rw [f1, g1]) (by rw [f2, g2]) (by rw [f3, g3]) (by rw [f4, g4]) g4
      (by simp [g5]) awake fun j hj => ?_
    rcases hpc with ⟨he, -⟩ | ⟨he, rfl⟩
    · rw [he] at hj; cases hj
    · rw [he] at hj; cases hj
      refine ⟨rfl, ?_⟩
      rw [hip]
      rintro (hw | hw)
      · rw [f4] at hw; cases hw
      · rw [awake] at hw; cases hw
  · rename_i hip
    have hne : p ≠ i := fun e => hip e.symm
    split at hs
    · cases hs
    · rename_i hlk
      cases hs
      have hself : (s.wake i).proc p = s.proc p := by simp [St.wake, update_of_ne hne]
      refine (h.wake i).goto hp np ?_ ?_ ?_ ?_ g4 (by simp [g5]) ?_ fun j hj => ?_
      · rw [hself, f1, g1]
      · rw [hself, f2, g2]
      · rw [hself, f3, g3]
      · rw [hself, f4, g4]
      · rw [hself, awake]
      · rw [hself] at hj
        rcases hpc with ⟨he, -⟩ | ⟨he, rfl⟩
        · rw [he] at hj; cases hj
        · rw [he] at hj; cases hj
          refine ⟨rfl, ?_⟩
          have hi : (s.proc i).pc.fallingAsleep = false := by
            rw [← h.locked i]; simpa using hlk
          simp [Proc.waits, St.wake, hi]

theorem beginTest (hpc : (s.proc p).pc = .beginTest) (hs : Protocol.tick N s p = some s') :
    Inv N s' := by
  have awake := h.awake (p := p) (by simp [hpc])
  have unlocked := h.unlocked (p := p) (by rw [hpc]; rfl)
  simp only [Protocol.tick, hpc] at hs
  split at hs <;> rename_i hwait <;> cases hs
  · refine h.keep hp rfl rfl ((h.lock p).2 (by rw [hpc]; rfl))
      (fun _ => .inl (by rw [hpc]; rfl)) rfl
      (by simp [awake]) (by rw [hpc]; rfl) (by rw [hpc]; rfl) (by simp [Pc.emptied]) (by simp [hpc])
        (fun _ => ?_) np
    -- an empty log with nothing outstanding always admits the operation
    by_contra hd
    have hc : s.log.committing = false := by
      simpa using fun hc => hd (.inl hc)
    have ho : s.log.outstanding = 0 := by
      by_contra ho
      exact hd (.inr (.inl (by show 1 ≤ s.log.outstanding; omega)))
    have hb := h.clean hc ho
    simp [Log.mustWait, hc, ho, Log.n, hb, LOGSIZE, MAXOPBLOCKS] at hwait
  · have hc : s.log.committing = false := by
      simp only [Log.mustWait, Bool.not_eq_true, Bool.or_eq_false_iff] at hwait
      exact hwait.1
    exact h.move hp rfl (by rw [hpc]; rfl) (by simp [Pc.holdsLock])
      (by simp [unlocked, Pc.fallingAsleep])
      (by simp [awake]) (by rw [hpc]; rfl) (by rw [hpc]; rfl) (by simp [Pc.inCommit])
      (by simp [Pc.inCommit]) (fun _ => hc) (by simp [Log.beginOp]) (fun hb _ => hb)
      (by simp [Pc.emptied]) (fun q _ _ hd => hd.mono rfl rfl (Nat.le_succ _) (by simp [hpc]))
      (by simp [Proc.waits, Pc.fallingAsleep, awake]) (by simp [St.goto, np])

theorem sleepRelease (hpc : (s.proc p).pc = .sleepRelease) :
    Inv N { s.goto p .sleepSwitch with lock := none } := by
  have awake := h.awake (p := p) (by simp [hpc])
  have hd := h.due p (.inl (by rw [hpc]; rfl))
  exact h.keep hp rfl rfl (by rw [hpc]; rfl) (by simp [Pc.holdsLock]) (by rw [h.locked p, hpc]; rfl)
    (by simp [awake]) (by rw [hpc]; rfl) (by rw [hpc]; rfl) (by simp [Pc.emptied]) (by simp [hpc])
    (fun _ => hd.mono rfl rfl (Nat.le_refl _) (by simp [hpc])) np

theorem sleepSwitch (hpc : (s.proc p).pc = .sleepSwitch) :
    Inv N { s with proc := update s.proc p ⟨.asleep, true, false⟩ } := by
  have hd := h.due p (.inl (by rw [hpc]; rfl))
  exact h.keep hp rfl rfl (by rw [hpc]; rfl) (by simp [Pc.holdsLock]) rfl (fun _ => rfl)
    (by rw [hpc]; rfl)
    (by rw [hpc]; rfl) (by simp [Pc.emptied]) (by simp [hpc])
    (fun _ => hd.mono rfl rfl (Nat.le_refl _) (by simp [hpc])) np

theorem writeBody (hpc : (s.proc p).pc = .writeBody b) (hs : Protocol.tick N s p = some s') :
    Inv N s' := by
  have awake := h.awake (p := p) (by simp [hpc])
  have unlocked := h.unlocked (p := p) (by rw [hpc]; rfl)
  simp only [Protocol.tick, hpc] at hs
  split at hs
  · rename_i e he
    cases hs
    have hne : e ≠ .logCommitting := by
      rintro rfl
      unfold Log.write at he
      split at he
      · cases he
      · split at he
        · cases he
        · split at he <;> cases he
    exact { h with panic := by simp [hne] }
  · rename_i l new hw
    cases hs
    obtain ⟨-, -, ho, hl⟩ := Log.write_ok hw
    have hl : l.outstanding = s.log.outstanding ∧ l.committing = s.log.committing := by
      rcases hl with ⟨-, rfl, -⟩ | ⟨-, rfl, -⟩ <;> exact ⟨rfl, rfl⟩
    have hc := h.not_committing hp (by rw [hpc]; rfl)
    refine h.move hp rfl (by rw [hpc]; rfl) (by simp [Pc.holdsLock])
      (by simp [unlocked, Pc.fallingAsleep]) (by simp [awake])
      (by rw [hpc]; simp [hl.1, Pc.inOp]) (by rw [hpc]; simp [hl.2, Pc.inCommit])
      (by simp [Pc.inCommit]) (by simp [Pc.inCommit]) (by simp [hl.1]) (fun _ ho' => ?_)
        (fun _ hc' => ?_)
      (by simp [Pc.emptied]) (fun q _ _ hd => hd.mono rfl hl.2 hl.1.ge (by simp [hpc]))
      (by simp [Proc.waits, Pc.fallingAsleep, awake]) (by simp [St.goto, np])
    · simp only [hl.1] at ho'
      omega
    · rw [hc] at hc'; cases hc'

theorem endBody (hpc : (s.proc p).pc = .endBody) (hs : Protocol.tick N s p = some s') :
    Inv N s' := by
  have awake := h.awake (p := p) (by simp [hpc])
  have unlocked := h.unlocked (p := p) (by rw [hpc]; rfl)
  have hc := h.not_committing hp (by rw [hpc]; rfl)
  have ho := h.one_le_outstanding hp (by rw [hpc]; rfl)
  have count : s.log.outstanding - 1 + (s.proc p).pc.inOp.toNat = s.log.outstanding + 0 := by
    rw [hpc]; simp only [Pc.inOp, Bool.toNat_true]; omega
  simp only [Protocol.tick, hpc, Log.endOp, hc, Bool.false_eq_true, if_false] at hs
  split at hs
  · rename_i e he
    split at he <;> cases he
  · rename_i l he
    cases hs
    split at he
    · rename_i hz
      cases he
      exact h.move hp rfl (by rw [hpc]; rfl) (by simp [Pc.holdsLock])
        (by simp [unlocked, Pc.fallingAsleep]) (by simp [awake]) count (by rfl) (fun _ => .inr hc)
        (fun _ => hz) (fun ho' => hc) (by simp) (fun hb _ => hb) (by simp [Pc.emptied])
        (fun q _ _ _ => .inl rfl) (fun _ => .inl rfl) (by simp [St.goto, np])
    · cases he
  · rename_i l he
    cases hs
    split at he
    · cases he
    · rename_i hz
      cases he
      exact h.move hp rfl ((h.lock p).2 (by rw [hpc]; rfl)) (fun _ => .inl (by rw [hpc]; rfl))
        (by simp [unlocked, Pc.fallingAsleep]) (by simp [awake]) count
        (by rw [hpc]; simp [hc, Pc.inCommit]) (by simp [Pc.inCommit])
        (by simp [Pc.inCommit]) (fun _ => hc)
        (fun _ ho' => absurd ho' hz) (fun hb _ => hb) (by simp [Pc.emptied])
        (fun q _ _ _ => .inr (.inl (by show 1 ≤ s.log.outstanding - 1; omega)))
        (by simp [Proc.waits, Pc.fallingAsleep, awake]) (by simp [St.goto, np])

theorem clearHead (hpc : (s.proc p).pc = .clearHead) :
    Inv N { s.goto p .eraseHead with log := s.log.clear, group := ∅ } := by
  have awake := h.awake (p := p) (by simp [hpc])
  have hc := h.committing p (by rw [hpc]; rfl)
  exact h.move hp rfl (by rw [hpc]; rfl) (by simp [Pc.holdsLock])
    (by rw [h.locked p, hpc]; rfl) (by simp [awake]) (by rw [hpc]; rfl)
    (by simp [Log.clear, hc, Pc.inCommit]) (fun _ => .inl (by rw [hpc]; rfl))
    (fun _ => h.exclusive hc) (by simp [Log.clear]) (fun _ _ => rfl) (fun _ _ => rfl)
    (fun _ => rfl) (fun q _ _ hd => hd.mono rfl rfl (Nat.le_refl _) (by simp [hpc]))
    (by simp [Proc.waits, Pc.fallingAsleep, awake]) (by simp [St.goto, np])

theorem doneBody (hpc : (s.proc p).pc = .doneBody) :
    Inv N { s.goto p (.doneWakeup 0) with log := s.log.commitDone } := by
  have awake := h.awake (p := p) (by simp [hpc])
  exact h.move hp rfl ((h.lock p).2 (by rw [hpc]; rfl)) (fun _ => .inl (by rw [hpc]; rfl))
    (by rw [h.locked p, hpc]; rfl) (by simp [awake]) (by rw [hpc]; rfl)
    (by rw [hpc]; rfl) (by simp [Pc.inCommit]) (by simp [Pc.inCommit])
    (by simp [Log.commitDone]) (fun _ _ => h.emptied p (by rw [hpc]; rfl))
    (fun hb _ => hb) (by simp [Pc.emptied])
      (fun q _ _ _ => .inr (.inr ⟨p, 0, by simp [St.goto], Nat.zero_le _⟩))
    (by simp [Proc.waits, Pc.fallingAsleep, awake]) (by simp [St.goto, np])

/-- The end of `end_op`'s critical sections: every sleeper's entry has been examined. -/
theorem wakeupEnd {i : Nat} (hi : N ≤ i)
    (hpc : (s.proc p).pc = .endWakeup i ∨ (s.proc p).pc = .doneWakeup i) :
    Inv N { s.goto p .user with lock := none } := by
  obtain ⟨held, out, commit, falling, sleep⟩ : (s.proc p).pc.holdsLock ∧
      (s.proc p).pc.inOp = false ∧
      (s.proc p).pc.inCommit = false ∧ (s.proc p).pc.fallingAsleep = false ∧
      (s.proc p).pc ≠ .asleep := by
    rcases hpc with h | h <;> rw [h] <;>
      simp [Pc.holdsLock, Pc.inOp, Pc.inCommit, Pc.fallingAsleep]
  have awake := h.awake sleep
  refine h.keep hp rfl rfl (by rw [held]; rfl) (by simp [Pc.holdsLock])
    (by rw [h.locked p, falling]; rfl)
    (by simp [awake]) (by rw [out]; rfl) (by rw [commit]; rfl) (by simp [Pc.emptied])
      (fun q j hw hj hjq => ?_)
    (by simp [Proc.waits, Pc.fallingAsleep, awake]) np
  have hq := h.lt_of_waits hw
  rcases hpc with he | he <;> rw [he] at hj <;> cases hj
  omega

theorem commitMove {pc : Pc} (old : (s.proc p).pc.inCommit) (old' : (s.proc p).pc.holdsLock = false)
    (new : pc.inCommit) (new' : pc.holdsLock = false) (emptied : pc.emptied → s.log.block = []) :
    Inv N (s.goto p pc) := by
  have key : ∀ pc : Pc, pc.inCommit → pc.holdsLock = false → pc.inOp = false ∧
      pc.fallingAsleep = false ∧ pc ≠ .asleep ∧ ∀ i, pc ≠ .doneWakeup i := by
    intro pc
    cases pc <;> simp [Pc.inCommit, Pc.holdsLock, Pc.inOp, Pc.fallingAsleep]
  obtain ⟨o1, o2, o3, o4⟩ := key _ old old'
  obtain ⟨n1, n2, -, -⟩ := key _ new new'
  exact h.goto hp np (by rw [old', new']) (by rw [o1, n1]) (by rw [old, new]) (by rw [o2, n2]) n2
    emptied (h.awake o3) fun i hi => absurd hi (o4 i)

theorem tick (hs : Protocol.tick N s p = some s') : Inv N s' := by
  have hawake : (s.proc p).pc ≠ .asleep → (s.proc p).sleeping = false := h.awake
  have move := hs
  cases hpc : (s.proc p).pc <;> simp only [Protocol.tick, hpc, reduceCtorEq] at move
  case beginTest => exact h.beginTest hp np hpc hs
  case writeBody => exact h.writeBody hp np hpc hs
  case endBody => exact h.endBody hp np hpc hs
  case sleepRelease => cases move; exact h.sleepRelease hp np hpc
  case sleepSwitch => cases move; exact h.sleepSwitch hp np hpc
  case clearHead => cases move; exact h.clearHead hp np hpc
  case doneBody => cases move; exact h.doneBody hp np hpc
  case endWakeup i =>
    split at move
    · exact h.wakeupAt hp np (.inl ⟨hpc, rfl⟩) move
    · cases move; exact h.wakeupEnd hp np (by omega) (.inl hpc)
  case doneWakeup i =>
    split at move
    · exact h.wakeupAt hp np (.inr ⟨hpc, rfl⟩) move
    · cases move; exact h.wakeupEnd hp np (by omega) (.inr hpc)
  case beginAcquire | writeAcquire | endAcquire =>
    refine h.acquire hp np ?_ ?_ ?_ ?_ ?_ ?_ ?_ (hawake (by simp [hpc])) move <;>
      simp [hpc, Pc.holdsLock, Pc.inOp, Pc.inCommit, Pc.fallingAsleep, Pc.emptied]
  case doneAcquire =>
    refine h.acquire hp np ?_ rfl ?_ ?_ ?_ rfl (fun _ => h.emptied p (by rw [hpc]; rfl))
      (hawake (by simp [hpc])) move <;> rw [hpc] <;> rfl
  case asleep =>
    split at move
    · cases move
    · cases move
      refine h.goto hp np ?_ ?_ ?_ ?_ rfl ?_ ?_ ?_ <;>
        simp_all [Pc.holdsLock, Pc.inOp, Pc.inCommit, Pc.fallingAsleep, Pc.emptied]
  all_goals
    obtain rfl := Option.some.inj move
    have inside : (s.proc p).pc.inCommit ∧ (s.proc p).pc.holdsLock = false := by
      rw [hpc]; exact ⟨rfl, rfl⟩
  case commit =>
    split
    · exact h.commitMove hp np inside.1 inside.2 rfl rfl (by simp [Pc.emptied])
    · rename_i hn
      exact h.commitMove hp np inside.1 inside.2 rfl rfl fun _ =>
        List.eq_nil_of_length_eq_zero (by simpa [Log.n] using hn)
  case writeLog | installTrans =>
    split <;> exact h.commitMove hp np inside.1 inside.2 rfl rfl (by simp [Pc.emptied])
  case writeHead => exact h.commitMove hp np inside.1 inside.2 rfl rfl (by simp [Pc.emptied])
  case eraseHead =>
    exact h.commitMove hp np inside.1 inside.2 rfl rfl fun _ => h.emptied p (by rw [hpc]; rfl)

end

theorem step (h : Inv N s) (hs : Protocol.step N s p a = some s') : Inv N s' := by
  unfold Protocol.step at hs
  split at hs
  · cases hs
  · rename_i hn
    simp only [not_or, Option.isSome_iff_ne_none, ne_eq, not_not, not_le] at hn
    obtain ⟨np, hp⟩ := hn
    split at hs
    iterate 3
      · rename_i hpc
        cases hs
        refine h.goto hp np ?_ ?_ ?_ ?_ rfl ?_ (h.awake (by simp [hpc])) ?_ <;>
          simp [hpc, Pc.holdsLock, Pc.inOp, Pc.inCommit, Pc.fallingAsleep, Pc.emptied]
    · split at hs
      · cases hs
      · cases hs; exact h.wake p
    · exact h.tick hp np hs
    · cases hs

theorem reaches (h : Reaches N (Protocol.boot size) s) : Inv N s :=
  h.induct (.boot N size) fun _ _ _ _ hi hs => hi.step hs

end Inv

end Xv6.Protocol
