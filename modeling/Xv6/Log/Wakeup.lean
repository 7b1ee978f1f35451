import Xv6.Log.GroupCommit

/-!
# Wakeups on `&log`

How one step changes the process table, and from it: the entries a running `wakeup` has passed
belong to processes that do not wait, so that a process that returns from `end_op` leaves nobody
asleep on `&log`.
-/

namespace Xv6.Protocol
open St Function Finset

/-! ## What a `wakeup` has done -/

/-- In `wakeup`, about to examine entry `i`. -/
def Pc.sweeps (pc : Pc) (i : Nat) : Prop := pc = .endWakeup i ∨ pc = .doneWakeup i

/-- The entries that a `wakeup` in progress has passed belong to processes that do not wait. -/
def Swept (s : St) : Prop := ∀ p i, (s.proc p).pc.sweeps i → ∀ q, q < i → ¬(s.proc q).waits

/-- How one step of `p` changes the process table and the logged blocks. -/
structure Moved (N : Nat) (s : St) (p : Nat) (s' : St) : Prop where
  others : ∀ q, q ≠ p → (s'.proc q).pc = (s.proc q).pc ∧ ((s'.proc q).waits → (s.proc q).waits)
  joins : (s'.proc p).waits → (s.proc p).waits ∨ (s.proc p).pc.holdsLock
  sweeps : ∀ i, (s'.proc p).pc.sweeps i → (s.proc p).pc.sweeps i ∨ i = 0 ∨
    ∃ j, i = j + 1 ∧ (s.proc p).pc.sweeps j ∧ (j = p ∨ ¬(s'.proc j).waits)
  returns : (s'.proc p).pc = .user → (s.proc p).pc = .user ∨
    (∃ i, (s.proc p).pc.sweeps i ∧ N ≤ i) ∧ s'.proc = (s.goto p .user).proc
  block : s'.log.block = s.log.block ∨ (s.proc p).pc = .clearHead ∨ (s.proc p).pc.inOp

namespace Moved

variable {N p : Nat} {s s' : St} {a : Act}

theorem goto_self (s : St) (p : Nat) (pc : Pc) : (s.goto p pc).proc p = { s.proc p with pc } :=
  update_self ..

theorem goto_of_ne {s : St} {p q : Nat} (hq : q ≠ p) (pc : Pc) : (s.goto p pc).proc q = s.proc q :=
  update_of_ne hq ..

theorem still (hproc : s'.proc = s.proc) (block : s'.log.block = s.log.block) : Moved N s p s' := by
  refine ⟨fun q _ => ?_, ?_, fun i hi => .inl ?_, fun hu => .inl ?_, .inl block⟩
  · rw [hproc]; exact ⟨rfl, id⟩
  · rw [hproc]; exact .inl
  · rwa [hproc] at hi
  · rwa [hproc] at hu

theorem update {x : Proc} (hproc : s'.proc = update s.proc p x)
    (joins : x.waits → (s.proc p).waits ∨ (s.proc p).pc.holdsLock)
    (sweeps : ∀ i, x.pc.sweeps i → i = 0) (user : x.pc ≠ .user)
    (block : s'.log.block = s.log.block ∨ (s.proc p).pc = .clearHead ∨ (s.proc p).pc.inOp) :
    Moved N s p s' := by
  have self : s'.proc p = x := by rw [hproc, update_self]
  refine ⟨fun q hq => ?_, ?_, fun i hi => ?_, fun hu => ?_, block⟩
  · rw [hproc, update_of_ne hq]; exact ⟨rfl, id⟩
  · rw [self]; exact joins
  · rw [self] at hi
    exact .inr (.inl (sweeps i hi))
  · rw [self] at hu
    exact absurd hu user

theorem goto {pc : Pc} (hproc : s'.proc = (s.goto p pc).proc) (falling : pc.fallingAsleep = false)
    (sweeps : ∀ i, pc.sweeps i → i = 0) (user : pc ≠ .user)
    (block : s'.log.block = s.log.block ∨ (s.proc p).pc = .clearHead ∨ (s.proc p).pc.inOp) :
    Moved N s p s' := by
  refine update hproc ?_ sweeps user block
  rintro (hw | hw)
  · rw [falling] at hw; cases hw
  · exact .inl (.inr hw)

theorem acquire {pc : Pc} (falling : pc.fallingAsleep = false) (sweeps : ∀ i, pc.sweeps i → i = 0)
    (user : pc ≠ .user) (hs : s.acquire p pc = some s') : Moved N s p s' := by
  unfold St.acquire at hs
  split at hs
  · cases hs; exact goto rfl falling sweeps user (.inl rfl)
  · cases hs

theorem wake (s : St) (p p' : Nat) : Moved N s p' (s.wake p) := by
  have hpc : ∀ q, ((s.wake p).proc q).pc = (s.proc q).pc ∧
      (((s.wake p).proc q).waits → (s.proc q).waits) := by
    intro q
    by_cases hq : q = p
    · subst hq
      simp only [St.wake, update_self, Proc.waits, true_and]
      rintro (hw | hw)
      · exact .inl hw
      · cases hw
    · simp only [St.wake, update_of_ne hq, true_and]
      exact id
  refine ⟨fun q _ => hpc q, fun hw => .inl ((hpc p').2 hw), fun i hi => .inl ?_, fun hu => .inl ?_,
    .inl rfl⟩
  · rwa [(hpc p').1] at hi
  · rwa [(hpc p').1] at hu

theorem wakeupAt (h : Inv N s) {pc : Pc} {i : Nat} (old : (s.proc p).pc.sweeps i)
    (new : pc.sweeps (i + 1)) (hs : s.wakeupAt p i pc = some s') : Moved N s p s' := by
  have falling : pc.fallingAsleep = false := by rcases new with rfl | rfl <;> rfl
  have user : pc ≠ .user := by rcases new with rfl | rfl <;> simp
  have new' : ∀ k, pc.sweeps k → k = i + 1 := by
    rintro k (rfl | rfl) <;> rcases new with h | h <;> cases h <;> rfl
  -- the state in which `p` moves on to the next entry, whether or not it is its own
  have key : ∀ s₀ : St, Moved N s p s₀ → s₀.log.block = s.log.block →
      (i = p ∨ ¬((s₀.goto p pc).proc i).waits) → Moved N s p (s₀.goto p pc) := by
    intro s₀ hm hb hi
    refine ⟨fun q hq => ?_, ?_, fun k hk => ?_, fun hu => ?_, .inl hb⟩
    · rw [goto_of_ne hq]; exact hm.others q hq
    · rw [goto_self]
      rintro (hx | hx)
      · rw [falling] at hx; cases hx
      · exact hm.joins (.inr hx)
    · rw [goto_self] at hk
      exact .inr (.inr ⟨i, new' k hk, old, hi⟩)
    · rw [goto_self] at hu
      exact absurd hu user
  unfold St.wakeupAt at hs
  split at hs
  · rename_i hip
    cases hs
    exact key s (still rfl rfl) rfl (.inl hip)
  · rename_i hip
    split at hs
    · cases hs
    · rename_i hlk
      cases hs
      refine key _ (wake s i p) rfl (.inr ?_)
      have hi := h.locked i
      rw [show (s.proc i).locked = false by simpa using hlk] at hi
      simp [St.goto, St.wake, update_of_ne hip, Proc.waits, ← hi]

theorem wakeupEnd {i : Nat} (old : (s.proc p).pc.sweeps i) (hi : N ≤ i)
    (hproc : s'.proc = (s.goto p .user).proc) (block : s'.log.block = s.log.block) :
    Moved N s p s' := by
  refine ⟨fun q hq => ?_, ?_, ?_, fun _ => .inr ⟨⟨i, old, hi⟩, hproc⟩, .inl block⟩
  · rw [hproc, goto_of_ne hq]; exact ⟨rfl, id⟩
  · rw [hproc, goto_self]
    rintro (hw | hw)
    · cases hw
    · exact .inl (.inr hw)
  · rw [hproc, goto_self]
    rintro k (hk | hk) <;> cases hk

theorem tick (h : Inv N s) (hs : Protocol.tick N s p = some s') : Moved N s p s' := by
  cases hpc : (s.proc p).pc <;> simp only [Protocol.tick, hpc, reduceCtorEq] at hs
  case beginAcquire | writeAcquire b | endAcquire | doneAcquire =>
    exact acquire rfl (by simp [Pc.sweeps]) (by simp) hs
  case beginTest =>
    split at hs <;> cases hs
    · exact update rfl (fun _ => .inr (by rw [hpc]; rfl)) (by simp [Pc.sweeps]) (by simp) (.inl rfl)
    · exact goto rfl rfl (by simp [Pc.sweeps]) (by simp) (.inl rfl)
  case sleepRelease =>
    cases hs
    exact update rfl (fun _ => .inr (by rw [hpc]; rfl)) (by simp [Pc.sweeps]) (by simp) (.inl rfl)
  case sleepSwitch =>
    cases hs
    exact update rfl (fun _ => .inl (.inl (by rw [hpc]; rfl))) (by simp [Pc.sweeps]) (by simp)
      (.inl rfl)
  case asleep =>
    split at hs <;> cases hs
    exact goto rfl rfl (by simp [Pc.sweeps]) (by simp) (.inl rfl)
  case writeBody b =>
    split at hs <;> cases hs
    · exact still rfl rfl
    · exact goto rfl rfl (by simp [Pc.sweeps]) (by simp) (.inr (.inr (by rw [hpc]; rfl)))
  case endBody =>
    split at hs <;> cases hs
    · exact still rfl rfl
    all_goals exact goto rfl rfl (by simp [Pc.sweeps]) (by simp) (.inr (.inr (by rw [hpc]; rfl)))
  case endWakeup i =>
    split at hs
    · exact wakeupAt h (by rw [hpc]; exact .inl rfl) (.inl rfl) hs
    · cases hs; exact wakeupEnd (i := i) (by rw [hpc]; exact .inl rfl) (by omega) rfl rfl
  case doneWakeup i =>
    split at hs
    · exact wakeupAt h (by rw [hpc]; exact .inr rfl) (.inr rfl) hs
    · cases hs; exact wakeupEnd (i := i) (by rw [hpc]; exact .inr rfl) (by omega) rfl rfl
  case commit | writeLog tail | installTrans tail =>
    cases hs
    split <;> exact goto rfl rfl (by simp [Pc.sweeps]) (by simp) (.inl rfl)
  case clearHead =>
    cases hs
    exact goto rfl rfl (by simp [Pc.sweeps]) (by simp) (.inr (.inl hpc))
  case writeHead | eraseHead | doneBody =>
    cases hs
    exact goto rfl rfl (by simp [Pc.sweeps]) (by simp) (.inl rfl)

theorem step (h : Inv N s) (hs : Protocol.step N s p a = some s') : Moved N s p s' := by
  unfold Protocol.step at hs
  split at hs
  · cases hs
  · split at hs
    · cases hs; exact goto rfl rfl (by simp [Pc.sweeps]) (by simp) (.inl rfl)
    · cases hs; exact goto rfl rfl (by simp [Pc.sweeps]) (by simp) (.inl rfl)
    · cases hs; exact goto rfl rfl (by simp [Pc.sweeps]) (by simp) (.inl rfl)
    · split at hs
      · cases hs
      · cases hs; exact wake s p p
    · exact tick h hs
    · cases hs

end Moved

variable {N p : Nat} {s s' : St} {a : Act}

theorem Swept.step (h : Inv N s) (hw : Swept s) (hs : Protocol.step N s p a = some s') :
    Swept s' := by
  have hm := Moved.step h hs
  have h' := h.step hs
  intro r i hr q hqi hq
  by_cases hrp : r = p
  · subst hrp
    have hself : ¬(s'.proc r).waits := by
      rintro (hx | hx)
      · rcases hr with hr | hr <;> rw [hr] at hx <;> cases hx
      · have := h'.asleep r hx
        rcases hr with hr | hr <;> rw [hr] at this <;> cases this
    have hqr : q ≠ r := by rintro rfl; exact hself hq
    have hq' := (hm.others q hqr).2 hq
    rcases hm.sweeps i hr with hi | hi | ⟨j, rfl, hj, hd⟩
    · exact hw r i hi q hqi hq'
    · omega
    · rcases Nat.lt_succ_iff_lt_or_eq.1 hqi with hqj | rfl
      · exact hw r j hj q hqj hq'
      · rcases hd with hd | hd
        · exact hqr hd
        · exact hd hq
  · -- `r` holds `log.lock`, so `p` does not and cannot have gone to sleep
    rw [(hm.others r hrp).1] at hr
    have hl : s.lock = some r := (h.lock r).2 (by rcases hr with hr | hr <;> rw [hr] <;> rfl)
    by_cases hqp : q = p
    · subst hqp
      rcases hm.joins hq with hx | hx
      · exact hw r i hr q hqi hx
      · rw [(h.lock q).2 hx] at hl
        exact hrp (Option.some.inj hl).symm
    · exact hw r i hr q hqi ((hm.others q hqp).2 hq)

theorem Swept.reaches (h : Reaches N (boot size) s) : Swept s := by
  have key : Inv N s ∧ Swept s := by
    refine h.induct (I := fun s => Inv N s ∧ Swept s) ⟨.boot N size, ?_⟩ ?_
    · intro p i hp
      rcases hp with hp | hp <;> cases hp
    · exact fun _ _ _ _ ⟨hi, hw⟩ hs => ⟨hi.step hs, hw.step hi hs⟩
  exact key.2

/-- A step by which a process returns from `end_op` leaves no process asleep on `&log`. -/
theorem Swept.wakes_all (h : Inv N s) (hw : Swept s) (hs : Protocol.step N s p a = some s')
    (hpc : (s.proc p).pc ≠ .user) (hpc' : (s'.proc p).pc = .user) (q : Nat) :
    (s'.proc q).sleeping = false := by
  have hq : (s.proc q).sleeping = false := by
    by_contra hq
    rw [Bool.not_eq_false] at hq
    obtain hu | ⟨⟨i, hi, hN⟩, -⟩ := (Moved.step h hs).returns hpc'
    · exact hpc hu
    · have hqN : q < N := by
        by_contra hqN
        have := h.outside q (by omega)
        rw [h.asleep q hq] at this
        cases this
      exact hw p i hi q (by omega) (.inr hq)
  obtain hu | ⟨-, hproc⟩ := (Moved.step h hs).returns hpc'
  · exact absurd hu hpc
  · rw [hproc]
    by_cases hqp : q = p
    · subst hqp; rw [Moved.goto_self]; exact hq
    · rw [Moved.goto_of_ne hqp]; exact hq

/-- No step changes `log.lh` while a commit runs, but the one of `commit` that empties it. -/
theorem Inv.block_of_committing (h : Inv N s) (hc : s.log.committing = true)
    (hs : Protocol.step N s p a = some s') (hpc : (s.proc p).pc ≠ .clearHead) :
    s'.log.block = s.log.block := by
  rcases (Moved.step h hs).block with hb | hb | hb
  · exact hb
  · exact absurd hb hpc
  · rw [h.not_committing (h.lt_of_inOp hb) hb] at hc
    cases hc

/-- While `log.lock` is free, a process asleep on `&log` has a waker: the process in `commit`, or
one between `begin_op` and `end_op`. -/
theorem Inv.waker (h : Inv N s) (hl : s.lock = none) {p : Nat} (hp : (s.proc p).sleeping = true) :
    (s.log.committing = true ∧ ∃ q, (s.proc q).pc.inCommit) ∨
      (1 ≤ s.log.outstanding ∧ ∃ q, (s.proc q).pc.inOp) := by
  rcases h.due p (.inr hp) with hc | ho | ⟨r, i, hr, -⟩
  · exact .inl ⟨hc, h.committer hc⟩
  · refine .inr ⟨ho, ?_⟩
    rw [h.outstanding] at ho
    obtain ⟨q, hq⟩ := card_pos.1 ho
    exact ⟨q, (mem_filter.1 hq).2⟩
  · have := (h.lock r).2 (by rw [hr]; rfl)
    rw [hl] at this
    cases this

/-- The group-commit protocol. A commit excludes operations, so it alone touches `log.lh` and
`end_op` never finds `log.committing` set; a log that nobody uses is empty; a process asleep in
`begin_op` has a waker, and whoever returns from `end_op` leaves nobody asleep. -/
theorem Reaches.groupCommit (h : Reaches N (boot size) s) :
    (s.log.committing = true → s.log.outstanding = 0 ∧
      ∀ p a s', step N s p a = some s' → (s.proc p).pc ≠ .clearHead →
        s'.log.block = s.log.block) ∧
    s.panic ≠ some .logCommitting ∧
    (s.log.committing = false → s.log.outstanding = 0 → s.log.n = 0) ∧
    (∀ p, s.lock = none → (s.proc p).sleeping = true →
      (s.log.committing = true ∧ ∃ q, (s.proc q).pc.inCommit) ∨
        (1 ≤ s.log.outstanding ∧ ∃ q, (s.proc q).pc.inOp)) ∧
    (∀ p a s', step N s p a = some s' → (s.proc p).pc ≠ .user → (s'.proc p).pc = .user →
      ∀ q, (s'.proc q).sleeping = false) := by
  have hi := Inv.reaches h
  refine ⟨fun hc => ⟨hi.exclusive hc, fun p a s' => hi.block_of_committing hc⟩,
    hi.panic, ?_, ?_, ?_⟩
  · intro hc ho
    rw [Log.n, hi.clean hc ho]
    rfl
  · exact fun p hl hp => hi.waker hl hp
  · exact fun p a s' hs hpc hpc' => (Swept.reaches h).wakes_all hi hs hpc hpc'

/-- Three operations fill the log's budget, and a fourth process sleeps in `begin_op`. -/
theorem groupCommit_sleeper : ∃ s, Reaches 4 (boot Log.nlog) s ∧ s.lock = none ∧
    (s.proc 3).sleeping = true ∧ ∃ q, (s.proc q).pc.inOp := by
  let start (p : Nat) : List (Nat × Act) := [(p, .beginOp), (p, .tick), (p, .tick)]
  let sched := start 0 ++ start 1 ++ start 2 ++ start 3 ++ [(3, .tick), (3, .tick)]
  have run : (exec 4 sched (boot Log.nlog)).isSome := by decide
  have h : Reaches 4 (boot Log.nlog) (Option.get _ run) := ⟨sched, (Option.some_get run).symm⟩
  have hl : (Option.get _ run).lock = none := rfl
  have hp : ((Option.get _ run).proc 3).sleeping = true := rfl
  refine ⟨_, h, hl, hp, ?_⟩
  rcases h.groupCommit.2.2.2.1 3 hl hp with ⟨hc, -⟩ | ⟨-, hq⟩
  · exact absurd hc Bool.false_ne_true
  · exact hq

end Xv6.Protocol
