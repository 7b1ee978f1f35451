import Xv6.Log.GroupCommit
import Mathlib.Data.Finset.Dedup
import Mathlib.Algebra.BigOperators.Ring.Finset
import Mathlib.Algebra.Order.BigOperators.Group.Finset

/-!
# The reservation of log space

`begin_op` lets an operation in only if the log has room for `MAXOPBLOCKS` blocks of it and of
every outstanding operation, in a log of `LOGSIZE` blocks. `log_write` stops one block earlier: it
compares `log.lh.n` with `log.size - 1`, and `mkfs` makes `log.size` equal to `LOGSIZE`.
-/

namespace Xv6.Protocol
open St Function List

/-- What one step of `p` does to the log, to the history fields and to the set of processes
between `begin_op` and `end_op`. -/
inductive LogStep (s : St) (p : Nat) (a : Act) (s' : St) : Prop
  | quiet (panic : s'.panic = s.panic) (log : s'.log.size = s.log.size ∧ s'.log.block = s.log.block)
      (used : s'.used = s.used) (group : s'.group = s.group)
      (inOp : ∀ q, (s'.proc q).pc.inOp = (s.proc q).pc.inOp)
  | beginOp (panic : s'.panic = s.panic) (wait : s.log.mustWait = false)
      (log : s'.log = s.log.beginOp)
      (used : s'.used = update s.used p ∅) (group : s'.group = s.group)
      (old : (s.proc p).pc.inOp = false)
      (inOp : ∀ q, (s'.proc q).pc.inOp = if q = p then true else (s.proc q).pc.inOp)
  | write (b : Nat) (new : Bool) (panic : s'.panic = s.panic) (act : a = .tick)
      (pc : (s.proc p).pc = .writeBody b) (log : s.log.write b = .ok (s'.log, new))
      (used : s'.used = update s.used p (insert b (s.used p)))
      (group : s'.group = insert b s.group)
      (inOp : ∀ q, (s'.proc q).pc.inOp = (s.proc q).pc.inOp)
  | endOp (panic : s'.panic = s.panic) (log : s'.log.size = s.log.size ∧ s'.log.block = s.log.block)
      (used : s'.used = s.used) (group : s'.group = s.group)
      (inOp : ∀ q, (s'.proc q).pc.inOp = if q = p then false else (s.proc q).pc.inOp)
  | clear (panic : s'.panic = s.panic) (pc : (s.proc p).pc = .clearHead)
      (log : s'.log = s.log.clear) (used : s'.used = s.used) (group : s'.group = ∅)
      (inOp : ∀ q, (s'.proc q).pc.inOp = (s.proc q).pc.inOp)
  | halt (e : Panic) (act : a = .tick) (state : s' = { s with panic := some e })
      (why : (∃ b, (s.proc p).pc = .writeBody b ∧ s.log.write b = .error e) ∨
        s.log.endOp = .error e)

namespace LogStep

variable {N p : Nat} {s s' : St} {a : Act}

theorem inOp_update {x : Proc} {b : Bool} (hproc : s'.proc = update s.proc p x)
    (hx : x.pc.inOp = b) (q : Nat) :
    (s'.proc q).pc.inOp = if q = p then b else (s.proc q).pc.inOp := by
  rw [hproc, update_apply, ← hx]
  split <;> rfl

theorem inOp_same {x : Proc} (hproc : s'.proc = update s.proc p x)
    (hx : x.pc.inOp = (s.proc p).pc.inOp) (q : Nat) :
    (s'.proc q).pc.inOp = (s.proc q).pc.inOp := by
  rw [inOp_update hproc hx]
  split
  · rename_i h; rw [h]
  · rfl

theorem goto {pc : Pc} (hx : pc.inOp = (s.proc p).pc.inOp) : LogStep s p a (s.goto p pc) :=
  .quiet rfl ⟨rfl, rfl⟩ rfl rfl (inOp_same rfl hx)

theorem acquire {pc : Pc} (hx : pc.inOp = (s.proc p).pc.inOp) (hs : s.acquire p pc = some s') :
    LogStep s p a s' := by
  unfold St.acquire at hs
  split at hs
  · cases hs; exact .quiet rfl ⟨rfl, rfl⟩ rfl rfl (inOp_same rfl hx)
  · cases hs

theorem wake (s : St) (p p' : Nat) : LogStep s p' a (s.wake p) :=
  .quiet rfl ⟨rfl, rfl⟩ rfl rfl (inOp_same (p := p) rfl rfl)

theorem wakeupAt {pc : Pc} {i : Nat} (hx : pc.inOp = (s.proc p).pc.inOp)
    (hs : s.wakeupAt p i pc = some s') : LogStep s p a s' := by
  unfold St.wakeupAt at hs
  split at hs
  · cases hs; exact goto hx
  · split at hs
    · cases hs
    · cases hs
      have hw : ∀ q, ((s.wake i).proc q).pc.inOp = (s.proc q).pc.inOp :=
        inOp_same (p := i) rfl rfl
      refine .quiet rfl ⟨rfl, rfl⟩ rfl rfl fun q => ?_
      rw [inOp_same (s := s.wake i) (p := p) rfl (hx.trans (hw p).symm), hw q]

theorem tick (hs : Protocol.tick N s p = some s') : LogStep s p .tick s' := by
  cases hpc : (s.proc p).pc <;> simp only [Protocol.tick, hpc, reduceCtorEq] at hs
  case beginAcquire | writeAcquire b | endAcquire | doneAcquire =>
    exact acquire (by rw [hpc]; rfl) hs
  case beginTest =>
    split at hs <;> cases hs
    · exact .quiet rfl ⟨rfl, rfl⟩ rfl rfl (inOp_same rfl (by rw [hpc]; rfl))
    · rename_i hw
      exact .beginOp rfl (by simpa using hw) rfl rfl rfl (by rw [hpc]; rfl) (inOp_update rfl rfl)
  case sleepRelease | sleepSwitch | writeHead | eraseHead | doneBody =>
    cases hs
    exact .quiet rfl ⟨rfl, rfl⟩ rfl rfl (inOp_same rfl (by rw [hpc]; rfl))
  case asleep =>
    split at hs <;> cases hs
    exact goto (by rw [hpc]; rfl)
  case writeBody b =>
    split at hs <;> cases hs
    · rename_i e hw
      exact .halt e rfl rfl (.inl ⟨b, hpc, hw⟩)
    · rename_i l new hw
      exact .write b new rfl rfl hpc hw rfl rfl (inOp_same rfl (by rw [hpc]; rfl))
  case endBody =>
    split at hs <;> cases hs
    · rename_i e he
      exact .halt e rfl rfl (.inr he)
    all_goals
      rename_i l hl
      obtain ⟨-, -, rfl⟩ := Log.endOp_ok hl
      exact .endOp rfl ⟨rfl, rfl⟩ rfl rfl (inOp_update rfl rfl)
  case endWakeup i | doneWakeup i =>
    split at hs
    · exact wakeupAt (by rw [hpc]; rfl) hs
    · cases hs; exact .quiet rfl ⟨rfl, rfl⟩ rfl rfl (inOp_same rfl (by rw [hpc]; rfl))
  case commit | writeLog tail | installTrans tail =>
    cases hs
    split <;> exact goto (by rw [hpc]; rfl)
  case clearHead =>
    cases hs
    exact .clear rfl hpc rfl rfl rfl (inOp_same rfl (by rw [hpc]; rfl))

theorem step (hs : Protocol.step N s p a = some s') : LogStep s p a s' := by
  unfold Protocol.step at hs
  split at hs
  · cases hs
  · split at hs
    · rename_i hpc; cases hs; exact goto (by rw [hpc]; rfl)
    · rename_i hpc; cases hs; exact goto (by rw [hpc]; rfl)
    · rename_i hpc; cases hs; exact goto (by rw [hpc]; rfl)
    · split at hs
      · cases hs
      · cases hs; exact wake s p p
    · exact tick hs
    · cases hs

end LogStep

variable {N p : Nat} {s s' : St} {a : Act} {sched : List (Nat × Act)}

theorem step_panic (hs : step N s p a = some s') : s.panic = none := by
  unfold step at hs
  split at hs
  · cases hs
  · rename_i h
    simp only [not_or, Option.isSome_iff_ne_none, ne_eq, not_not] at h
    exact h.1

theorem lt_of_step (hs : step N s p a = some s') : p < N := by
  unfold step at hs
  split at hs
  · cases hs
  · omega

/-- The condition that `AllWrites` puts on one step. -/
def AtWrite (C : St → Nat → Nat → Prop) (s : St) (p : Nat) (a : Act) : Prop :=
  match a, (s.proc p).pc with
  | .tick, .writeBody b => C s p b
  | _, _ => True

/-- `C s p b` holds in every state `s` of a run in which process `p` executes the critical
section of `log_write` for block `b`. -/
def AllWrites (C : St → Nat → Nat → Prop) (N : Nat) : List (Nat × Act) → St → Prop
  | [], _ => True
  | (p, a) :: sched, s => AtWrite C s p a ∧
    match step N s p a with
    | some s' => AllWrites C N sched s'
    | none => True

/-- The group has so far logged fewer distinct blocks than a log of `LOGSIZE` blocks holds beside
its header. -/
def Fits (s : St) (_p _b : Nat) : Prop := s.group.card < LOGSIZE - 1

/-- The operation logs at most `m` distinct blocks. -/
def Budget (m : Nat) (s : St) (p b : Nat) : Prop := (insert b (s.used p)).card ≤ m

/-- `log_write` panics exactly in a log that is full, also for a block that it would absorb. -/
theorem step_tooBig (hs : step N s p a = some s') : s'.panic ≠ some .tooBigTransaction ↔
    AtWrite (fun s _ _ => s.log.n < LOGSIZE ∧ s.log.n < s.log.size - 1) s p a := by
  have np := step_panic hs
  constructor
  · intro h
    unfold AtWrite
    split
    · rename_i b hpc
      by_contra hfull
      refine h ?_
      unfold step at hs
      split at hs
      · cases hs
      · simp only [hpc, tick,
          Log.write_tooBig.2 (by omega : LOGSIZE ≤ s.log.n ∨ s.log.size - 1 ≤ s.log.n)] at hs
        cases hs
        rfl
    · trivial
  · intro h
    cases LogStep.step hs with
    | quiet panic | beginOp panic | endOp panic | clear panic | write b new panic =>
      rw [panic, np]
      simp
    | halt e act state why =>
      rintro hp
      obtain rfl : e = .tooBigTransaction := by simpa [state] using hp
      obtain ⟨b, hpc, hw⟩ | he := why
      · subst act
        simp only [AtWrite, hpc] at h
        have := Log.write_tooBig.1 hw
        omega
      · cases Log.endOp_error he

/-- The header lists the distinct blocks of the group. -/
structure Grouped (s : St) : Prop where
  size : s.log.size = Log.nlog
  nodup : s.log.block.Nodup
  group : s.log.block.toFinset = s.group

namespace Grouped

theorem card (h : Grouped s) : s.group.card = s.log.n := by
  rw [← h.group, toFinset_card_of_nodup h.nodup, Log.n]

theorem step (h : Grouped s) (hs : Protocol.step N s p a = some s') : Grouped s' := by
  cases LogStep.step hs with
  | quiet panic log used group | endOp panic log used group =>
    exact ⟨by rw [log.1, h.size], by rw [log.2]; exact h.nodup, by rw [log.2, group, h.group]⟩
  | beginOp panic wait log used group =>
    exact ⟨by rw [log]; exact h.size, by rw [log]; exact h.nodup, by rw [log, group]; exact h.group⟩
  | clear panic pc log used group =>
    exact ⟨by rw [log]; exact h.size, by rw [log]; exact nodup_nil, by rw [log, group]; rfl⟩
  | write b new panic act pc log used group =>
    obtain ⟨-, -, -, ⟨hb, hl, -⟩ | ⟨hb, hl, -⟩⟩ := Log.write_ok log
    · refine ⟨by rw [hl, h.size], by rw [hl]; exact h.nodup, ?_⟩
      rw [hl, group, h.group, Finset.insert_eq_of_mem]
      rwa [← h.group, mem_toFinset]
    · refine ⟨by rw [hl]; exact h.size, ?_, ?_⟩
      · rw [hl]
        exact h.nodup.append (nodup_singleton b) (by simpa using hb)
      · rw [hl, group, ← h.group]
        ext c
        simp
  | halt e act state why => rw [state]; exact ⟨h.size, h.nodup, h.group⟩

theorem fits (h : Grouped s) (hs : Protocol.step N s p a = some s') :
    s'.panic ≠ some .tooBigTransaction ↔ AtWrite Fits s p a := by
  have : s.log.n < LOGSIZE ∧ s.log.n < s.log.size - 1 ↔ s.group.card < LOGSIZE - 1 := by
    rw [h.card, h.size, Log.nlog]
    omega
  rw [step_tooBig hs]
  unfold AtWrite Fits
  split
  · exact this
  · rfl

end Grouped

theorem exec_fits (h : Grouped s) (hn : s.panic ≠ some .tooBigTransaction)
    (hs : exec N sched s = some s') :
    s'.panic ≠ some .tooBigTransaction ↔ AllWrites Fits N sched s := by
  induction sched generalizing s with
  | nil => cases hs; exact ⟨fun _ => trivial, fun _ => hn⟩
  | cons x sched ih =>
    obtain ⟨p, a⟩ := x
    simp only [exec, Option.bind_eq_some_iff] at hs
    obtain ⟨s₁, hs₁, hs⟩ := hs
    have head := h.fits hs₁
    simp only [AllWrites, hs₁]
    by_cases h₁ : s₁.panic = some .tooBigTransaction
    · -- a panicked machine makes no further step
      have hw : ¬AtWrite Fits s p a := fun hw => head.2 hw h₁
      cases sched with
      | nil => cases hs; simp [h₁, hw]
      | cons y sched =>
        simp only [exec, Option.bind_eq_some_iff] at hs
        obtain ⟨s₂, hs₂, -⟩ := hs
        rw [step_panic hs₂] at h₁
        cases h₁
    · rw [ih (h.step hs₁) h₁ hs]
      exact ⟨fun ha => ⟨head.1 h₁, ha⟩, And.right⟩

theorem Grouped.boot : Grouped (boot Log.nlog) := ⟨rfl, nodup_nil, rfl⟩

/-- With a log of `LOGSIZE` blocks a run is free of the panic of `log_write` if and only if no
`log_write` is executed in a group that already logged `LOGSIZE - 1` distinct blocks. -/
theorem reservation_iff (hs : exec N sched (boot Log.nlog) = some s) :
    s.panic ≠ some .tooBigTransaction ↔ AllWrites Fits N sched (boot Log.nlog) :=
  exec_fits .boot (by simp [Protocol.boot]) hs

theorem reservation_iff_one : AllWrites Fits 1
    [(0, .beginOp), (0, .tick), (0, .tick), (0, .logWrite 46), (0, .tick), (0, .tick)]
    (boot Log.nlog) := by
  have run : (exec 1 [(0, .beginOp), (0, .tick), (0, .tick), (0, .logWrite 46), (0, .tick),
    (0, .tick)] (boot Log.nlog)).isSome := by decide
  refine (reservation_iff (Option.some_get run).symm).1 ?_
  exact fun h => nomatch (h : none = some Panic.tooBigTransaction)

/-! ## Operations of one block less -/

/-- The blocks that process `p` may still log in an operation of `MAXOPBLOCKS - 1` blocks. -/
def spare (s : St) (p : Nat) : Nat :=
  if (s.proc p).pc.inOp then MAXOPBLOCKS - 1 - (s.used p).card else 0

theorem sum_spare_eq (hp : p < N) (h : ∀ q, q ≠ p → spare s' q = spare s q) :
    (∑ q ∈ Finset.range N, spare s' q) + spare s p = (∑ q ∈ Finset.range N, spare s q) +
      spare s' p := by
  have hmem : p ∈ Finset.range N := Finset.mem_range.2 hp
  have hrest : ∑ q ∈ (Finset.range N).erase p, spare s' q = ∑ q ∈ (Finset.range N).erase p,
      spare s q :=
    Finset.sum_congr rfl fun q hq => h q (Finset.ne_of_mem_erase hq)
  rw [← Finset.add_sum_erase _ _ hmem, ← Finset.add_sum_erase _ _ hmem, hrest]
  omega

theorem sum_spare_le (N : Nat) (s : St) :
    ∑ q ∈ Finset.range N, spare s q ≤ (MAXOPBLOCKS - 1) * ops N s.proc := by
  rw [ops, Finset.card_filter, Finset.mul_sum]
  refine Finset.sum_le_sum fun q _ => ?_
  unfold spare
  split <;> omega

/-- The log has room for what the outstanding operations may still log. -/
structure Reserved (N : Nat) (s : St) : Prop where
  grouped : Grouped s
  used : ∀ p, (s.proc p).pc.inOp → s.used p ⊆ s.group
  room : s.log.n + ∑ q ∈ Finset.range N, spare s q ≤ LOGSIZE - 2

namespace Reserved

theorem boot : Reserved N (boot Log.nlog) where
  grouped := .boot
  used _ hp := nomatch hp
  room := by simp [Protocol.boot, spare, Log.init, Log.n, Pc.inOp]

theorem of_le (h : Reserved N s) (hg : Grouped s')
    (hused : ∀ p, (s'.proc p).pc.inOp → s'.used p ⊆ s'.group)
    (hn : s'.log.n ≤ s.log.n) (hspare : ∀ q, spare s' q ≤ spare s q) : Reserved N s' := by
  have hsum : ∑ q ∈ Finset.range N, spare s' q ≤ ∑ q ∈ Finset.range N, spare s q :=
    Finset.sum_le_sum fun q _ => hspare q
  have := h.room
  exact ⟨hg, hused, by omega⟩

theorem beginOp (h : Reserved N s) (hi : Inv N s) (hp : p < N) (hg : Grouped s')
    (wait : s.log.mustWait = false) (log : s'.log = s.log.beginOp)
    (used : s'.used = update s.used p ∅)
    (group : s'.group = s.group) (old : (s.proc p).pc.inOp = false)
    (inOp : ∀ q, (s'.proc q).pc.inOp = if q = p then true else (s.proc q).pc.inOp) :
    Reserved N s' := by
  have hothers (q : Nat) (hq : q ≠ p) : spare s' q = spare s q := by
    rw [spare, spare, inOp, if_neg hq, used, update_of_ne hq]
  have hsum := sum_spare_eq hp hothers
  have hself : spare s' p = MAXOPBLOCKS - 1 := by
    rw [spare, inOp, if_pos rfl, if_pos rfl, used, update_self, Finset.card_empty, Nat.sub_zero]
  have hbefore : spare s p = 0 := by
    rw [spare, if_neg (by rw [old]; exact Bool.false_ne_true)]
  refine ⟨hg, fun q hq => ?_, ?_⟩
  · rw [used, group]
    rcases eq_or_ne q p with rfl | hne
    · rw [update_self]
      exact Finset.empty_subset _
    · rw [inOp, if_neg hne] at hq
      rw [update_of_ne hne]
      exact h.used q hq
  · obtain ⟨hcommit, hroom⟩ := Bool.or_eq_false_iff.1 wait
    have hroom := of_decide_eq_false hroom
    have hle := sum_spare_le N s
    rw [← hi.outstanding] at hle
    have hn : s'.log.n = s.log.n := by rw [log]; rfl
    -- an operation that is let in alone finds an empty log
    have hclean : s.log.outstanding = 0 → s.log.n = 0 := fun h0 => by
      rw [Log.n, hi.clean hcommit h0, length_nil]
    simp only [MAXOPBLOCKS, LOGSIZE] at *
    omega

theorem write {b : Nat} {new : Bool} (h : Reserved N s) (hp : p < N) (hg : Grouped s')
    (hinOp : (s.proc p).pc.inOp = true) (hb : Budget (MAXOPBLOCKS - 1) s p b)
    (log : s.log.write b = .ok (s'.log, new))
    (used : s'.used = update s.used p (insert b (s.used p)))
    (group : s'.group = insert b s.group) (inOp : ∀ q, (s'.proc q).pc.inOp = (s.proc q).pc.inOp) :
    Reserved N s' := by
  have hothers (q : Nat) (hq : q ≠ p) : spare s' q = spare s q := by
    rw [spare, spare, inOp, used, update_of_ne hq]
  have hself : spare s' p = MAXOPBLOCKS - 1 - (insert b (s.used p)).card := by
    rw [spare, inOp, if_pos hinOp, used, update_self]
  have hbefore : spare s p = MAXOPBLOCKS - 1 - (s.used p).card := if_pos hinOp
  have hused : ∀ q, (s'.proc q).pc.inOp → s'.used q ⊆ s'.group := by
    intro q hq
    rw [inOp] at hq
    rw [used, group]
    rcases eq_or_ne q p with rfl | hne
    · rw [update_self]
      exact Finset.insert_subset_insert _ (h.used q hq)
    · rw [update_of_ne hne]
      exact (h.used q hq).trans (Finset.subset_insert _ _)
  obtain ⟨-, -, -, ⟨-, hl, -⟩ | ⟨hnew, hl, -⟩⟩ := Log.write_ok log
  · refine h.of_le hg hused (by rw [hl]) fun q => ?_
    rcases eq_or_ne q p with rfl | hne
    · have := Finset.card_le_card (Finset.subset_insert b (s.used q))
      omega
    · exact (hothers q hne).le
  · -- a block that is new to the log is new to the operation
    have hfresh : b ∉ s.used p := fun hmem => by
      have := h.used p hinOp hmem
      rw [← h.grouped.group, mem_toFinset] at this
      exact hnew this
    have hn : s'.log.n = s.log.n + 1 := by
      rw [hl, Log.n, Log.n, length_append, length_singleton]
    have hsum := sum_spare_eq hp hothers
    have := h.room
    rw [Budget, Finset.card_insert_of_notMem hfresh] at hb
    rw [Finset.card_insert_of_notMem hfresh] at hself
    exact ⟨hg, hused, by omega⟩

theorem step (h : Reserved N s) (hi : Inv N s) (hw : AtWrite (Budget (MAXOPBLOCKS - 1)) s p a)
    (hs : Protocol.step N s p a = some s') : Reserved N s' := by
  have hg := h.grouped.step hs
  cases LogStep.step hs with
  | quiet panic log used group inOp =>
    refine h.of_le hg (fun q hq => ?_) (by rw [Log.n, log.2, Log.n]) fun q => ?_
    · rw [used, group]
      exact h.used q (inOp q ▸ hq)
    · rw [spare, spare, inOp, used]
  | beginOp panic wait log used group old inOp =>
    exact h.beginOp hi (lt_of_step hs) hg wait log used group old inOp
  | write b new panic act pc log used group inOp =>
    subst act
    simp only [AtWrite, pc] at hw
    exact h.write (lt_of_step hs) hg (by rw [pc]; rfl) hw log used group inOp
  | endOp panic log used group inOp =>
    refine h.of_le hg (fun q hq => ?_) (by rw [Log.n, log.2, Log.n]) fun q => ?_
    · rw [inOp] at hq
      rw [used, group]
      split at hq
      · cases hq
      · exact h.used q hq
    · rw [spare, spare, inOp, used]
      split
      · exact Nat.zero_le _
      · exact le_rfl
  | clear panic pc log used group inOp =>
    -- nobody is between `begin_op` and `end_op` during a commit
    have hidle (q : Nat) : (s'.proc q).pc.inOp = false := by
      rw [inOp]
      by_contra hq
      rw [Bool.not_eq_false] at hq
      have hc := hi.committing p (by rw [pc]; rfl)
      rw [hi.not_committing (hi.lt_of_inOp hq) hq] at hc
      cases hc
    refine h.of_le hg (fun q hq => ?_) (by rw [log]; exact Nat.zero_le _) fun q => ?_
    · rw [hidle] at hq
      cases hq
    · rw [spare, hidle]
      exact Nat.zero_le _
  | halt e act state why =>
    rw [state] at hg ⊢
    exact ⟨hg, h.used, h.room⟩

theorem allWrites (h : Reserved N s) (hi : Inv N s)
    (hw : AllWrites (Budget (MAXOPBLOCKS - 1)) N sched s) : AllWrites Fits N sched s := by
  induction sched generalizing s with
  | nil => trivial
  | cons x sched ih =>
    obtain ⟨p, a⟩ := x
    rw [AllWrites] at hw ⊢
    refine ⟨?_, ?_⟩
    · unfold AtWrite
      split
      · have := h.room
        rw [Fits, h.grouped.card]
        simp only [LOGSIZE, MAXOPBLOCKS] at this ⊢
        omega
      · trivial
    · cases hs : Protocol.step N s p a with
      | none => trivial
      | some s' =>
        rw [hs] at hw
        exact ih (h.step hi hw.1 hs) (hi.step hs) hw.2

end Reserved

/-- Operations that log at most `MAXOPBLOCKS - 1` distinct blocks never meet the panic of
`log_write`. -/
theorem reservation_of_lt (hs : exec N sched (boot Log.nlog) = some s)
    (hw : AllWrites (Budget (MAXOPBLOCKS - 1)) N sched (boot Log.nlog)) :
    s.panic ≠ some .tooBigTransaction :=
  (exec_fits .boot nofun hs).2 (Reserved.boot.allWrites (.boot N _) hw)

section
variable {C : St → Nat → Nat → Prop} [∀ s p b, Decidable (C s p b)]

instance : Decidable (AtWrite C s p a) := by
  unfold AtWrite
  split <;> infer_instance

instance AllWrites.decidable {N : Nat} : ∀ sched s, Decidable (AllWrites C N sched s)
  | [], _ => .isTrue trivial
  | (p, a) :: sched, s =>
    have : Decidable (match step N s p a with
      | some s' => AllWrites C N sched s'
      | none => True) :=
      match step N s p a with
      | some s' => AllWrites.decidable sched s'
      | none => .isTrue trivial
    inferInstanceAs (Decidable (_ ∧ _))

end

instance : Decidable (Budget m s p b) := inferInstanceAs (Decidable (_ ≤ _))

/-- Three operations are let in together, and each logs `MAXOPBLOCKS` blocks of its own. -/
def threeOps : List (Nat × Act) :=
  ([0, 1, 2].flatMap fun p => [(p, .beginOp), (p, .tick), (p, .tick)]) ++
  [0, 1, 2].flatMap fun p => (range MAXOPBLOCKS).flatMap fun i =>
    [(p, .logWrite (100 + MAXOPBLOCKS * p + i)), (p, .tick), (p, .tick)]

theorem threeOps_tooBig : AllWrites (Budget MAXOPBLOCKS) 3 threeOps (boot Log.nlog) ∧
    (exec 3 threeOps (boot Log.nlog)).map (·.panic) = some (some .tooBigTransaction) := by
  decide +kernel

end Xv6.Protocol
