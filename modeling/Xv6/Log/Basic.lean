import Xv6.Basic
import Mathlib.Data.List.Basic

/-!
# The in-memory log

`struct log` of `kernel/log.c` without its lock, and the critical sections that `begin_op`,
`log_write`, `end_op` and `commit` execute on it. The header `log.lh` is the list
`log.lh.block[0 .. log.lh.n)`. The lock, the sleeping and the disk belong to the machines that
execute these sections.
-/

namespace Xv6

structure Log where
  size : Nat
  outstanding : Nat
  committing : Bool
  block : List Nat
  deriving DecidableEq, Repr

namespace Log

/-- `nlog` of `mkfs/mkfs.c`, the number of log blocks that `initlog` finds in the superblock. -/
def nlog : Nat := LOGSIZE

/-- The log after `initlog`: nothing is outstanding and the header is empty. -/
def init (size : Nat) : Log := ⟨size, 0, false, []⟩

def n (l : Log) : Nat := l.block.length

/-- The two conditions under which `begin_op` sleeps. -/
def mustWait (l : Log) : Bool :=
  l.committing || decide (LOGSIZE < l.n + (l.outstanding + 1) * MAXOPBLOCKS)

def beginOp (l : Log) : Log := { l with outstanding := l.outstanding + 1 }

/-- The critical section of `log_write` for block `b`: the new header, and whether the block is
new to it and has to be pinned. A block that is already logged is absorbed. -/
def write (l : Log) (b : Nat) : Except Panic (Log × Bool) :=
  if LOGSIZE ≤ l.n ∨ l.size - 1 ≤ l.n then .error .tooBigTransaction
  else if l.outstanding < 1 then .error .logWriteOutsideTrans
  else if b ∈ l.block then .ok (l, false)
  else .ok ({ l with block := l.block ++ [b] }, true)

/-- The first critical section of `end_op`, up to the call of `wakeup`; `true` if the caller
has to commit. -/
def endOp (l : Log) : Except Panic (Log × Bool) :=
  if l.committing then .error .logCommitting
  else if l.outstanding - 1 = 0 then
    .ok ({ l with outstanding := l.outstanding - 1, committing := true }, true)
  else .ok ({ l with outstanding := l.outstanding - 1 }, false)

def clear (l : Log) : Log := { l with block := [] }

def commitDone (l : Log) : Log := { l with committing := false }

/-- The header after a `log_write` of block `b`. -/
def add (l : Log) (b : Nat) : Log := if b ∈ l.block then l else { l with block := l.block ++ [b] }

@[simp] theorem add_outstanding (l : Log) (b : Nat) : (l.add b).outstanding = l.outstanding := by
  unfold add
  split <;> rfl

@[simp] theorem mem_add {l : Log} {b c : Nat} : c ∈ (l.add b).block ↔ c ∈ l.block ∨ c = b := by
  unfold add
  split
  · rename_i h
    exact ⟨.inl, fun hc => hc.elim id fun e => e ▸ h⟩
  · simp

theorem write_ok {l l' : Log} {new : Bool} (h : l.write b = .ok (l', new)) :
    l.n < LOGSIZE ∧ l.n < l.size - 1 ∧ 1 ≤ l.outstanding ∧
      ((b ∈ l.block ∧ l' = l ∧ new = false) ∨
        (b ∉ l.block ∧ l' = { l with block := l.block ++ [b] } ∧ new = true)) := by
  unfold write at h
  split at h
  · cases h
  · split at h
    · cases h
    · refine ⟨by omega, by omega, by omega, ?_⟩
      split at h <;> rename_i hb <;> cases h
      · exact .inl ⟨hb, rfl, rfl⟩
      · exact .inr ⟨hb, rfl, rfl⟩

theorem write_tooBig {l : Log} :
    l.write b = .error .tooBigTransaction ↔ LOGSIZE ≤ l.n ∨ l.size - 1 ≤ l.n := by
  unfold write
  split
  · rename_i h; exact ⟨fun _ => h, fun _ => rfl⟩
  · rename_i h
    refine ⟨fun hw => ?_, fun hw => absurd hw h⟩
    split at hw
    · cases hw
    · split at hw <;> cases hw

theorem write_error {l : Log} {e : Panic} (h : l.write b = .error e) :
    e = .tooBigTransaction ∨ e = .logWriteOutsideTrans ∧ l.outstanding < 1 := by
  unfold write at h
  split at h
  · cases h; exact .inl rfl
  · split at h
    · rename_i ho
      cases h; exact .inr ⟨rfl, ho⟩
    · split at h <;> cases h

theorem endOp_error {l : Log} {e : Panic} (h : l.endOp = .error e) : e = .logCommitting := by
  unfold endOp at h
  split at h
  · cases h; rfl
  · split at h <;> cases h

theorem endOp_ok {l l' : Log} {commit : Bool} (h : l.endOp = .ok (l', commit)) :
    l.committing = false ∧ commit = decide (l.outstanding - 1 = 0) ∧
      l' = { l with outstanding := l.outstanding - 1, committing := commit } := by
  obtain ⟨size, outstanding, committing, block⟩ := l
  unfold endOp at h
  split at h
  · cases h
  · rename_i hc
    simp only [Bool.not_eq_true] at hc
    split at h <;> rename_i ho <;> cases h <;> simp_all

end Log

end Xv6
