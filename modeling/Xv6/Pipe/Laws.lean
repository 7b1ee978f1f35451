import Xv6.Pipe.Calls

/-!
# What holds of a pipe in every run

`fifo`: the bytes stored to the memory of readers, followed by those in the pipe, are the bytes
accepted, as long as no copy of `piperead` fails; a byte whose copy fails is gone. `eof_exact`:
until then, `piperead` returns 0 at the end of the stream only. `no_idle_sleep`: who sleeps on a
pipe has to, unless a writer that is killed after it stored bytes returns without its
`wakeup(&pi->nread)`.
-/

namespace Xv6.Pipe

open Lib Function List

variable {guard : Slot → Op → St → Prop} {W : Prop} {c₀ c : Config iface St Slot}

theorem Call.safe (alert : W → ∀ p o s, guard p o s → Alert p o s) {p : Slot} {s : St}
    {x : Code Unit} (hx : Call x) (h : s.lock ≠ some p) :
    Safe (outline guard W) p (fun _ s' => s'.lock ≠ some p) x s := by
  cases hx with
  | read => exact (piperead_safe h).bind fun _ _ h => h.free
  | write => exact (pipewrite_safe alert h).bind fun _ _ h => h
  | close => exact pipeclose_safe h

theorem Start.good (h : Start c₀) : c₀.Good (outline guard W) := by
  obtain ⟨⟨data, hpipe⟩, lock, awake, accepted, stored, failed⟩ := h.st
  have hlen : c₀.st.pipe.length = 0 := by rw [hpipe]; exact Ring.length_self
  refine ⟨⟨by simp [hlen], fun _ => ⟨⟨?_, fun _ => ?_⟩, ?_, ?_⟩⟩, fun p => ?_⟩
  · simp [hlen, accepted, stored, failed]
  · have : c₀.st.pipe.contents = [] := eq_nil_of_length_eq_zero (by
      rw [Pipe.contents, Ring.length_contents]; exact hlen)
    simp [accepted, stored, this]
  · exact fun _ q hq => absurd hq (awake q _)
  · exact fun _ q hq => absurd hq (awake q _)
  · rw [h.prog p]
    change c₀.st.lock ≠ some p
    simp [lock]

theorem Start.reaches_good (alert : W → ∀ p o s, guard p o s → Alert p o s) (h : Start c₀)
    (hr : (system guard).Reaches c₀ c) : c.Good (outline guard W) :=
  Config.Good.reaches (fun hx _ hi => Call.safe alert hx hi) h.good hr

theorem Start.reaches (alert : W → ∀ p o s, guard p o s → Alert p o s) (h : Start c₀)
    (hr : (system guard).Reaches c₀ c) : Inv W c.st :=
  (h.reaches_good alert hr).inv

/-! ## Schedules -/

/-- Processes that all run, with address space `m`, around a new pipe. -/
def fresh (m : UserMem) : Config iface St Slot :=
  ⟨⟨.new fun _ => 0, none, fun _ => { Proc.zero with state := .running }, fun _ => m, [],
    [], 0, false⟩, fun _ => .ret ()⟩

theorem fresh_start (m : UserMem) : Start (fresh m) :=
  ⟨⟨⟨_, rfl⟩, rfl, fun _ _ hs => (nomatch hs.1), rfl, rfl, rfl⟩, fun _ => rfl⟩

/-- Page 0 is mapped and zero. -/
def onePage : UserMem := ⟨fun pg => pg = 0, fun _ => 0⟩

abbrev reader : Slot := ⟨1, one_lt_nproc⟩
abbrev writer : Slot := ⟨2, by decide⟩

/-- A reader that goes to sleep. -/
def sleepyReader : List (Move iface St Slot) :=
  [.start reader do let _ ← piperead 2 0 1] ++ replicate 4 (.op reader)

/-- The reader goes to sleep; a writer stores a byte, is killed, and returns. -/
def killedWriter : List (Move iface St Slot) :=
  sleepyReader ++ [.start writer do let _ ← pipewrite 3 0 2] ++ replicate 5 (.op writer) ++
  [.env fun s => some { s with proc := update s.proc writer (s.proc writer).kill }] ++
  replicate 3 (.op writer)

/-- A writer stores one byte; a reader takes it out for an address that is not mapped. -/
def unmappedReader : List (Move iface St Slot) :=
  [.start writer do let _ ← pipewrite 2 0 1] ++ replicate 70 (.op writer) ++
  [.start reader do let _ ← piperead 1 PGSIZE 1] ++ replicate 70 (.op reader)

theorem legal_of_mem {m : Move iface St Slot}
    (hm : m ∈ killedWriter ∨ m ∈ unmappedReader) : m.Legal (system guard) := by
  simp only [killedWriter, sleepyReader, unmappedReader, mem_append, mem_singleton,
    mem_replicate] at hm
  rcases hm with (((((rfl | ⟨-, rfl⟩) | rfl) | ⟨-, rfl⟩) | rfl) | ⟨-, rfl⟩) |
    (((rfl | ⟨-, rfl⟩) | rfl) | ⟨-, rfl⟩)
  · exact fun _ => .read 2 0 1
  · trivial
  · exact fun _ => .write 3 0 2
  · trivial
  · rintro s _ ⟨⟩
    exact .kill s writer
  · trivial
  · exact fun _ => .write 2 0 1
  · trivial
  · exact fun _ => .read 1 PGSIZE 1
  · trivial

theorem reaches_of_play (ms : List (Move iface St Slot)) (allow : Slot → Op → St → Bool)
    {P : Config iface St Slot → Prop} [DecidablePred P]
    (hms : ∀ m ∈ ms, m ∈ killedWriter ∨ m ∈ unmappedReader)
    (hallow : ∀ p o s, allow p o s = true → guard p o s)
    (h : (ms.foldlM (Move.play exec allow) (fresh onePage)).any (fun c => decide (P c)) = true) :
    ∃ c, (system guard).Reaches (fresh onePage) c ∧ P c := by
  obtain ⟨c, hc, hd⟩ := (Option.any_eq_true _ _).1 h
  exact ⟨c, Move.Legal.reaches (S := system guard) (fun m hm => legal_of_mem (hms m hm)) hallow hc,
    of_decide_eq_true hd⟩

/-! ## The bytes -/

/-- What readers got and what is in the pipe is what writers put in, in order. -/
def Fifo (s : St) : Prop := s.stored ++ s.pipe.contents = s.accepted

instance (s : St) : Decidable (Fifo s) := inferInstanceAs (Decidable (_ = _))

theorem Ledger.fifo_iff {s : St} (h : Ledger [] s) : Fifo s ↔ s.failed = 0 := by
  constructor
  · intro hf
    have hl := congrArg List.length hf
    have hc := h.count
    rw [List.length_append, Pipe.contents, Ring.length_contents] at hl
    simp only [List.length_nil, Pipe.length] at hc
    omega
  · intro hf
    simpa [Fifo] using h.exact hf

/-- `piperead` copies only to mapped addresses. -/
def Mapped (p : Slot) : Op → St → Prop
  | .copyout va _, s => (s.mem p).walkaddr (va / PGSIZE * PGSIZE) = true
  | _, _ => True

theorem copyout_mapped {m : UserMem} {va : Nat} (ch : UInt8)
    (h : m.walkaddr (va / PGSIZE * PGSIZE) = true) : (m.copyout 1 va [ch]).1 = true := by
  have hva : va - va / PGSIZE * PGSIZE < PGSIZE := by simp only [PGSIZE]; omega
  obtain ⟨n, hn⟩ := Nat.exists_eq_add_one_of_ne_zero (Nat.sub_ne_zero_of_lt hva)
  simp [UserMem.copyout, h, hn]

/-- While every copy goes to a mapped address, none fails. -/
theorem failed_eq_zero (h : Start c₀) (hr : (system Mapped).Reaches c₀ c) : c.st.failed = 0 := by
  induction hr with
  | refl => exact h.st.failed
  | tail _ hs ih =>
    cases hs with
    | @op p o k r s' _ allowed he =>
      have hstep := (exec_ok he).2
      rw [← ih]
      cases o with
      | copyout va ch =>
        have hok := copyout_mapped ch allowed
        simp only [step] at hstep
        split at hstep
        · cases hstep; rfl
        · rename_i hf
          rw [hf] at hok
          cases hok
      | acquire | release | copyin | sleep | wakeup =>
        simp only [step] at hstep
        repeat' split at hstep
        all_goals (cases hstep; try rfl)
      | close writable => cases writable <;> (cases hstep; rfl)
      | pipe | killed | put | take | awake => cases hstep; rfl
      | stop => cases hstep
    | start => exact ih
    | env he => rw [← ih]; exact (Kept.env he).failed

/-- A pipe is a FIFO of at most `PIPESIZE` bytes in every run in which `piperead` copies to mapped
addresses only; in any run it is one as long as no copy of `piperead` has failed, and no longer. -/
theorem fifo (h : Start c₀) :
    (∀ c, (system Mapped).Reaches c₀ c →
      c.st.pipe.length ≤ PIPESIZE ∧ (c.st.lock = none → Fifo c.st)) ∧
    ∀ c, (system fun _ _ _ => True).Reaches c₀ c →
      c.st.pipe.length ≤ PIPESIZE ∧ (c.st.lock = none → (Fifo c.st ↔ c.st.failed = 0)) := by
  refine ⟨fun c hr => ?_, fun c hr => ?_⟩
  · have hI := h.reaches (W := False) nofun hr
    exact ⟨hI.length_le, fun hl => (hI.quiet hl).ledger.fifo_iff.2 (failed_eq_zero h hr)⟩
  · have hI := h.reaches (W := False) nofun hr
    exact ⟨hI.length_le, fun hl => (hI.quiet hl).ledger.fifo_iff⟩

theorem fifo_fresh :
    (∀ c, (system Mapped).Reaches (fresh onePage) c →
      c.st.pipe.length ≤ PIPESIZE ∧ (c.st.lock = none → Fifo c.st)) ∧
    ∀ c, (system fun _ _ _ => True).Reaches (fresh onePage) c →
      c.st.pipe.length ≤ PIPESIZE ∧ (c.st.lock = none → (Fifo c.st ↔ c.st.failed = 0)) :=
  fifo (fresh_start onePage)

/-- The byte is neither in the reader's memory nor in the pipe. -/
theorem unmapped_reader_loses_byte :
    ∃ c₀ c, Start c₀ ∧ (system fun _ _ _ => True).Reaches c₀ c ∧ c.st.lock = none ∧
      c.st.accepted = [0] ∧ c.st.stored = [] ∧ c.st.pipe.nread = c.st.pipe.nwrite ∧ ¬Fifo c.st := by
  refine ⟨fresh onePage, ?_⟩
  have := reaches_of_play (P := fun c => c.st.lock = none ∧ c.st.accepted = [0] ∧ c.st.stored = [] ∧
    c.st.pipe.nread = c.st.pipe.nwrite ∧ ¬Fifo c.st) unmappedReader
    (fun _ _ _ => true) (fun _ => .inr) (fun _ _ _ _ => trivial) (by decide +kernel)
  obtain ⟨c, hr, hc⟩ := this
  exact ⟨c, fresh_start onePage, hr, hc⟩

/-! ## The end of the stream -/

/-- `piperead` that is asked for bytes and returns 0 in some run. -/
theorem Start.returned (acquire : ∀ p s, guard p .acquire s) (h : Start c₀)
    {c' : Config iface St Slot}
    {p : Slot} {k : Int → Code Unit} {fuel addr : Nat} {n r : Int}
    (hr : (system guard).Reaches c₀ c)
    (ret : (system guard).Returns p k (piperead fuel addr n) c r c') : Returned p n r c'.st := by
  have good := h.reaches_good (W := False) nofun hr
  have free : c.st.lock ≠ some p := good.pre ret.prog_eq (acquire p c.st)
  exact good.returns (fun hx _ hi => Call.safe nofun hx hi) ret (piperead_safe free)

/-- In every run in which `piperead` copies to mapped addresses only, a `piperead` that is asked for
bytes returns 0 only when the write end is closed and the readers got every byte that was written;
in any run this is so as long as no copy of `piperead` has failed, and no longer. -/
theorem eof_exact (h : Start c₀) :
    (∀ c p k fuel addr n c', (system Mapped).Reaches c₀ c →
      (system Mapped).Returns p k (piperead fuel addr n) c 0 c' → 0 < n → Eof c'.st) ∧
    ∀ c p k fuel addr n c', (system fun _ _ _ => True).Reaches c₀ c →
      (system fun _ _ _ => True).Returns p k (piperead fuel addr n) c 0 c' → 0 < n →
      (Eof c'.st ↔ c'.st.failed = 0) := by
  constructor
  · intro c p k fuel addr n c' hr ret hn
    have returned := h.returned (fun _ _ => trivial) hr ret
    exact (returned.eof hn rfl).2 (failed_eq_zero h (hr.trans ret.reaches))
  · intro c p k fuel addr n c' hr ret hn
    exact (h.returned (fun _ _ => trivial) hr ret).eof hn rfl

theorem eof_exact_fresh :
    (∀ c p k fuel addr n c', (system Mapped).Reaches (fresh onePage) c →
      (system Mapped).Returns p k (piperead fuel addr n) c 0 c' → 0 < n → Eof c'.st) ∧
    ∀ c p k fuel addr n c', (system fun _ _ _ => True).Reaches (fresh onePage) c →
      (system fun _ _ _ => True).Returns p k (piperead fuel addr n) c 0 c' → 0 < n →
      (Eof c'.st ↔ c'.st.failed = 0) :=
  eof_exact (fresh_start onePage)

/-- The reader is idle, the pipe holds a byte, and `piperead(pi, PGSIZE, 1)` returns 0 without it,
with the write end open. -/
def misled (c : Config iface St Slot) : Bool :=
  match c.prog reader, (piperead 1 PGSIZE 1).run (exec reader) c.st with
  | .ret _, .ok (r, s) =>
    c.st.pipe.contents = [0] ∧ r = 0 ∧ s.pipe.writeopen = true ∧ s.accepted = [0] ∧ s.stored = []
  | _, _ => false

/-- A reader that asks for one byte at an address that is not mapped is told that the stream has
ended, with the write end open and a byte in the pipe. -/
theorem unmapped_reader_sees_eof :
    ∃ c₀ c c', Start c₀ ∧ (system fun _ _ _ => True).Reaches c₀ c ∧
      (system fun _ _ _ => True).Returns reader (fun _ => .ret ()) (piperead 1 PGSIZE 1) c 0 c' ∧
      c.st.pipe.contents = [0] ∧ c'.st.pipe.writeopen = true ∧ c'.st.accepted = [0] ∧
      c'.st.stored = [] := by
  obtain ⟨c, hr, hc⟩ : ∃ c, (system fun _ _ _ => True).Reaches (fresh onePage) c ∧
      misled c = true :=
    reaches_of_play (unmappedReader.take 71) (fun _ _ _ => true)
      (fun _ hm => .inr (mem_of_mem_take hm)) (fun _ _ _ _ => trivial) (by decide +kernel)
  unfold misled at hc
  split at hc
  · rename_i _ r s idle run
    obtain ⟨held, rfl, hopen, accepted, stored⟩ := of_decide_eq_true hc
    have called := hr.tail (.start (p := reader) idle (.read 1 PGSIZE 1))
    exact ⟨_, _, _, fresh_start onePage, called,
      .of_run (fun _ _ => trivial) (update_self reader _ c.prog) run, held, hopen, accepted, stored⟩
  · cases hc

/-! ## The sleepers -/

/-- In every run in which no writer is killed between storing bytes and its `wakeup` while a reader
sleeps, readers sleep only on an empty pipe that can still be written and writers only on a full one
that can still be read. -/
theorem no_idle_sleep (h : Start c₀) (hr : (system Alert).Reaches c₀ c) (lock : c.st.lock = none) :
    (∀ q, (c.st.proc q).Sleeps .nread → c.st.pipe.nread = c.st.pipe.nwrite ∧
      c.st.pipe.writeopen = true) ∧
    ∀ q, (c.st.proc q).Sleeps .nwrite → c.st.pipe.length = PIPESIZE ∧
    c.st.pipe.readopen = true := by
  have hq := (h.reaches (W := True) (fun _ _ _ _ => id) hr).quiet lock
  refine ⟨hq.readers trivial, fun q hs => ?_⟩
  obtain ⟨full, hopen⟩ := hq.writers trivial q hs
  exact ⟨full_iff.1 full, hopen⟩

/-- A reader that sleeps on a new pipe. -/
theorem no_idle_sleep_reader :
    ∃ c, (system Alert).Reaches (fresh onePage) c ∧ (c.st.proc reader).Sleeps .nread ∧
      c.st.pipe.nread = c.st.pipe.nwrite ∧ c.st.pipe.writeopen = true := by
  have hallow : ∀ p o s, (!s.fresh) = true → Alert p o s := by
    intro p o s h
    cases o <;> simp_all [Alert]
  obtain ⟨c, hr, lock, hs⟩ := reaches_of_play (P := fun c => c.st.lock = none ∧
    (c.st.proc reader).Sleeps .nread) sleepyReader (fun _ _ s => !s.fresh)
    (fun m hm => .inl (by simp [killedWriter, hm])) hallow (by decide)
  exact ⟨c, hr, hs, (no_idle_sleep (fresh_start onePage) hr lock).1 reader hs⟩

/-- The reader is left asleep on a pipe that holds a byte and whose write end is open. -/
theorem killed_writer_leaves_reader_asleep :
    ∃ c₀ c, Start c₀ ∧ (system fun _ _ _ => True).Reaches c₀ c ∧ c.st.lock = none ∧
      (c.st.proc reader).Sleeps .nread ∧ c.st.pipe.nread ≠ c.st.pipe.nwrite ∧
      c.st.pipe.writeopen = true := by
  refine ⟨fresh onePage, ?_⟩
  have := reaches_of_play (P := fun c => c.st.lock = none ∧ (c.st.proc reader).Sleeps .nread ∧
    c.st.pipe.nread ≠ c.st.pipe.nwrite ∧ c.st.pipe.writeopen = true) killedWriter
    (fun _ _ _ => true) (fun _ => .inl) (fun _ _ _ _ => trivial) (by decide)
  obtain ⟨c, hr, hc⟩ := this
  exact ⟨c, fresh_start onePage, hr, hc⟩

end Xv6.Pipe
