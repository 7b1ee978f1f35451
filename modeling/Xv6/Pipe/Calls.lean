import Xv6.Pipe.Outline

/-!
# The calls of the pipe code

`pipeclose`, `piperead` and `pipewrite` follow the outline: one rule for each of `acquire`,
`release`, `sleep` and `wakeup`, and from them one for each call.
-/

namespace Xv6.Pipe

open Lib Function List

variable {guard : Slot → Op → St → Prop} {W : Prop} {p : Slot} {s : St}

/-- An assertion of a process that holds the lock. -/
structure Hold (p : Slot) (A : St → Prop) : Prop where
  lock : ∀ s, A s → s.lock = some p
  kept : ∀ s s', Kept s s' → A s → A s'

variable {A : St → Prop} {α : Type}

theorem Hold.call {Q : α → St → Prop} {o : Op} {k : iface.Res o → Code α}
    (hold : Hold p A) (hA : A s) (pre : ∀ s, A s → Pre W p o s)
    (next : ∀ s r s', s.pipe.length ≤ PIPESIZE → guard p o s → A s →
      (s.proc p).state = .running → step p o s = .ok (r, s') →
      Safe (outline guard W) p Q (k r) s') :
    Safe (outline guard W) p Q (.call o k) s := by
  refine Safe.call hA (fun s s' hR h => hold.kept s s' (hR.held (hold.lock s h)) h)
    (fun s _ _ h => pre s h) fun s r s' hI _ hg h he => ?_
  obtain ⟨hrun, hstep⟩ := exec_ok he
  exact next s r s' hI.length_le hg h hrun hstep

/-- Having just acquired the lock. -/
structure Owns (W : Prop) (p : Slot) (s : St) : Prop where
  lock : s.lock = some p
  fresh : s.fresh = false
  quiet : Quiet W s

theorem acquire_safe (h : s.lock ≠ some p) :
    Safe (outline guard W) p (fun _ => Owns W p) (op .acquire) s := by
  refine Safe.call (G := outline guard W) (o := Op.acquire) (A := fun s => s.lock ≠ some p) h
    (fun _ _ hR => hR.free)
    (fun _ _ _ h => h) fun s r s' hI _ _ _ he => ?_
  have hstep := (exec_ok he).2
  simp only [step] at hstep
  split at hstep
  · cases hstep
    have hq := hI.quiet ‹_›
    exact ⟨rfl, rfl, ⟨hq.ledger.count, hq.ledger.exact⟩, hq.readers, hq.writers⟩
  · split at hstep <;> cases hstep

theorem Hold.quiet : Hold p fun s => s.lock = some p ∧ Quiet W s :=
  ⟨fun _ h => h.1, fun _ _ hk h => ⟨hk.lock.trans h.1, hk.quiet h.2⟩⟩

/-- The lock was let go of in a state with `A`. -/
def Left (A : St → Prop) (s : St) : Prop := ∃ s₁, A s₁ ∧ s = { s₁ with lock := none }

theorem Left.free (h : Left A s) : s.lock ≠ some p := by
  obtain ⟨s₁, -, rfl⟩ := h
  exact nofun

theorem Hold.release (hold : Hold p A) (hA : A s) (quiet : ∀ s, A s → Quiet W s) :
    Safe (outline guard W) p (fun _ => Left A) (op .release) s := by
  refine hold.call hA (fun s h => ⟨hold.lock s h, quiet s h⟩) fun s r s' _ _ h _ he => ?_
  simp only [step, if_pos (hold.lock s h)] at he
  cases he
  exact ⟨s, h, rfl⟩

theorem release_safe (lock : s.lock = some p) (quiet : Quiet W s) :
    Safe (outline guard W) p (fun _ s' => s'.lock ≠ some p) (op .release) s :=
  (Hold.quiet.release ⟨lock, quiet⟩ fun _ h => h.2).mono fun _ _ h => h.free

/-- Who goes to sleep here finds what it waits for missing. -/
def Waits (chan : Chan) (s : St) : Prop :=
  match chan with
  | .nread => s.pipe.Empty ∧ s.pipe.writeopen = true
  | .nwrite => s.pipe.Full ∧ s.pipe.readopen = true

theorem sleep_safe (chan : Chan) (lock : s.lock = some p) (quiet : Quiet W s)
    (waits : Waits chan s) :
    Safe (outline guard W) p (fun _ => Owns W p) (sleep chan) s := by
  have hold : Hold p fun s => s.lock = some p ∧ Quiet W s ∧ Waits chan s := by
    refine ⟨fun _ h => h.1, fun _ _ hk h => ⟨hk.lock.trans h.1, hk.quiet h.2.1, ?_⟩⟩
    unfold Waits at h ⊢
    rw [hk.pipe]
    exact h.2.2
  refine hold.call (o := .sleep chan) ⟨lock, quiet, waits⟩
    (fun s h => by cases chan <;> exact h) fun s r s' _ _ h _ he => ?_
  have hlock' : s'.lock ≠ some p := by
    simp only [step, if_pos h.1] at he
    cases he
    simp
  refine Safe.call (A := fun s => s.lock ≠ some p) hlock' (fun s s' hR => hR.free)
    (fun _ _ _ _ => trivial) fun s r s' _ _ _ h he => ?_
  have hstep := (exec_ok he).2
  cases hstep
  exact acquire_safe h

variable {chan : Chan}

theorem wakeupFrom_safe (hold : Hold p A) {qs : List Slot} (hA : A s)
    (done : ∀ q, q ∉ qs → ¬(s.proc q).Sleeps chan) :
    Safe (outline guard W) p (fun _ s' => A s' ∧ ∀ q, ¬(s'.proc q).Sleeps chan)
      (wakeupFrom chan qs) s := by
  induction qs generalizing s with
  | nil => exact ⟨hA, fun q => done q (not_mem_nil)⟩
  | cons q qs ih =>
    have hold' : Hold p fun s => A s ∧ ∀ q', q' ∉ q :: qs → ¬(s.proc q').Sleeps chan :=
      ⟨fun s h => hold.lock s h.1, fun s s' hk h =>
        ⟨hold.kept s s' hk h.1, fun q' hq' hs => h.2 q' hq' (hk.sleeps q' chan hs)⟩⟩
    refine hold'.call (o := .wakeup q chan) ⟨hA, done⟩ (fun _ _ => trivial)
      fun s r s' _ _ ⟨hA, done⟩ hrun he => ?_
    simp only [step] at he
    split at he
    · cases he
      rename_i hq
      subst hq
      refine ih hA fun q' hq' => ?_
      by_cases e : q' = q
      · exact e ▸ Proc.not_sleeps_of_running hrun
      · exact done q' (by simp [e, hq'])
    · cases he
      have hk := Kept.wakeup s q chan
      refine ih (hold.kept _ _ hk hA) fun q' hq' hs => ?_
      change (update s.proc q _ q').Sleeps chan at hs
      rcases eq_or_ne q' q with rfl | hne
      · rw [update_self] at hs
        exact Proc.not_sleeps_wakeup _ _ hs
      · rw [update_of_ne hne] at hs
        exact done q' (by simp [hne, hq']) hs

theorem wakeup_safe (hold : Hold p A) (hA : A s) (chan : Chan) :
    Safe (outline guard W) p (fun _ s' => A s' ∧ ∀ q, ¬(s'.proc q).Sleeps chan) (wakeup chan) s :=
  wakeupFrom_safe hold hA fun q hq => absurd (mem_finRange q) hq

/-! ## `pipeclose` -/

/-- Holding the lock, with the laws of the sleepers on all channels but `chan`. -/
structure Mending (W : Prop) (p : Slot) (chan : Chan) (s : St) : Prop where
  lock : s.lock = some p
  ledger : Ledger [] s
  readers : W → chan ≠ .nread → Readers s
  writers : W → chan ≠ .nwrite → Writers s

theorem Hold.mending : Hold p (Mending W p chan) :=
  ⟨fun _ h => h.lock, fun _ _ hk h => ⟨hk.lock.trans h.lock, hk.ledger h.ledger,
    fun w hc => hk.readers (h.readers w hc), fun w hc => hk.writers (h.writers w hc)⟩⟩

/-- With nobody left asleep on `chan` all laws hold. -/
theorem Mending.quiet (h : Mending W p chan s) (gone : ∀ q, ¬(s.proc q).Sleeps chan) :
    Quiet W s := by
  refine ⟨h.ledger, fun w => ?_, fun w => ?_⟩
  · by_cases hc : chan = .nread
    · exact fun q hq => absurd (hc ▸ hq) (gone q)
    · exact h.readers w hc
  · by_cases hc : chan = .nwrite
    · exact fun q hq => absurd (hc ▸ hq) (gone q)
    · exact h.writers w hc

/-- The common end of the calls: `wakeup(chan); release(&pi->lock)`. -/
theorem Hold.mend (hold : Hold p A) (chan : Chan) {a : α} (hA : A s)
    (mending : ∀ s, A s → Mending W p chan s) :
    Safe (outline guard W) p (fun b s' => b = a ∧ Left A s')
    (do wakeup chan; op .release; pure a) s := by
  have hold' : Hold p fun s => A s ∧ Quiet W s :=
    ⟨fun s h => hold.lock s h.1, fun s s' hk h => ⟨hold.kept s s' hk h.1, hk.quiet h.2⟩⟩
  refine (wakeup_safe hold hA chan).bind fun _ s ⟨hA, gone⟩ => ?_
  refine (hold'.release ⟨hA, (mending s hA).quiet gone⟩ fun _ h => h.2).bind
    fun _ s' ⟨s₁, h, he⟩ => ?_
  exact ⟨rfl, s₁, h.1, he⟩

theorem mend_safe (chan : Chan) {a : α} (h : Mending W p chan s) :
    Safe (outline guard W) p (fun _ s' => s'.lock ≠ some p)
      (do wakeup chan; op .release; pure a) s :=
  (Hold.mending.mend chan h fun _ h => h).mono fun _ _ h => h.2.free

theorem Hold.owns : Hold p (Owns W p) :=
  ⟨fun _ h => h.lock, fun _ _ hk h =>
    ⟨hk.lock.trans h.lock, hk.fresh.trans h.fresh, hk.quiet h.quiet⟩⟩

theorem pipeclose_safe {writable : Bool} (h : s.lock ≠ some p) :
    Safe (outline guard W) p (fun _ s' => s'.lock ≠ some p) (pipeclose writable) s := by
  refine (acquire_safe h).bind fun _ s h => ?_
  refine Hold.owns.call (o := .close writable) h (fun _ h => h.lock) fun s r s' _ _ h _ he => ?_
  have hl := h.quiet.ledger
  cases writable with
  | true =>
    cases he
    exact mend_safe .nread (a := ())
      ⟨h.lock, ⟨hl.count, hl.exact⟩, fun _ hc => absurd rfl hc, fun w _ => h.quiet.writers w⟩
  | false =>
    cases he
    exact mend_safe .nwrite (a := ())
      ⟨h.lock, ⟨hl.count, hl.exact⟩, fun w _ => h.quiet.readers w, fun _ hc => absurd rfl hc⟩

/-! ## `piperead` -/

/-- In the copy loop of `piperead`, with `way` taken out and not yet stored. -/
structure Reading (W : Prop) (p : Slot) (way : List UInt8) (s : St) : Prop where
  lock : s.lock = some p
  ledger : Ledger way s
  readers : W → Readers s

theorem Hold.reading {way : List UInt8} : Hold p (Reading W p way) :=
  ⟨fun _ h => h.lock, fun _ _ hk h =>
    ⟨hk.lock.trans h.lock, hk.ledger h.ledger, fun w => hk.readers (h.readers w)⟩⟩

/-- The end of the stream: nobody can write any more, and the readers got every byte. -/
def Eof (s : St) : Prop := s.pipe.writeopen = false ∧ s.stored = s.accepted

/-- The laws of the bytes make the end of the stream exact where the loops of `piperead` give up
without a byte: on an empty pipe whose write end is closed, or at a copy that failed. -/
theorem Ledger.eof_iff (h : Ledger [] s)
    (dry : s.pipe.writeopen = false ∧ s.pipe.Empty ∨ 0 < s.failed) : Eof s ↔ s.failed = 0 := by
  constructor
  · intro he
    have hc := h.count
    rw [he.2] at hc
    simp only [length_nil] at hc
    omega
  · intro hf
    obtain ⟨closed, empty⟩ := dry.resolve_right (by omega)
    have he := h.exact hf
    have hnil : s.pipe.contents = [] := eq_nil_of_length_eq_zero (by
      rw [Pipe.contents, Ring.length_contents, show s.pipe.nread = s.pipe.nwrite from empty,
        Ring.length_self])
    rw [hnil, append_nil, append_nil] at he
    exact ⟨closed, he⟩

/-- What `piperead(pi, addr, n)` returns with: if it returns 0 although bytes were asked for, this
is the end of the stream unless a copy has failed. -/
structure Returned (p : Slot) (n r : Int) (s : St) : Prop where
  free : s.lock ≠ some p
  eof : 0 < n → r = 0 → (Eof s ↔ s.failed = 0)

variable {n : Int} {i : Nat}

theorem pipereadDone_safe (h : Reading W p [] s)
    (dry : 0 < n → i = 0 → s.pipe.writeopen = false ∧ s.pipe.Empty ∨ 0 < s.failed) :
    Safe (outline guard W) p (Returned p n) (pipereadDone i) s := by
  have hold : Hold p fun s => Reading W p [] s ∧
      (0 < n → i = 0 → s.pipe.writeopen = false ∧ s.pipe.Empty ∨ 0 < s.failed) :=
    ⟨fun _ h => h.1.lock, fun _ _ hk h =>
      ⟨Hold.reading.kept _ _ hk h.1, by rw [hk.pipe, hk.failed]; exact h.2⟩⟩
  refine (hold.mend .nwrite ⟨h, dry⟩ fun s h =>
    ⟨h.1.lock, h.1.ledger, fun w _ => h.1.readers w, fun _ hc => absurd rfl hc⟩).mono ?_
  rintro _ s ⟨rfl, left⟩
  refine ⟨left.free, fun hn hi => ?_⟩
  obtain ⟨s₁, ⟨h, dry⟩, rfl⟩ := left
  exact h.ledger.eof_iff (dry hn (Int.ofNat_eq_zero.1 hi))

/-- Taking a byte out; readers that sleep would have slept on a pipe that is not empty. -/
theorem Reading.take (h : Reading W p [] s) (ne : ¬s.pipe.Empty) :
    Reading W p [s.pipe.next] { s with pipe := s.pipe.advance } := by
  refine ⟨h.lock, ⟨?_, fun hf => ?_⟩, fun w q hq => absurd (h.readers w q hq).1 ne⟩
  · have := h.ledger.count
    rw [length_take ne] at this
    simp only [length_nil, length_singleton] at this ⊢
    omega
  · have := h.ledger.exact hf
    rw [contents_take ne] at this
    simpa using this

variable {ch : UInt8}

theorem Reading.stored {m : Slot → UserMem} (h : Reading W p [ch] s) :
    Reading W p [] { s with mem := m, stored := s.stored ++ [ch] } := by
  refine ⟨h.lock, ⟨?_, fun hf => ?_⟩, h.readers⟩
  · have := h.ledger.count
    simp only [length_nil, length_singleton, length_append] at this ⊢
    omega
  · simpa using h.ledger.exact hf

theorem Reading.failed (h : Reading W p [ch] s) :
    Reading W p [] { s with failed := s.failed + 1 } := by
  refine ⟨h.lock, ⟨?_, nofun⟩, h.readers⟩
  have := h.ledger.count
  simp only [length_nil, length_singleton] at this ⊢
  omega

variable {addr : Nat}

theorem pipereadCopy_safe {k : Nat} (h : Reading W p [] s)
    (more : 0 < n → i = 0 → 0 < k ∧ (s.pipe.Empty → s.pipe.writeopen = false)) :
    Safe (outline guard W) p (Returned p n) (pipereadCopy addr k i) s := by
  induction k generalizing s i with
  | zero => exact pipereadDone_safe h fun hn hi => absurd (more hn hi).1 (Nat.lt_irrefl 0)
  | succ k ih =>
    have hold : Hold p fun s => Reading W p [] s ∧
        (0 < n → i = 0 → s.pipe.Empty → s.pipe.writeopen = false) :=
      ⟨fun _ h => h.1.lock, fun _ _ hk h => ⟨Hold.reading.kept _ _ hk h.1, hk.pipe ▸ h.2⟩⟩
    refine hold.call (o := .pipe) ⟨h, fun hn hi => (more hn hi).2⟩ (fun _ _ => trivial)
      fun s pi s' _ _ ⟨h, more⟩ _ he => ?_
    cases he
    show Safe _ _ _ (if s.pipe.Empty then _ else _) _
    split
    · rename_i empty
      exact pipereadDone_safe h fun hn hi => .inl ⟨more hn hi empty, empty⟩
    rename_i ne
    have hold : Hold p fun s => Reading W p [] s ∧ ¬s.pipe.Empty :=
      ⟨fun _ h => h.1.lock, fun _ _ hk h => ⟨Hold.reading.kept _ _ hk h.1, hk.pipe ▸ h.2⟩⟩
    refine hold.call (o := .take) ⟨h, ne⟩ (fun _ h => ⟨h.1.lock, h.2⟩) fun s ch s' _ _ h _ he => ?_
    cases he
    refine Hold.reading.call (o := .copyout _ _) (h.1.take h.2) (fun _ h => h.lock)
      fun s ok s' _ _ h _ he => ?_
    simp only [step] at he
    split at he
    · cases he
      exact ih h.stored fun _ hi => absurd hi i.succ_ne_zero
    · cases he
      exact pipereadDone_safe h.failed fun _ _ => .inr (Nat.succ_pos _)

variable {fuel : Nat}

theorem pipereadFrom_safe (h : Owns W p s) :
    Safe (outline guard W) p (Returned p n) (pipereadFrom addr n fuel) s := by
  induction fuel generalizing s with
  | zero => exact Hold.owns.call (o := .stop) h (fun _ _ => trivial) nofun
  | succ fuel ih =>
    refine Hold.owns.call (o := .pipe) h (fun _ _ => trivial) fun s pi s' _ _ h _ he => ?_
    cases he
    show Safe _ _ _ (if s.pipe.Empty ∧ s.pipe.writeopen = true then _ else _) _
    split
    · rename_i waits
      have hold : Hold p fun s => Owns W p s ∧ s.pipe.Empty ∧ s.pipe.writeopen = true :=
        ⟨fun _ h => h.1.lock, fun _ _ hk h => ⟨Hold.owns.kept _ _ hk h.1, hk.pipe ▸ h.2⟩⟩
      refine hold.call (o := .killed) ⟨h, waits⟩ (fun _ _ => trivial)
        fun s killed s' _ _ h _ he => ?_
      cases he
      obtain ⟨h, waits⟩ := h
      show Safe _ _ _ (if (s.proc p).killed = true then _ else _) _
      split
      · exact (release_safe h.lock h.quiet).bind fun _ _ h => ⟨h, nofun⟩
      · exact (sleep_safe .nread h.lock h.quiet waits).bind fun _ s h => ih h
    · rename_i go
      refine pipereadCopy_safe ⟨h.lock, h.quiet.ledger, h.quiet.readers⟩ fun hn _ =>
        ⟨by omega, fun empty => ?_⟩
      exact Bool.eq_false_iff.2 fun hopen => go ⟨empty, hopen⟩

theorem piperead_safe (h : s.lock ≠ some p) :
    Safe (outline guard W) p (Returned p n) (piperead fuel addr n) s :=
  (acquire_safe h).bind fun _ _ h => pipereadFrom_safe h

/-! ## `pipewrite` -/

/-- In the loop of `pipewrite`. The readers are owed a wakeup if bytes were stored, which takes an
open read end. -/
structure Writing (W : Prop) (p : Slot) (s : St) : Prop where
  lock : s.lock = some p
  ledger : Ledger [] s
  readers : W → s.fresh = false → Readers s
  writers : W → Writers s
  readopen : s.fresh = true → s.pipe.readopen = true

theorem Hold.writing : Hold p (Writing W p) :=
  ⟨fun _ h => h.lock, fun _ _ hk h =>
    ⟨hk.lock.trans h.lock, hk.ledger h.ledger, fun w hf => hk.readers (h.readers w (hk.fresh ▸ hf)),
      fun w => hk.writers (h.writers w), fun hf => hk.pipe ▸ h.readopen (hk.fresh ▸ hf)⟩⟩

theorem Owns.writing (h : Owns W p s) : Writing W p s :=
  ⟨h.lock, h.quiet.ledger, fun w _ => h.quiet.readers w, h.quiet.writers,
    fun hf => by rw [h.fresh] at hf; cases hf⟩

theorem pipewriteDone_safe (h : Writing W p s) :
    Safe (outline guard W) p (fun _ s' => s'.lock ≠ some p) (pipewriteDone i) s :=
  mend_safe .nread ⟨h.lock, h.ledger, fun _ hc => absurd rfl hc, fun w _ => h.writers w⟩

/-- Storing a byte; writers that sleep would have slept on a pipe that is not full. -/
theorem Writing.put (h : Writing W p s) (hlen : s.pipe.length ≤ PIPESIZE) (hfull : ¬s.pipe.Full)
    (hopen : s.pipe.readopen = true) (ch : UInt8) :
    Writing W p
      { s with pipe := s.pipe.put ch, accepted := s.accepted ++ [ch], fresh := true } := by
  have hlt : s.pipe.length < PIPESIZE := lt_of_le_of_ne hlen fun e => hfull (full_iff.2 e)
  refine ⟨h.lock, ⟨?_, fun hf => ?_⟩, nofun, fun w q hq => absurd (h.writers w q hq).1 hfull,
    fun _ => hopen⟩
  · have := h.ledger.count
    simp only [length_put hlt, length_append, length_singleton]
    omega
  · have := h.ledger.exact hf
    change s.stored ++ [] ++ (s.pipe.put ch).contents = s.accepted ++ [ch]
    rw [contents_put hlt, ← append_assoc, this]

theorem Writing.quiet (h : Writing W p s)
    (gone : W → s.fresh = true → ∀ q, ¬(s.proc q).Sleeps .nread) :
    Quiet W s := by
  refine ⟨h.ledger, fun w => ?_, h.writers⟩
  cases hf : s.fresh with
  | false => exact h.readers w hf
  | true => exact fun q hq => absurd hq (gone w hf q)

theorem pipewriteFrom_safe (alert : W → ∀ p o s, guard p o s → Alert p o s) (h : Writing W p s) :
    Safe (outline guard W) p (fun _ s' => s'.lock ≠ some p) (pipewriteFrom addr n fuel i) s := by
  induction fuel generalizing s i with
  | zero => exact Hold.writing.call (o := .stop) h (fun _ _ => trivial) nofun
  | succ fuel ih =>
    unfold pipewriteFrom
    split
    swap
    · exact pipewriteDone_safe h
    refine Hold.writing.call (o := .pipe) h (fun _ _ => trivial) fun s pi s' _ _ h _ he => ?_
    cases he
    show Safe _ _ _ (if s.pipe.readopen = false then _ else _) _
    split
    · rename_i closed
      -- bytes were stored only if the read end was open, and it still is
      refine (release_safe h.lock (h.quiet fun _ hf => ?_)).bind fun _ _ h => h
      rw [h.readopen hf] at closed
      cases closed
    rename_i hopen
    rw [Bool.not_eq_false] at hopen
    generalize hpi : s.pipe = pi at hopen ⊢
    have hold : Hold p fun s => Writing W p s ∧ s.pipe = pi :=
      ⟨fun _ h => h.1.lock, fun _ _ hk h => ⟨Hold.writing.kept _ _ hk h.1, hk.pipe.trans h.2⟩⟩
    refine hold.call (o := .killed) ⟨h, hpi⟩ (fun _ _ => trivial) fun s killed s' _ hg h _ he => ?_
    cases he
    obtain ⟨h, hpi⟩ := h
    show Safe _ _ _ (if (s.proc p).killed = true then _ else if pi.Full then _ else _) _
    split
    · rename_i hk
      exact (release_safe h.lock (h.quiet fun w hf => alert w p .killed s hg hf hk)).bind
        fun _ _ h => h
    split
    · rename_i hfull
      refine (wakeup_safe hold ⟨h, hpi⟩ .nread).bind fun _ s ⟨⟨h, hpi⟩, gone⟩ => ?_
      refine (sleep_safe .nwrite h.lock (h.quiet fun _ _ => gone) ?_).bind fun _ s h => ?_
      · subst hpi
        exact ⟨hfull, hopen⟩
      · exact ih h.writing
    rename_i hfull
    refine hold.call (o := .copyin _) ⟨h, hpi⟩ (fun _ _ => trivial) fun s ch s' _ _ h _ he => ?_
    simp only [step] at he
    split at he
    · cases he
      refine hold.call
        (o := .put _) h (fun _ h => ⟨h.1.lock, h.2 ▸ hfull⟩) fun s r s' hlen _ h _ he => ?_
      cases he
      exact ih (h.1.put hlen (h.2 ▸ hfull) (h.2 ▸ hopen) _)
    · cases he
      exact pipewriteDone_safe h.1

theorem pipewrite_safe (alert : W → ∀ p o s, guard p o s → Alert p o s)
    (h : s.lock ≠ some p) :
    Safe (outline guard W) p (fun _ s' => s'.lock ≠ some p) (pipewrite fuel addr n) s :=
  (acquire_safe h).bind fun _ _ h => pipewriteFrom_safe alert h.writing

end Xv6.Pipe
