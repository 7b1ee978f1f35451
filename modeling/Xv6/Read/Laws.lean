import Xv6.Read.Code

/-!
# What `read` stores

A read of `n` bytes stores inside the `n` bytes of the buffer only, and returns at most `n`, except
for a negative `n` on an inode: `readi` takes it as a `uint`, and unless the sum with the offset
wraps around, all of the file from the offset on is read.
-/

namespace Xv6.Read

open Lib List

variable {s s' : St} {addr : Nat} {n : Int} {m : UserMem}

/-! ## Copies -/

theorem length_copyin_le (m : UserMem) (fuel va len : Nat) :
    (m.copyin fuel va len).2.length ≤ len := by
  induction fuel generalizing va len with
  | zero => exact Nat.zero_le _
  | succ fuel ih =>
    unfold UserMem.copyin
    dsimp only
    split
    · exact Nat.zero_le _
    · split
      · have :=
          ih (va / PGSIZE * PGSIZE + PGSIZE) (len - min (PGSIZE - (va - va / PGSIZE * PGSIZE)) len)
        simp only [length_append, length_map, length_range]
        omega
      · exact Nat.zero_le _

variable {va len : Nat}

theorem mem_reached {a : Nat} (h : a ∈ reached m va len) : va ≤ a ∧ a < va + len := by
  have := length_copyin_le m len va len
  rw [reached, mem_range'_1] at h
  omega

variable {fuel : Nat} {bs : List UInt8}

theorem le_maxva_of_copyout (h : (m.copyout fuel va bs).1 = true)
    (hbs : bs ≠ []) : va + bs.length ≤ MAXVA := by
  induction fuel generalizing va bs m with
  | zero => simp [UserMem.copyout, hbs] at h
  | succ fuel ih =>
    have hpg : 0 < PGSIZE := by decide
    have hva : va / PGSIZE * PGSIZE ≤ va ∧ va < va / PGSIZE * PGSIZE + PGSIZE := by
      have := Nat.div_add_mod va PGSIZE
      have := Nat.mod_lt va hpg
      rw [Nat.mul_comm]
      omega
    unfold UserMem.copyout at h
    dsimp only at h
    rw [if_neg hbs] at h
    split at h
    · rename_i hw
      have hlt : va / PGSIZE * PGSIZE < MAXVA := by
        unfold UserMem.walkaddr at hw
        simp only [Bool.and_eq_true, decide_eq_true_eq] at hw
        exact hw.1
      have hpage : va / PGSIZE * PGSIZE + PGSIZE ≤ MAXVA := by
        simp only [MAXVA, PGSIZE] at hlt ⊢
        omega
      by_cases hd : bs.drop (PGSIZE - (va - va / PGSIZE * PGSIZE)) = []
      · rw [drop_eq_nil_iff] at hd
        omega
      · have := ih h hd
        rw [length_drop] at this
        have hlen : PGSIZE - (va - va / PGSIZE * PGSIZE) < bs.length := by
          by_contra hle
          exact hd (drop_eq_nil_of_le (not_lt.1 hle))
        omega
    · cases h

/-- How many bytes are moved depends on what is mapped only. -/
theorem length_copyin_byte (b : Nat → UInt8) (fuel va len : Nat) :
    (UserMem.copyin ⟨m.mapped, b⟩ fuel va len).2.length = (m.copyin fuel va len).2.length := by
  induction fuel generalizing va len with
  | zero => rfl
  | succ fuel ih =>
    have hw : UserMem.walkaddr ⟨m.mapped, b⟩ = m.walkaddr := rfl
    unfold UserMem.copyin
    dsimp only
    rw [hw]
    split
    · rfl
    split
    · simp only [length_append, length_map, ih]
    · rfl

/-- `copyout` changes no byte but those at the addresses that it gets to. -/
theorem copyout_byte {a : Nat} (h : a ∉ range' va (m.copyin fuel va bs.length).2.length) :
    (m.copyout fuel va bs).2.byte a = m.byte a := by
  induction fuel generalizing va bs m with
  | zero => rfl
  | succ fuel ih =>
    unfold UserMem.copyout
    unfold UserMem.copyin at h
    dsimp only at h ⊢
    by_cases hbs : bs = []
    · rw [if_pos hbs]
    rw [if_neg hbs]
    rw [if_neg (mt length_eq_zero_iff.1 hbs)] at h
    split
    swap
    · rfl
    rename_i hw
    rw [if_pos hw] at h
    have hva : va / PGSIZE * PGSIZE ≤ va ∧ va < va / PGSIZE * PGSIZE + PGSIZE := by
      simp only [PGSIZE]
      omega
    simp only [length_append, length_map, length_range, mem_range'_1] at h
    -- the next page is reached only if there are bytes left for it
    have hleft : bs.length - min (PGSIZE - (va - va / PGSIZE * PGSIZE)) bs.length =
        bs.length - (PGSIZE - (va - va / PGSIZE * PGSIZE)) := by omega
    rw [hleft] at h
    have hrest := length_copyin_le m fuel (va / PGSIZE * PGSIZE + PGSIZE)
      (bs.length - (PGSIZE - (va - va / PGSIZE * PGSIZE)))
    rw [ih]
    · rcases Nat.lt_or_ge a va with hlt | hge
      · exact Bytes.splice_of_lt hlt
      · refine Bytes.splice_of_le ?_
        rw [length_take]
        omega
    · rw [length_copyin_byte, length_drop, mem_range'_1]
      omega

/-- Some bytes are stored by a copy whose first page is mapped. -/
theorem reached_ne_nil (hw : m.walkaddr (va / PGSIZE * PGSIZE) = true) (hlen : 0 < len) :
    va ∈ reached m va len := by
  rw [reached, mem_range'_1]
  obtain ⟨len, rfl⟩ := Nat.exists_eq_succ_of_ne_zero hlen.ne'
  refine ⟨le_rfl, ?_⟩
  have hmod : va - va / PGSIZE * PGSIZE < PGSIZE := by
    have := Nat.div_add_mod va PGSIZE
    have := Nat.mod_lt va (show 0 < PGSIZE by decide)
    rw [Nat.mul_comm]
    omega
  unfold UserMem.copyin
  dsimp only
  rw [if_neg (Nat.succ_ne_zero len), if_pos hw]
  simp only [length_append, length_map, length_range]
  omega

/-! ## The back ends -/

/-- From `s` to `s'`, only the first `k` bytes at `addr` were stored to. -/
def Within (addr k : Nat) (s s' : St) : Prop :=
  ∃ l, s'.stored = s.stored ++ l ∧ ∀ a ∈ l, addr ≤ a ∧ a < addr + k

variable {k : Nat}

/-- From `s` to `s'`, no byte of user memory was changed but those at the addresses recorded. -/
def Recorded (s s' : St) : Prop :=
  ∃ l, s'.stored = s.stored ++ l ∧ ∀ a ∉ l, s'.mem.byte a = s.mem.byte a

/-- Whatever runs records the addresses at which it changes user memory. -/
theorem recorded_wp {α : Type} (x : Code α) : x.Wp exec (fun _ => True)
    (fun _ s' => Recorded s s') s := by
  induction x generalizing s with
  | ret r => exact ⟨[], (append_nil _).symm, fun _ _ => rfl⟩
  | call o f ih =>
    refine Prog.Wp.call (E := iface) (o := o) (fun r s₁ ho => (ih r).mono ?_) (fun _ => trivial)
      fun _ _ => trivial
    rintro - s₂ ⟨l, hl, hbyte⟩
    cases o with
    | copyout va bs =>
      cases ho
      refine ⟨_, hl.trans (append_assoc ..), fun a ha => ?_⟩
      refine (hbyte a fun h => ha (mem_append_right _ h)).trans ?_
      exact copyout_byte fun h => ha (mem_append_left _ h)
    | sleep =>
      simp only [exec] at ho
      split at ho <;> cases ho
      exact ⟨l, hl, hbyte⟩
    | stop => cases ho
    | panic e => cases ho
    | _ => cases ho; exact ⟨l, hl, hbyte⟩

/-- A run that stores to the first `k` bytes at `addr` only leaves the rest of user memory as it
was. -/
theorem Within.byte {α : Type} {x : Code α} {r : α} {a : Nat} (h : Within addr k s s')
    (run : x.run exec s = .ok (r, s')) (ha : a < addr ∨ addr + k ≤ a) :
    s'.mem.byte a = s.mem.byte a := by
  obtain ⟨l, hl, hin⟩ := h
  obtain ⟨l', hl', hbyte⟩ := (recorded_wp x).of_run run
  obtain rfl : l = l' := append_cancel_left (hl.symm.trans hl')
  refine hbyte a fun hmem => ?_
  have := hin a hmem
  omega

theorem Within.mono {k' : Nat} (h : Within addr k s s') (hk : k ≤ k') : Within addr k' s s' := by
  obtain ⟨l, hl, hin⟩ := h
  refine ⟨l, hl, fun a ha => ?_⟩
  have := hin a ha
  omega

/-- The first `tot` bytes are stored, and the address of the next one does not wrap around. -/
structure Stored (addr tot : Nat) (s s' : St) : Prop where
  within : Within addr tot s s'
  next : (addr + tot) % 2 ^ 64 = addr + tot

theorem Stored.refl (h : addr < 2 ^ 64) (s : St) : Stored addr 0 s s :=
  ⟨⟨[], (append_nil _).symm, nofun⟩, Nat.mod_eq_of_lt h⟩

variable {tot : Nat}

theorem Stored.of_eq {s₁ s₂ : St} (h : Stored addr tot s s₁) (hs : s₂.stored = s₁.stored) :
    Stored addr tot s s₂ :=
  ⟨by unfold Within; rw [hs]; exact h.within, h.next⟩

section Rules

variable {α : Type} {tol : Option Panic → Prop} {Q : α → St → Prop}

theorem op_wp {o : Op} {f : o.Res → Code α} {r : o.Res} (he : exec o s = .ok (r, s'))
    (h : (f r).Wp exec tol Q s') : ((op o).bind f).Wp exec tol Q s := by
  refine Prog.Wp.call (E := iface) (o := o) (fun r' s'' h' => ?_) (fun h' => ?_) fun e h' => ?_
  · cases he.symm.trans h'
    exact h
  · cases he.symm.trans h'
  · cases he.symm.trans h'

theorem ite_wp {P : Prop} {_ : Decidable P} {x y : Code α} (pos : P → x.Wp exec tol Q s)
    (neg : ¬P → y.Wp exec tol Q s) : (if P then x else y).Wp exec tol Q s := by
  split
  · exact pos ‹_›
  · exact neg ‹_›

theorem sleep_wp {f : Unit → Code α} (htol : tol none)
    (h : ∀ s', s'.stored = s.stored → (f ()).Wp exec tol Q s') :
    ((op .sleep).bind f).Wp exec tol Q s := by
  cases hl : s.later with
  | nil =>
    have he : exec .sleep s = .blocked := by simp only [exec, hl]
    refine Prog.Wp.call (E := iface) (o := .sleep) (fun r' s'' h' => ?_) (fun _ => htol)
      fun e h' => ?_
    · cases he.symm.trans h'
    · cases he.symm.trans h'
  | cons world later =>
    have he : exec .sleep s = .ok ((), { s with world, later }) := by simp only [exec, hl]
    exact op_wp he (h _ rfl)

theorem copyout_wp {s₀ : St} {tot : Nat} {bs : List UInt8} {f : Bool → Code α}
    (h : Stored addr tot s₀ s) (hbs : bs ≠ [])
    (ok : ∀ s', Stored addr (tot + bs.length) s₀ s' → s'.file = s.file → (f true).Wp exec tol Q s')
    (failed : ∀ s', Within addr (tot + bs.length) s₀ s' → s'.file = s.file →
      (f false).Wp exec tol Q s') :
    ((op (.copyout ((addr + tot) % 2 ^ 64) bs)).bind f).Wp exec tol Q s := by
  refine op_wp rfl ?_
  have hin : Within addr (tot + bs.length) s₀ { s with
      mem := (s.mem.copyout bs.length ((addr + tot) % 2 ^ 64) bs).2
      stored := s.stored ++ reached s.mem ((addr + tot) % 2 ^ 64) bs.length } := by
    obtain ⟨l, hl, hin⟩ := h.within
    refine ⟨l ++ reached s.mem ((addr + tot) % 2 ^ 64) bs.length, ?_, fun a ha => ?_⟩
    · rw [← append_assoc, ← hl]
    · rcases mem_append.1 ha with ha | ha
      · have := hin a ha
        omega
      · have := mem_reached ha
        rw [h.next] at this
        omega
  cases hok : (s.mem.copyout bs.length ((addr + tot) % 2 ^ 64) bs).1 with
  | false => exact failed _ hin rfl
  | true =>
    refine ok _ ⟨hin, Nat.mod_eq_of_lt ?_⟩ rfl
    have := le_maxva_of_copyout hok hbs
    rw [h.next] at this
    simp only [MAXVA] at this
    omega

end Rules

/-- Any stop other than a return. -/
abbrev stops : Option Panic → Prop := fun _ => True

variable {s₀ : St} {i : Nat}

theorem pipereadCopy_wp (h : Stored addr i s₀ s) :
    (pipereadCopy addr k i).Wp exec stops (fun r s' => Within addr (i + k) s₀ s' ∧
      ∃ j : Nat, r = j ∧ j ≤ i + k) s := by
  induction k generalizing i s with
  | zero => exact ⟨h.within, i, rfl, le_rfl⟩
  | succ k ih =>
    have hstop : Within addr (i + (k + 1)) s₀ s ∧ ∃ j : Nat, (i : Int) = j ∧ j ≤ i + (k + 1) :=
      ⟨h.within.mono (by omega), i, rfl, by omega⟩
    refine op_wp rfl (ite_wp (fun _ => hstop) fun _ => ?_)
    refine op_wp rfl ?_
    have h' : Stored addr i s₀ { s with world.pipe := s.world.pipe.advance } := h.of_eq rfl
    refine copyout_wp h' (by simp) (fun s' hs _ => ?_) fun s' hs _ => ?_
    · refine ite_wp (fun _ => ?_) fun hf => absurd rfl hf
      have := ih hs
      rwa [show i + [s.world.pipe.next].length + k = i + (k + 1) by simp; omega] at this
    · refine ite_wp (fun hf => nomatch hf) fun _ => ?_
      exact ⟨hs.mono (by simp), i, rfl, by omega⟩

/-- A result of at most `k`, or a failure. -/
def Returns (k : Nat) (r : Int) : Prop := r = -1 ∨ ∃ j : Nat, r = j ∧ j ≤ k

theorem stop_wp {α : Type} {Q : α → St → Prop} {f : Unit → Code α} :
    ((op .stop).bind f).Wp exec stops Q s :=
  trivial

theorem piperead_wp (h : Stored addr 0 s₀ s) :
    (piperead addr n fuel).Wp exec stops (fun r s' => Within addr n.toNat s₀ s' ∧
      Returns n.toNat r) s := by
  induction fuel generalizing s with
  | zero => exact stop_wp
  | succ fuel ih =>
    refine op_wp rfl (ite_wp (fun _ => ?_) fun _ => ?_)
    · refine ite_wp (fun _ => ⟨h.within.mono (Nat.zero_le _), .inl rfl⟩) fun _ => ?_
      exact sleep_wp trivial fun s' hs => ih (h.of_eq hs)
    · refine (pipereadCopy_wp h).mono fun r s' ⟨hin, hr⟩ => ?_
      rw [Nat.zero_add] at hin hr
      exact ⟨hin, .inr hr⟩

theorem awaitInput_wp : (awaitInput fuel).Wp exec stops (fun _ s' => s'.stored = s.stored) s := by
  induction fuel generalizing s with
  | zero => exact stop_wp
  | succ fuel ih =>
    refine op_wp rfl (ite_wp (fun _ => ite_wp (fun _ => rfl) fun _ => ?_) fun _ => rfl)
    exact sleep_wp trivial fun s' hs => ih.mono fun _ _ h => h.trans hs

theorem consoleFrom_wp {target : Nat} (h : Stored addr i s₀ s) :
    (consoleFrom target fuel k (addr + i)).Wp exec stops
      (fun rest s' => Within addr (i + k) s₀ s' ∧ ∀ j ∈ rest, j ≤ k) s := by
  induction k generalizing i s with
  | zero => exact ⟨h.within, fun j hj => by cases hj; exact le_rfl⟩
  | succ k ih =>
    have hrest : ∀ j ∈ some (k + 1), j ≤ k + 1 := fun j hj => by cases hj; exact le_rfl
    refine awaitInput_wp.bind fun ready s₁ hs₁ => ?_
    have h₁ := h.of_eq hs₁
    refine ite_wp (fun _ => ⟨h₁.within.mono (by omega), by simp⟩) fun _ => op_wp rfl ?_
    refine ite_wp (fun _ => ite_wp (fun _ => ?_) fun _ => ?_) fun _ => ?_
    · exact op_wp rfl ⟨(h₁.of_eq rfl).within.mono (by omega), hrest⟩
    · exact ⟨(h₁.of_eq rfl).within.mono (by omega), hrest⟩
    · refine copyout_wp (h₁.of_eq rfl) (by simp) (fun s' hs _ => ?_) fun s' hs _ => ?_
      · refine ite_wp (fun hf => by cases hf) fun _ => ite_wp (fun _ => ?_) fun _ => ?_
        · exact ⟨hs.within.mono (by simp), fun j hj => by cases hj; omega⟩
        · refine (ih (i := i + 1) hs).mono fun rest s' h => ⟨h.1.mono (by omega), fun j hj => ?_⟩
          have := h.2 j hj
          omega
      · exact ite_wp (fun _ => ⟨hs.mono (by simp), hrest⟩) fun hf => absurd rfl hf

theorem uint_of_nonneg (h : 0 ≤ n) (h' : n < 2 ^ 31) : uint n = n.toNat := by
  unfold uint
  omega

theorem int_of_lt (h : k < 2 ^ 31) : int k = k := by
  unfold int
  omega

theorem consoleread_wp (h : addr < 2 ^ 64) (hn : n < 2 ^ 31) :
    (consoleread fuel addr n).Wp exec stops
      (fun r s' => Within addr n.toNat s s' ∧ Returns n.toNat r) s := by
  refine (consoleFrom_wp (.refl h s)).bind fun rest s' ⟨hin, hle⟩ => ?_
  rw [Nat.zero_add] at hin
  cases rest with
  | none => exact ⟨hin, .inl rfl⟩
  | some k =>
    have hk := hle k rfl
    refine ⟨hin, .inr ?_⟩
    by_cases hpos : 0 < n
    · refine ⟨n.toNat - k, ?_, Nat.sub_le ..⟩
      rw [if_pos hpos, uint_of_nonneg hpos.le hn]
      unfold int uint
      omega
    · refine ⟨0, ?_, Nat.zero_le _⟩
      rw [if_neg hpos]
      unfold int uint
      omega

variable {N : Nat}

theorem chunk_ne_nil (h : tot < N) (off : Nat) (d : Block) :
    (range (min (N - tot) (BSIZE - off % BSIZE))).map (fun k => d.get (off % BSIZE + k)) ≠ [] := by
  have := Nat.mod_lt off (show 0 < BSIZE by decide)
  rw [← length_pos_iff, length_map, length_range]
  omega

variable {off : Nat}

theorem readiFrom_wp (h : Stored addr tot s₀ s) (htot : tot ≤ N)
    (hN : N < 2 ^ 31) :
    (readiFrom addr N fuel tot off).Wp exec stops
      (fun r s' => Within addr N s₀ s' ∧ Returns N r) s := by
  induction fuel generalizing tot off s with
  | zero => exact ⟨h.within.mono htot, .inr ⟨tot, int_of_lt (by omega), htot⟩⟩
  | succ fuel ih =>
    refine ite_wp (fun hlt => op_wp rfl ?_) fun _ => ?_
    · have hle : tot + min (N - tot) (BSIZE - off % BSIZE) ≤ N := by omega
      refine copyout_wp h (chunk_ne_nil hlt _ _) (fun s' hs _ => ?_) fun s' hs _ => ?_
      · rw [length_map, length_range] at hs
        exact ite_wp (fun hf => nomatch hf) fun _ => ih hs hle
      · rw [length_map, length_range] at hs
        exact ite_wp (fun _ => ⟨hs.mono hle, .inl rfl⟩) fun hf => absurd rfl hf
    · exact ⟨h.within.mono htot, .inr ⟨tot, int_of_lt (by omega), htot⟩⟩

/-! ## `readi` with a negative number of bytes -/

/-- A negative number of bytes that `readi` takes for a positive one, on a file that has bytes after
the offset, and a buffer that is there. -/
structure Overruns (s : St) (addr : Nat) (n : Int) : Prop where
  readable : s.file.readable = true
  type : s.file.type = .inode
  neg : n < 0
  wrap : (s.file.off : Int) < -n
  more : s.file.off < s.size
  mapped : s.mem.walkaddr (addr / PGSIZE * PGSIZE) = true

/-- Nothing is stored to a buffer whose first page is missing. -/
theorem copyout_unmapped (hw : m.walkaddr (va / PGSIZE * PGSIZE) = false)
    (hbs : bs ≠ []) : (m.copyout bs.length va bs).1 = false ∧ reached m va bs.length = [] := by
  obtain ⟨b, bs, rfl⟩ := exists_cons_of_ne_nil hbs
  constructor
  · rw [length_cons, UserMem.copyout, if_neg hbs]
    simp [hw]
  · rw [reached, length_cons, UserMem.copyin, if_neg (Nat.succ_ne_zero _)]
    simp [hw]

theorem readi_wp (haddr : addr < 2 ^ 64) (hn : -2 ^ 31 ≤ n ∧ n < 2 ^ 31) (hoff : off < 2 ^ 32)
    (safe : n < 0 → (off : Int) < -n → off < s.size →
      s.mem.walkaddr (addr / PGSIZE * PGSIZE) = false) :
    (readi addr off (uint n)).Wp exec stops (fun r s' => Within addr n.toNat s s' ∧
      Returns n.toNat r) s := by
  have hnone : Within addr n.toNat s s := (Stored.refl haddr s).within.mono (Nat.zero_le _)
  refine op_wp rfl (ite_wp (fun _ => ⟨hnone, .inr ⟨0, rfl, Nat.zero_le _⟩⟩) fun hgood => ?_)
  rw [not_or] at hgood
  by_cases hneg : n < 0
  · -- `off + n` does not wrap around, so that everything after `off` is to be read
    have huint : (uint n : Int) = n + 2 ^ 32 := by
      unfold uint
      omega
    have hwrap : (off : Int) < -n := by
      by_contra hge
      have hmod : (off + uint n) % 2 ^ 32 = off + uint n - 2 ^ 32 := by omega
      omega
    have hlen : (if s.size < off + uint n then s.size - off else uint n) = s.size - off ∨
        0 < (if s.size < off + uint n then s.size - off else uint n) ∧ off < s.size := by
      split
      · exact .inl rfl
      · right; omega
    generalize hN : (if s.size < off + uint n then s.size - off else uint n) = N at hlen
    cases N with
    | zero => exact ⟨hnone, .inr ⟨0, rfl, Nat.zero_le _⟩⟩
    | succ N =>
      have hmore : off < s.size := by omega
      refine ite_wp (fun hlt => op_wp rfl ?_) fun hge => absurd (Nat.succ_pos N) hge
      obtain ⟨hfail, hreach⟩ := copyout_unmapped (safe hneg hwrap hmore)
        (chunk_ne_nil hlt off (s.block (off / BSIZE)))
      have hva : (addr + 0) % 2 ^ 64 = addr := Nat.mod_eq_of_lt haddr
      rw [hva]
      refine op_wp rfl (ite_wp (fun _ => ⟨?_, .inl rfl⟩) fun hf => absurd hfail (by simpa using hf))
      obtain ⟨l, hl, hin⟩ := hnone
      refine ⟨l, ?_, hin⟩
      rw [hreach, append_nil]
      exact hl
  · rw [not_lt] at hneg
    rw [uint_of_nonneg hneg hn.2]
    have hle : (if s.size < off + n.toNat then s.size - off else n.toNat) ≤ n.toNat := by
      split <;> omega
    refine (readiFrom_wp (.refl haddr s) (Nat.zero_le _) (by omega)).mono fun r s' ⟨hin, hr⟩ => ?_
    refine ⟨hin.mono hle, hr.imp_right fun ⟨j, hj, hjle⟩ => ⟨j, hj, hjle.trans hle⟩⟩

theorem fileread_wp (haddr : addr < 2 ^ 64) (hn : -2 ^ 31 ≤ n ∧ n < 2 ^ 31)
    (hoff : s.file.off < 2 ^ 32) (safe : ¬Overruns s addr n) :
    (fileread fuel addr n).Wp exec stops (fun r s' => Within addr n.toNat s s' ∧
      Returns n.toNat r) s := by
  have hnone : Within addr n.toNat s s := (Stored.refl haddr s).within.mono (Nat.zero_le _)
  refine op_wp rfl (ite_wp (fun _ => ⟨hnone, .inl rfl⟩) fun hread => ?_)
  cases htype : s.file.type with
  | pipe => exact piperead_wp (.refl haddr s)
  | device => exact ite_wp (fun _ => consoleread_wp haddr hn.2) fun _ => ⟨hnone, .inl rfl⟩
  | inode =>
    refine (readi_wp haddr hn hoff fun hneg hwrap hmore => ?_).bind fun r s' hr => ?_
    · by_contra hw
      exact safe ⟨by simpa using hread, htype, hneg, hwrap, hmore, by simpa using hw⟩
    · exact ite_wp (fun _ => op_wp rfl hr) fun _ => hr
  | none => trivial

/-- `readi` returns, and only adds to what was stored. -/
theorem readiFrom_total {dst : Nat} :
    (readiFrom dst N fuel tot off).Wp exec (fun _ => False)
    (fun _ s' => ∃ l, s'.stored = s.stored ++ l) s := by
  induction fuel generalizing tot off s with
  | zero => exact ⟨[], (append_nil _).symm⟩
  | succ fuel ih =>
    refine ite_wp (fun _ => op_wp rfl (op_wp rfl ?_)) fun _ => ⟨[], (append_nil _).symm⟩
    refine ite_wp (fun _ => ⟨_, rfl⟩) fun _ => ih.mono fun _ s' ⟨l, hl⟩ => ?_
    exact ⟨_, hl.trans (append_assoc ..)⟩

/-- The first byte is stored, although none was asked for. -/
theorem Overruns.stores (fuel : Nat) (h : Overruns s addr n) (haddr : addr < 2 ^ 64)
    (hn : -2 ^ 31 ≤ n) :
    (fileread fuel addr n).Wp exec (fun _ => False)
      (fun _ s' => ∃ l, s'.stored = s.stored ++ l ∧ addr ∈ l) s := by
  have huint : (uint n : Int) = n + 2 ^ 32 := by
    have := h.neg
    unfold uint
    omega
  have hwrap := h.wrap
  have hmore := h.more
  refine op_wp rfl (ite_wp (fun hr => ?_) fun _ => ?_)
  · rw [h.readable] at hr
    cases hr
  rw [h.type]
  have hread : (readi addr s.file.off (uint n)).Wp exec (fun _ => False)
      (fun _ s' => ∃ l, s'.stored = s.stored ++ l ∧ addr ∈ l) s := by
    refine op_wp rfl (ite_wp (fun hbad => ?_) fun _ => ?_)
    · rw [Nat.mod_eq_of_lt (by omega)] at hbad
      omega
    · generalize hN : (if s.size < s.file.off + uint n then s.size - s.file.off else uint n) = N
      have hpos : 0 < N := by
        rw [← hN]
        split <;> omega
      obtain ⟨N, rfl⟩ := Nat.exists_eq_succ_of_ne_zero hpos.ne'
      refine ite_wp (fun hlt => op_wp rfl ?_) fun hge => absurd (Nat.succ_pos N) hge
      have hva : (addr + 0) % 2 ^ 64 = addr := Nat.mod_eq_of_lt haddr
      rw [hva]
      have hmem := reached_ne_nil h.mapped
        (length_pos_iff.2 (chunk_ne_nil hlt s.file.off (s.block (s.file.off / BSIZE))))
      refine op_wp rfl (ite_wp (fun _ => ⟨_, rfl, hmem⟩) fun _ => ?_)
      refine readiFrom_total.mono fun _ s' ⟨l, hl⟩ => ?_
      exact ⟨_, hl.trans (append_assoc ..), mem_append_left _ hmem⟩
  refine hread.bind fun r s' hr => ?_
  exact ite_wp (fun _ => op_wp rfl hr) fun _ => hr

/-- `read` stays inside the buffer and returns no more than was asked for, exactly unless it
overruns. -/
theorem read_bounded_iff {fuel : Nat} (haddr : addr < 2 ^ 64) (hn : -2 ^ 31 ≤ n ∧ n < 2 ^ 31)
    (hoff : s.file.off < 2 ^ 32) :
    (∀ r s', (fileread fuel addr n).run exec s = .ok (r, s') →
      Within addr (max n 0).toNat s s' ∧ (0 ≤ r → r ≤ max n 0)) ↔ ¬Overruns s addr n := by
  have hmax : (max n 0).toNat = n.toNat := by omega
  rw [hmax]
  constructor
  · intro hall hover
    obtain ⟨r, s', hrun, l, hl, hmem⟩ := (hover.stores fuel haddr hn.1).exists_run
    obtain ⟨⟨l', hl', hin⟩, -⟩ := hall r s' hrun
    obtain rfl : l = l' := append_cancel_left (hl.symm.trans hl')
    have := hin addr hmem
    have := hover.neg
    omega
  · intro hsafe r s' hrun
    obtain ⟨hin, hr⟩ := (fileread_wp haddr hn hoff hsafe).of_run hrun
    refine ⟨hin, fun hpos => ?_⟩
    rcases hr with rfl | ⟨j, rfl, hj⟩
    · omega
    · omega

/-- A file of one byte, open at its start, and a process with one page. -/
def oneByte : St where
  mem := ⟨fun page => page == 0, fun _ => 0⟩
  file := ⟨.inode, true, 0, 0⟩
  size := 1
  block _ := .ofFn fun _ => 7
  world := ⟨.new fun _ => 0, ⟨fun _ => 0, 0, 0⟩, false⟩
  later := []
  stored := []

theorem read_bounded_iff_oneByte :
    (∀ r s', (fileread 0 0 1).run exec oneByte = .ok (r, s') →
      Within 0 (max 1 0 : Int).toNat oneByte s' ∧ (0 ≤ r → r ≤ max 1 0)) ↔ ¬Overruns oneByte 0 1 :=
  read_bounded_iff (by decide) (by decide) (by decide)

theorem oneByte_overruns : (fileread 0 0 (-1)).Wp exec (fun _ => False)
    (fun r s' => r = 1 ∧ s'.stored = [0] ∧ s'.mem.byte 0 = 7) oneByte := by
  refine op_wp rfl (ite_wp (fun h => nomatch h) fun _ => ?_)
  have hread : (readi 0 0 (uint (-1))).Wp exec (fun _ => False)
      (fun r s' => r = 1 ∧ s'.stored = [0] ∧ s'.mem.byte 0 = 7) oneByte := by
    refine op_wp rfl (ite_wp (fun h => absurd h (by decide)) fun _ => ?_)
    exact op_wp rfl (op_wp rfl (ite_wp (fun h => absurd h (by decide)) fun _ => ⟨rfl, rfl, rfl⟩))
  refine hread.bind fun r s' hr => ?_
  exact ite_wp (fun _ => op_wp rfl hr) fun _ => hr

/-- `read(fd, 0, -1)` stores the byte at address 0 and returns 1. -/
theorem negative_read_stores : ∃ s', (fileread 0 0 (-1)).run exec oneByte = .ok (1, s') ∧
    s'.stored = [0] ∧
    s'.mem.byte 0 = 7 ∧ ¬Within 0 (max (-1) 0 : Int).toNat oneByte s' := by
  obtain ⟨r, s', hrun, rfl, hstored, hbyte⟩ := oneByte_overruns.exists_run
  refine ⟨s', hrun, hstored, hbyte, ?_⟩
  rintro ⟨l, hl, hin⟩
  obtain rfl : [0] = l := hstored.symm.trans hl
  have := hin 0 (mem_singleton_self 0)
  omega

end Xv6.Read
