import Xv6.Vm.Contents
import Xv6.Vm.Phys

/-!
# Copies are confined to user memory

`copyout`, `copyin` and `copyinstr` reach exactly the bytes in pages that are mapped with `PTE_V`
and `PTE_U`, and read or write nothing else but the page table.
-/

namespace Xv6.Phys

open Lib Vm Function List

/-- The page tables in memory. -/
def tables (m : Ram) : Tables := fun page i => .ofWord (Bytes.read m 8 (page * PGSIZE + 8 * i))

/-- Where the user's byte at `va` is, if its page is mapped with `PTE_V` and `PTE_U`. -/
def phys (m : Ram) (root va : Nat) : Option Nat :=
  if va < MAXVA then
    (mapping (tables m) root (va / PGSIZE)).bind fun e =>
      if e.u then some (e.page * PGSIZE + va % PGSIZE) else none
  else none

/-! ## Judgments about accesses -/

/-- `x` ends in memory with `Q`, and all that it reads and writes satisfies `A`. -/
def Acts {α : Type} (A : Nat → Prop) (x : Code α) (Q : α → Ram → Prop) (m : Ram) : Prop :=
  ∀ t, x.Wp step (fun _ => False) (fun r s => (∀ a ∈ s.touched, a ∈ t ∨ A a) ∧ Q r s.ram) ⟨m, t⟩

namespace Acts

variable {α β : Type} {A : Nat → Prop} {Q : α → Ram → Prop} {Q' : β → Ram →
  Prop} {m : Ram} {a : Nat}

theorem ret {r : α} (h : Q r m) : Acts A (.ret r) Q m := fun _ => ⟨fun _ ha => .inl ha, h⟩

variable {x : Code α}

theorem mono {Q₀ : α → Ram → Prop} (h : Acts A x Q₀ m) (hQ : ∀ r m', Q₀ r m' → Q r m') :
    Acts A x Q m :=
  fun t => (h t).mono fun r s hs => ⟨hs.1, hQ r s.ram hs.2⟩

theorem bind {f : α → Code β} (h : Acts A x Q m) (hf : ∀ r m', Q r m' → Acts A (f r) Q' m') :
    Acts A (x.bind f) Q' m := by
  intro t
  refine (h t).bind fun r s hs => (hf r s.ram hs.2 s.touched).mono fun r' s' hs' =>
    ⟨fun b hb => ?_, hs'.2⟩
  rcases hs'.1 b hb with hb | hb
  · exact hs.1 b hb
  · exact .inr hb

theorem access {o : Op} {f : iface.Res o → Code β} {r : iface.Res o} {m' : Ram} {l : List Nat}
    (he : ∀ t, step o ⟨m, t⟩ = .ok (r, ⟨m', l ++ t⟩)) (hl : ∀ b ∈ l, A b) (h : Acts A (f r) Q' m') :
    Acts A ((op o).bind f) Q' m := by
  intro t
  rw [op, Prog.perform_bind]
  unfold Prog.Wp
  rw [he t]
  refine (h (l ++ t)).mono fun r s hs => ⟨fun b hb => ?_, hs.2⟩
  rcases hs.1 b hb with hb | hb
  · rcases mem_append.1 hb with hb | hb
    · exact .inr (hl b hb)
    · exact .inl hb
  · exact .inr hb

theorem word {f : Nat → Code β} (ha : ∀ k < 8, A (a + k)) (h : Acts A (f (Bytes.read m 8 a)) Q' m) :
    Acts A ((op (.word a)).bind f) Q' m := by
  have he (t : List Nat) : step (.word a) ⟨m, t⟩ = .ok (Bytes.read m 8 a, ⟨m, range' a 8 ++ t⟩) :=
    rfl
  refine .access he (fun b hb => ?_) h
  obtain ⟨k, hk, rfl⟩ := mem_range'.1 hb
  rw [Nat.one_mul]
  exact ha k hk

theorem load {f : UInt8 → Code β} (ha : A a) (h : Acts A (f (m a)) Q' m) :
    Acts A ((op (.load a)).bind f) Q' m :=
  .access (l := [a]) (fun _ => rfl) (fun _ hb => mem_singleton.1 hb ▸ ha) h

theorem store {b : UInt8} {f : Unit → Code β} (ha : A a) (h : Acts A (f ()) Q' (update m a b)) :
    Acts A ((op (.store a b)).bind f) Q' m :=
  .access (l := [a]) (fun _ => rfl) (fun _ hb => mem_singleton.1 hb ▸ ha) h

end Acts

/-! ## `walkaddr` -/

theorem px_eq (level va : Nat) : px level va = (Vm.px (va / PGSIZE) level).val := by
  have hpow : 2 ^ (12 + 9 * level) = PGSIZE * 512 ^ level := by
    rw [pow_add, pow_mul]
    rfl
  rw [px, hpow, ← Nat.div_div_eq_div_mul]
  rfl

theorem pte2pa_eq (w : Nat) : pte2pa w = (Pte.ofWord w).page * PGSIZE := by
  have : (2 : Nat) ^ 64 = 2 ^ 52 * 2 ^ 12 := by norm_num
  rw [pte2pa, this, Nat.mul_mod_mul_right]
  rfl

theorem ptr_ofWord (w : Nat) :
    (Pte.ofWord w).ptr = if w.testBit 0 then some (Pte.ofWord w).page else none := rfl

section

variable {A : Nat → Prop} {m : Ram} {root page va ℓ : Nat}

theorem walkFrom_acts (tab : ∀ b ∈ Radix.tables Pte.ptr (tables m) ℓ page, ∀ k < PGSIZE,
    A (b * PGSIZE + k)) :
    Acts A (walkFrom va ℓ (page * PGSIZE)) (fun r m' => m = m' ∧
      r = (Radix.locate Pte.ptr (tables m) ℓ page (Vm.px (va / PGSIZE))).map fun p => p.1 * PGSIZE +
        8 * p.2) m := by
  induction ℓ generalizing page with
  | zero =>
    refine .ret ⟨rfl, ?_⟩
    rw [px_eq]
    rfl
  | succ ℓ ih =>
    have hi := (Vm.px (va / PGSIZE) (ℓ + 1)).isLt
    have hword : ∀ k < 8, A (page * PGSIZE + 8 * px (ℓ + 1) va + k) := by
      intro k hk
      rw [px_eq, Nat.add_assoc]
      refine tab page Radix.mem_tables_self _ ?_
      simp only [PGSIZE]
      omega
    refine .word hword ?_
    have hentry : Pte.ofWord (Bytes.read m 8 (page * PGSIZE + 8 * px (ℓ + 1) va)) =
        tables m page (Vm.px (va / PGSIZE) (ℓ + 1)) := by
      rw [px_eq]
      rfl
    have hptr := ptr_ofWord (Bytes.read m 8 (page * PGSIZE + 8 * px (ℓ + 1) va))
    rw [hentry] at hptr
    rw [Radix.locate, hptr]
    split
    · rename_i hv
      rw [if_pos hv] at hptr
      rw [pte2pa_eq, hentry]
      exact ih fun b hb => tab b (Radix.mem_tables_of_child hptr hb)
    · exact .ret ⟨rfl, rfl⟩

theorem walkaddr_acts (hva : va % PGSIZE = 0)
    (tab : ∀ b ∈ tablePages (tables m) root, ∀ k < PGSIZE, A (b * PGSIZE + k)) :
    Acts A (walkaddr (root * PGSIZE) va) (fun r m' => m = m' ∧ r = (phys m root va).getD 0) m := by
  rw [walkaddr, phys]
  by_cases hmax : MAXVA ≤ va
  · rw [if_pos hmax, if_neg (Nat.not_lt.2 hmax)]
    exact .ret ⟨rfl, rfl⟩
  rw [if_neg hmax, if_pos (Nat.not_le.1 hmax), walk, if_neg hmax]
  refine (walkFrom_acts tab).bind ?_
  rintro _ _ ⟨rfl, rfl⟩
  rw [mapping]
  cases hl : Radix.locate Pte.ptr (tables m) 2 root (Vm.px (va / PGSIZE)) with
  | none =>
    rw [Radix.lookup_of_locate_none hl]
    exact .ret ⟨rfl, rfl⟩
  | some p =>
    have hword : ∀ k < 8, A (p.1 * PGSIZE + 8 * p.2 + k) := by
      intro k hk
      have := p.2.isLt
      rw [Nat.add_assoc]
      refine tab p.1 (Radix.locate_mem hl) _ ?_
      simp only [PGSIZE]
      omega
    refine .word hword ?_
    rw [Radix.lookup_of_locate hl, Pte.isSome_ptr]
    have hentry : tables m p.1 p.2 = Pte.ofWord (Bytes.read m 8 (p.1 * PGSIZE + 8 * p.2)) := rfl
    rw [hentry, hva, pte2pa_eq]
    generalize Bytes.read m 8 (p.1 * PGSIZE + 8 * p.2) = w
    have hv : (Pte.ofWord w).v = w.testBit 0 := rfl
    have hu : (Pte.ofWord w).u = w.testBit 4 := rfl
    rw [hv]
    cases hb : w.testBit 0 with
    | false => exact .ret ⟨rfl, rfl⟩
    | true =>
      cases hb' : w.testBit 4 with
      | false =>
        refine .ret ⟨rfl, ?_⟩
        simp [hu, hb']
      | true =>
        refine .ret ⟨rfl, ?_⟩
        simp [hu, hb']

end

/-! ## User memory -/

theorem maxva_dvd : MAXVA % PGSIZE = 0 := rfl

variable {m : Ram} {root va : Nat}

theorem phys_add {k : Nat} (hva : va % PGSIZE = 0) (hk : k < PGSIZE) :
    phys m root (va + k) = (phys m root va).map (· + k) := by
  have hmax := maxva_dvd
  have hdiv : (va + k) / PGSIZE = va / PGSIZE := by
    simp only [PGSIZE] at *
    omega
  have hmod : (va + k) % PGSIZE = k := by
    simp only [PGSIZE] at *
    omega
  have hlt : va + k < MAXVA ↔ va < MAXVA := by
    simp only [PGSIZE, MAXVA] at *
    omega
  simp only [phys, hlt, hdiv, hmod, hva]
  split
  · cases mapping (tables m) root (va / PGSIZE) with
    | none => rfl
    | some e =>
      cases hu : e.u <;> simp [hu]
  · rfl

/-- The bytes `τ` of the user's memory are apart from each other and from the page table. -/
structure UserSpace (m : Ram) (root : Nat) (τ : Nat → Option Nat) : Prop where
  phys : phys m root = τ
  inj : ∀ {va va' a}, τ va = some a → τ va' = some a → va = va'
  apart : ∀ {va a}, τ va = some a → a / PGSIZE ∉ tablePages (tables m) root
  pos : ∀ {va a}, τ va = some a → PGSIZE ≤ a

/-- The user's bytes from `va` on are overwritten. -/
def put (τ : Nat → Option Nat) (m : Ram) : (va : Nat) → List UInt8 → Ram
  | _, [] => m
  | va, b :: bs => put τ ((τ va).elim m fun a => update m a b) (va + 1) bs

/-- The user's bytes from `va` on. -/
def get (τ : Nat → Option Nat) (m : Ram) (va n : Nat) : List UInt8 :=
  (range n).map fun k => ((τ (va + k)).map m).getD 0

section

variable {A : Nat → Prop} {m : Ram} {root va : Nat} {τ : Nat → Option Nat} {bs : List UInt8}

theorem put_append {cs : List UInt8} : put τ m va (bs ++ cs) = put τ (put τ m va bs)
    (va + bs.length) cs := by
  induction bs generalizing m va with
  | nil => rfl
  | cons b bs ih =>
    rw [cons_append, put, put, ih, length_cons, Nat.add_assoc, Nat.add_comm 1]

theorem put_of_ne {a : Nat} (h : ∀ k < bs.length, τ (va + k) ≠ some a) : put τ m va bs a = m a := by
  induction bs generalizing m va with
  | nil => rfl
  | cons b bs ih =>
    rw [put, ih fun k hk => ?_]
    · cases hτ : τ va with
      | none => rfl
      | some a' =>
        have hne : a ≠ a' := by
          rintro rfl
          exact h 0 (Nat.succ_pos _) hτ
        exact update_of_ne hne ..
    · have := h (k + 1) (Nat.succ_lt_succ hk)
      rwa [Nat.add_comm k, ← Nat.add_assoc] at this

theorem get_zero : get τ m va 0 = [] := rfl

theorem get_add {i j : Nat} : get τ m va (i + j) = get τ m va i ++ get τ m (va + i) j := by
  rw [get, range_add, map_append, map_map]
  simp only [get, comp_def, Nat.add_assoc]

namespace UserSpace

variable (us : UserSpace m root τ)

include us

theorem put_getElem (h : ∀ k < bs.length, (τ (va + k)).isSome) {k : Nat} (hk : k < bs.length) :
    ∃ a, τ (va + k) = some a ∧ some (put τ m va bs a) = bs[k]? := by
  obtain ⟨a, ha⟩ := Option.isSome_iff_exists.1 (h k hk)
  refine ⟨a, ha, ?_⟩
  have hsplit : bs = bs.take k ++ bs[k] :: bs.drop (k + 1) := by
    rw [getElem_cons_drop, take_append_drop]
  have hlen : (bs.take k).length = k := length_take_of_le hk.le
  rw [getElem?_eq_getElem hk]
  conv_lhs => rw [hsplit]
  rw [put_append, hlen, put, ha, Option.elim_some, put_of_ne fun j _ hj => ?_, update_self]
  have := us.inj hj ha
  omega

theorem tables_put {page : Nat} (hp : page ∈ tablePages (tables m) root) :
    tables (put τ m va bs) page = tables m page := by
  funext i
  refine congrArg Pte.ofWord (Bytes.read_congr fun a ha ha' => put_of_ne fun k _ hk =>
    us.apart hk ?_)
  have hi := i.isLt
  have : a / PGSIZE = page := by
    simp only [PGSIZE] at *
    omega
  rwa [this]

theorem tablePages_put : tablePages (tables (put τ m va bs)) root = tablePages (tables m) root :=
  Radix.tables_congr fun _ hb => us.tables_put hb

theorem put : UserSpace (put τ m va bs) root τ where
  phys := by
    have hmap (v : Nat) : mapping (tables (Phys.put τ m va bs)) root v =
        mapping (tables m) root v :=
      Radix.lookup_congr fun _ hb => us.tables_put hb
    rw [← us.phys]
    funext v
    simp only [Phys.phys, us.phys, hmap]
  inj := us.inj
  apart h := by
    rw [us.tablePages_put]
    exact us.apart h
  pos := us.pos

/-- What a round of the loops finds out about the page of `va`. -/
theorem round (tab : ∀ b ∈ tablePages (tables m) root, ∀ k < PGSIZE, A (b * PGSIZE + k)) :
    Acts A (walkaddr (root * PGSIZE) (pgrounddown va)) (fun pa m' => m = m' ∧
      (pa = 0 ∧ τ va = none ∨ pa ≠ 0 ∧ va < MAXVA ∧
        ∀ k, k < PGSIZE - (va - pgrounddown va) →
        τ (va + k) = some (pa + (va - pgrounddown va) + k))) m := by
  have haligned : pgrounddown va % PGSIZE = 0 := Nat.mul_mod_left ..
  have hle : pgrounddown va ≤ va := Nat.div_mul_le_self ..
  have hlt : va - pgrounddown va < PGSIZE := by
    simp only [pgrounddown, PGSIZE]
    omega
  have hadd {k : Nat} (hk : k < PGSIZE - (va - pgrounddown va)) :
      τ (va + k) = (τ (pgrounddown va)).map (· + (va - pgrounddown va + k)) := by
    rw [← us.phys, ← phys_add haligned (by omega)]
    congr 1
    omega
  refine (walkaddr_acts haligned tab).mono ?_
  rintro _ _ ⟨rfl, rfl⟩
  refine ⟨rfl, ?_⟩
  rw [us.phys]
  cases hτ : τ (pgrounddown va) with
  | none =>
    refine .inl ⟨rfl, ?_⟩
    have := hadd (k := 0) (by omega)
    rwa [hτ] at this
  | some pa =>
    refine .inr ⟨?_, ?_, fun k hk => ?_⟩
    · have := us.pos hτ
      simp only [PGSIZE, Option.getD_some] at this ⊢
      omega
    · have hmax : pgrounddown va < MAXVA := by
        rw [← us.phys, Phys.phys] at hτ
        by_contra h
        rw [if_neg h] at hτ
        cases hτ
      have := maxva_dvd
      simp only [PGSIZE, MAXVA] at *
      omega
    · rw [hadd hk, hτ, Option.map_some, Option.getD_some, Nat.add_assoc]

end UserSpace

end

/-! ## The loops -/

/-- A loop over `len` bytes from `va` on ended at byte `j` with result `r`. -/
structure Reached (τ : Nat → Option Nat) (va len : Nat) (r : Int) (j : Nat) : Prop where
  le : j ≤ len
  mapped : ∀ k < j, (τ (va + k)).isSome
  result : r = 0 ∧ j = len ∨ r = -1 ∧ j < len ∧ τ (va + j) = none

/-- The bytes of one page. -/
def chunk (va len : Nat) : Nat := min (PGSIZE - (va - pgrounddown va)) len

/-- The address after the page. -/
def nextPage (va : Nat) : Nat := (pgrounddown va + PGSIZE) % 2 ^ 64

section

variable {A : Nat → Prop} {m : Ram} {root va va' len n j : Nat} {τ : Nat →
  Option Nat} {bs src : List UInt8} {r : Int}

theorem chunk_pos (h : len ≠ 0) : 0 < chunk va len := by
  simp only [chunk, pgrounddown, PGSIZE]
  omega

theorem chunk_le : chunk va len ≤ len := Nat.min_le_right ..

variable {k : Nat}

theorem lt_of_lt_chunk (h : k < chunk va len) : k < PGSIZE - (va - pgrounddown va) :=
  h.trans_le (Nat.min_le_left ..)

theorem nextPage_eq (hmax : va < MAXVA) (h : chunk va len < len) :
    nextPage va = va + chunk va len := by
  simp only [chunk, nextPage, pgrounddown, PGSIZE, MAXVA] at *
  omega

theorem add_lt_of_chunk (hk : k < len - chunk va len) : chunk va len < len := by omega

namespace Reached

theorem start (h : τ va = none) (hlen : len ≠ 0) : Reached τ va len (-1) 0 where
  le := Nat.zero_le _
  mapped := nofun
  result := .inr ⟨rfl, Nat.pos_of_ne_zero hlen, h⟩

theorem done : Reached τ va 0 0 0 := ⟨le_rfl, nofun, .inl ⟨rfl, rfl⟩⟩

theorem round (hmap : ∀ k < chunk va len, (τ (va + k)).isSome) (hmax : va < MAXVA)
    (h : Reached τ (nextPage va) (len - chunk va len) r j) :
    Reached τ va len r (chunk va len + j) := by
  have hle : chunk va len ≤ len := chunk_le
  have hj := h.le
  have hnext {k : Nat} (hk : k < len - chunk va len) : τ (va + (chunk va len + k)) =
      τ (nextPage va + k) := by
    rw [nextPage_eq hmax (add_lt_of_chunk hk), Nat.add_assoc]
  refine ⟨by omega, fun k hk => ?_, ?_⟩
  · by_cases hkn : k < chunk va len
    · exact hmap k hkn
    · have := h.mapped (k - chunk va len) (by omega)
      rwa [← hnext (by omega), Nat.add_sub_cancel' (Nat.not_lt.1 hkn)] at this
  · rcases h.result with ⟨hr, hj⟩ | ⟨hr, hj, hnone⟩
    · exact .inl ⟨hr, by omega⟩
    · refine .inr ⟨hr, by omega, ?_⟩
      rw [hnext hj]
      exact hnone

theorem iff (h : Reached τ va len r j) : r = 0 ↔ ∀ k < len, (τ (va + k)).isSome := by
  rcases h.result with ⟨rfl, rfl⟩ | ⟨rfl, hj, hnone⟩
  · exact ⟨fun _ => h.mapped, fun _ => rfl⟩
  · refine ⟨nofun, fun hall => ?_⟩
    have := hall j hj
    rw [hnone] at this
    cases this

end Reached

variable {a : Nat}

theorem memmoveOut_acts (h : ∀ k < bs.length, τ (va + k) = some (a + k))
    (hA : ∀ k < bs.length, A (a + k)) : Acts A (memmoveOut a bs)
    (fun _ m' => put τ m va bs = m') m := by
  induction bs generalizing m va a with
  | nil => exact .ret rfl
  | cons b bs ih =>
    have h0 : τ va = some a := h 0 (Nat.succ_pos _)
    refine .store (hA 0 (Nat.succ_pos _)) ?_
    rw [put, h0]
    refine ih (fun k hk => ?_) fun k hk => ?_
    · rw [Nat.add_assoc, Nat.add_assoc, Nat.add_comm 1]
      exact h (k + 1) (Nat.succ_lt_succ hk)
    · rw [Nat.add_assoc, Nat.add_comm 1]
      exact hA (k + 1) (Nat.succ_lt_succ hk)

theorem memmoveIn_acts (h : ∀ k < n, τ (va + k) = some (a + k)) (hA : ∀ k < n, A (a + k)) :
    Acts A (memmoveIn a n) (fun bs m' => m = m' ∧ bs = get τ m va n) m := by
  induction n generalizing va a with
  | zero => exact .ret ⟨rfl, rfl⟩
  | succ n ih =>
    have h0 : τ va = some a := h 0 (Nat.succ_pos _)
    have hrest : Acts A (memmoveIn (a + 1) n) (fun bs m' => m = m' ∧
        bs = get τ m (va + 1) n) m := by
      refine ih (fun k hk => ?_) fun k hk => ?_
      · rw [Nat.add_assoc, Nat.add_assoc, Nat.add_comm 1]
        exact h (k + 1) (Nat.succ_lt_succ hk)
      · rw [Nat.add_assoc, Nat.add_comm 1]
        exact hA (k + 1) (Nat.succ_lt_succ hk)
    refine .load (hA 0 (Nat.succ_pos _)) (hrest.bind ?_)
    rintro _ _ ⟨rfl, rfl⟩
    refine .ret ⟨rfl, ?_⟩
    rw [Nat.add_comm n, get_add]
    simp [get, h0]

variable {pagetable rounds : Nat}

theorem copyoutFrom_succ : copyoutFrom pagetable (rounds + 1) va src =
    if src.length = 0 then pure 0
    else (walkaddr pagetable (pgrounddown va)).bind fun pa0 =>
      if pa0 = 0 then pure (-1)
      else (memmoveOut (pa0 + (va - pgrounddown va)) (src.take (chunk va src.length))).bind fun _ =>
        copyoutFrom pagetable rounds (nextPage va) (src.drop (chunk va src.length)) := rfl

theorem copyinFrom_succ : copyinFrom pagetable (rounds + 1) va len =
    if len = 0 then pure (0, [])
    else (walkaddr pagetable (pgrounddown va)).bind fun pa0 =>
      if pa0 = 0 then pure (-1, [])
      else (memmoveIn (pa0 + (va - pgrounddown va)) (chunk va len)).bind fun bs =>
        (copyinFrom pagetable rounds (nextPage va) (len - chunk va len)).bind fun r =>
          pure (r.1, bs ++ r.2) := rfl

variable (us : UserSpace m root τ) (tab : ∀ b ∈ tablePages (tables m) root, ∀ k < PGSIZE,
  A (b * PGSIZE + k))

include us tab

theorem copyoutFrom_acts (user : ∀ k < src.length, ∀ a, τ (va + k) = some a → A a)
    (hr : src.length < rounds) : Acts A (copyoutFrom (root * PGSIZE) rounds va src)
      (fun r m' => ∃ j, Reached τ va src.length r j ∧ put τ m va (src.take j) = m') m := by
  induction rounds generalizing m va src with
  | zero => cases hr
  | succ rounds ih =>
    rw [copyoutFrom_succ]
    by_cases hlen : src.length = 0
    · rw [if_pos hlen, hlen]
      exact .ret ⟨0, .done, rfl⟩
    rw [if_neg hlen]
    refine (us.round tab).bind ?_
    rintro pa _ ⟨rfl, ⟨rfl, hnone⟩ | ⟨hpa, hmax, hpage⟩⟩
    · exact .ret ⟨0, .start hnone hlen, rfl⟩
    rw [if_neg hpa]
    have hpos : 0 < chunk va src.length := chunk_pos hlen
    have htake : (src.take (chunk va src.length)).length = chunk va src.length :=
      length_take_of_le chunk_le
    have hmove : Acts A (memmoveOut (pa + (va - pgrounddown va)) (src.take (chunk va src.length)))
        (fun _ m' => put τ m va (src.take (chunk va src.length)) = m') m := by
      refine memmoveOut_acts (fun k hk => hpage k (lt_of_lt_chunk (htake ▸ hk))) fun k hk => ?_
      have hk : k < chunk va src.length := htake ▸ hk
      exact user k (hk.trans_le chunk_le) _ (hpage k (lt_of_lt_chunk hk))
    refine hmove.bind ?_
    rintro _ _ rfl
    have hdrop : (src.drop (chunk va src.length)).length = src.length - chunk va src.length :=
      length_drop
    have huser (k : Nat) (hk : k < (src.drop (chunk va src.length)).length) (a : Nat)
        (ha : τ (nextPage va + k) = some a) : A a := by
      rw [hdrop] at hk
      rw [nextPage_eq hmax (add_lt_of_chunk hk), Nat.add_assoc] at ha
      exact user _ (by omega) a ha
    have us' : UserSpace (put τ m va (src.take (chunk va src.length))) root τ := us.put
    have tab' : ∀ b ∈ tablePages (tables (put τ m va (src.take (chunk va src.length)))) root,
        ∀ k < PGSIZE,
        A (b * PGSIZE + k) := by
      rw [us.tablePages_put]
      exact tab
    refine (ih us' tab' huser (by omega)).mono ?_
    rintro r m' ⟨j, hj, rfl⟩
    rw [hdrop] at hj
    refine ⟨chunk va src.length + j, hj.round (fun k hk => ?_) hmax, ?_⟩
    · rw [hpage k (lt_of_lt_chunk hk)]
      rfl
    · rw [take_add, put_append, htake]
      by_cases hmore : chunk va src.length < src.length
      · rw [nextPage_eq hmax hmore]
      · have hnil : src.drop (chunk va src.length) = [] := drop_eq_nil_of_le (Nat.not_lt.1 hmore)
        rw [hnil, take_nil, put, put]

theorem copyinFrom_acts (user : ∀ k < len, ∀ a, τ (va + k) = some a → A a) (hr : len < rounds) :
    Acts A (copyinFrom (root * PGSIZE) rounds va len)
      (fun r m' => m = m' ∧ ∃ j, Reached τ va len r.1 j ∧ r.2 = get τ m va j) m := by
  induction rounds generalizing va len with
  | zero => cases hr
  | succ rounds ih =>
    rw [copyinFrom_succ]
    by_cases hlen : len = 0
    · rw [if_pos hlen, hlen]
      exact .ret ⟨rfl, 0, .done, rfl⟩
    rw [if_neg hlen]
    refine (us.round tab).bind ?_
    rintro pa _ ⟨rfl, ⟨rfl, hnone⟩ | ⟨hpa, hmax, hpage⟩⟩
    · exact .ret ⟨rfl, 0, .start hnone hlen, rfl⟩
    rw [if_neg hpa]
    have hpos : 0 < chunk va len := chunk_pos hlen
    have hmove : Acts A (memmoveIn (pa + (va - pgrounddown va)) (chunk va len))
        (fun bs m' => m = m' ∧ bs = get τ m va (chunk va len)) m := by
      refine memmoveIn_acts (fun k hk => hpage k (lt_of_lt_chunk hk)) fun k hk => ?_
      exact user k (hk.trans_le chunk_le) _ (hpage k (lt_of_lt_chunk hk))
    refine hmove.bind ?_
    rintro _ _ ⟨rfl, rfl⟩
    have huser (k : Nat) (hk : k < len - chunk va len) (a : Nat)
        (ha : τ (nextPage va + k) = some a) : A a := by
      rw [nextPage_eq hmax (add_lt_of_chunk hk), Nat.add_assoc] at ha
      exact user _ (by omega) a ha
    refine (ih huser (by omega)).bind ?_
    rintro ⟨r, rest⟩ _ ⟨rfl, j, hj, hbs⟩
    obtain rfl : rest = _ := hbs
    refine .ret ⟨rfl, chunk va len + j, hj.round (fun k hk => ?_) hmax, ?_⟩
    · rw [hpage k (lt_of_lt_chunk hk)]
      rfl
    · rw [get_add]
      by_cases hmore : chunk va len < len
      · rw [nextPage_eq hmax hmore]
      · have hj0 : j = 0 := by
          have := hj.le
          omega
        rw [hj0, get_zero, get_zero]

end

/-! ## Strings -/

/-- The user's byte at `va`. -/
def byteAt (τ : Nat → Option Nat) (m : Ram) (va : Nat) : Option UInt8 := (τ va).map m

/-- `n` bytes from `va` on, none of them a NUL. -/
structure Text (τ : Nat → Option Nat) (m : Ram) (va n : Nat) (bs : List UInt8) : Prop where
  nonNul : ∀ i < n, ∃ b, byteAt τ m (va + i) = some b ∧ b ≠ 0
  bytes : bs = get τ m va n

/-- The bytes from `va` on up to the first NUL, which is byte `k`. -/
structure Terminated (τ : Nat → Option Nat) (m : Ram) (va k : Nat) (bs : List UInt8) : Prop where
  nonNul : ∀ i < k, ∃ b, byteAt τ m (va + i) = some b ∧ b ≠ 0
  nul : byteAt τ m (va + k) = some 0
  bytes : bs = get τ m va (k + 1)

/-- How `copyinstr` ends. -/
def Ended (τ : Nat → Option Nat) (m : Ram) (va max : Nat) (r : Int × List UInt8) : Prop :=
  (r.1 = 0 ∧ ∃ k < max, Terminated τ m va k r.2) ∨
    (r.1 = -1 ∧ ∃ j ≤ max, Text τ m va j r.2 ∧ (j = max ∨ τ (va + j) = none))

section

variable {A : Nat → Prop} {m : Ram} {root va max n j k : Nat} {τ : Nat →
  Option Nat} {bs cs : List UInt8} {r : Int}

theorem Text.nil : Text τ m va 0 [] := ⟨nofun, rfl⟩

theorem Text.nonNul_add (h : Text τ m va n bs)
    (h' : ∀ i < j, ∃ b, byteAt τ m (va + n + i) = some b ∧ b ≠ 0) :
    ∀ i < n + j, ∃ b, byteAt τ m (va + i) = some b ∧ b ≠ 0 := by
  intro i hi
  by_cases hin : i < n
  · exact h.nonNul i hin
  · have := h' (i - n) (by omega)
    rwa [Nat.add_assoc, Nat.add_sub_cancel' (Nat.not_lt.1 hin)] at this

theorem Text.append (h : Text τ m va n bs) (h' : Text τ m (va + n) j cs) : Text τ m va (n + j)
    (bs ++ cs) where
  nonNul := h.nonNul_add h'.nonNul
  bytes := by rw [get_add, ← h.bytes, ← h'.bytes]

theorem Text.terminated (h : Text τ m va n bs) (h' : Terminated τ m (va + n) k cs) :
    Terminated τ m va (n + k) (bs ++ cs) where
  nonNul := h.nonNul_add h'.nonNul
  nul := by
    rw [← Nat.add_assoc]
    exact h'.nul
  bytes := by rw [Nat.add_assoc, get_add, ← h.bytes, ← h'.bytes]

theorem stringFrom_acts {a : Nat} (h : ∀ k < n, τ (va + k) = some (a + k))
    (hA : ∀ k < n, (∀ i < k, ∃ b, byteAt τ m (va + i) = some b ∧ b ≠ 0) → A (a + k)) :
    Acts A (stringFrom a n) (fun r m' => m = m' ∧
      (r.2 = true ∧ (∃ k < n, Terminated τ m va k r.1) ∨ r.2 = false ∧ Text τ m va n r.1)) m := by
  induction n generalizing va a with
  | zero => exact .ret ⟨rfl, .inr ⟨rfl, .nil⟩⟩
  | succ n ih =>
    have h0 : τ va = some a := h 0 (Nat.succ_pos _)
    have hbyte : byteAt τ m va = some (m a) := by rw [byteAt, h0, Option.map_some]
    have hget : [m a] = get τ m va 1 := by simp [get, h0]
    refine .load (hA 0 (Nat.succ_pos _) nofun) ?_
    by_cases hz : m a = 0
    · rw [if_pos hz]
      refine .ret ⟨rfl, .inl ⟨rfl, 0, Nat.succ_pos _, nofun, ?_, ?_⟩⟩
      · rw [Nat.add_zero, hbyte, hz]
      · rw [← hget, hz]
    · rw [if_neg hz]
      have hone : Text τ m va 1 [m a] := by
        refine ⟨fun i hi => ⟨m a, ?_, hz⟩, hget⟩
        rwa [Nat.lt_one_iff.1 hi, Nat.add_zero]
      have hnext (k : Nat) (hk : k < n) : τ (va + 1 + k) = some (a + 1 + k) := by
        rw [Nat.add_assoc, Nat.add_assoc, Nat.add_comm 1]
        exact h (k + 1) (Nat.succ_lt_succ hk)
      have hA' (k : Nat) (hk : k < n)
          (hnon : ∀ i < k, ∃ b, byteAt τ m (va + 1 + i) = some b ∧ b ≠ 0) : A (a + 1 + k) := by
        rw [Nat.add_assoc, Nat.add_comm 1]
        refine hA (k + 1) (Nat.succ_lt_succ hk) ?_
        have := hone.nonNul_add hnon
        rwa [Nat.add_comm 1] at this
      refine (ih hnext hA').bind ?_
      rintro ⟨bs, g⟩ _ ⟨rfl, ⟨rfl, k, hk, ht⟩ | ⟨rfl, ht⟩⟩
      · exact .ret ⟨rfl, .inl ⟨rfl, 1 + k, by omega, hone.terminated ht⟩⟩
      · have := hone.append ht
        rw [Nat.add_comm] at this
        exact .ret ⟨rfl, .inr ⟨rfl, this⟩⟩

theorem Ended.round (hmax : va < MAXVA) (ht : Text τ m va (chunk va max) bs)
    (h : Ended τ m (nextPage va) (max - chunk va max) (r, cs)) :
    Ended τ m va max (r, bs ++ cs) := by
  have hle : chunk va max ≤ max := chunk_le
  by_cases hmore : chunk va max < max
  · rw [nextPage_eq hmax hmore] at h
    rcases h with ⟨hr, k, hk, hterm⟩ | ⟨hr, j, hj, htext, hend⟩
    · exact .inl ⟨hr, chunk va max + k, by omega, ht.terminated hterm⟩
    · refine .inr ⟨hr, chunk va max + j, by omega, ht.append htext, ?_⟩
      rw [← Nat.add_assoc]
      exact hend.imp_left fun h => by omega
  · have heq : chunk va max = max := by omega
    rw [heq, Nat.sub_self] at h
    rcases h with ⟨-, k, hk, -⟩ | ⟨hr, j, hj, htext, -⟩
    · cases hk
    · obtain rfl : j = 0 := Nat.le_zero.1 hj
      obtain rfl : cs = [] := htext.bytes
      rw [heq] at ht
      rw [append_nil]
      exact .inr ⟨hr, max, le_rfl, ht, .inl rfl⟩

variable {rounds : Nat}

theorem copyinstrFrom_succ {pagetable : Nat} : copyinstrFrom pagetable (rounds + 1) va max =
    if max = 0 then pure (-1, [])
    else (walkaddr pagetable (pgrounddown va)).bind fun pa0 =>
      if pa0 = 0 then pure (-1, [])
      else (stringFrom (pa0 + (va - pgrounddown va)) (chunk va max)).bind fun s =>
        if s.2 then pure (0, s.1)
        else (copyinstrFrom pagetable rounds (nextPage va) (max - chunk va max)).bind fun r =>
          pure (r.1, s.1 ++ r.2) := rfl

variable (us : UserSpace m root τ) (tab : ∀ b ∈ tablePages (tables m) root, ∀ k < PGSIZE,
  A (b * PGSIZE + k))

include us tab

theorem copyinstrFrom_acts
    (user : ∀ k < max, (∀ i < k, ∃ b, byteAt τ m (va + i) = some b ∧ b ≠ 0) →
      ∀ a, τ (va + k) = some a → A a)
    (hr : max < rounds) :
    Acts A (copyinstrFrom (root * PGSIZE) rounds va max)
    (fun r m' => m = m' ∧ Ended τ m va max r) m := by
  induction rounds generalizing va max with
  | zero => cases hr
  | succ rounds ih =>
    rw [copyinstrFrom_succ]
    by_cases hlen : max = 0
    · rw [if_pos hlen]
      exact .ret ⟨rfl, .inr ⟨rfl, 0, Nat.zero_le _, .nil, .inl hlen.symm⟩⟩
    rw [if_neg hlen]
    refine (us.round tab).bind ?_
    rintro pa _ ⟨rfl, ⟨rfl, hnone⟩ | ⟨hpa, hmax, hpage⟩⟩
    · exact .ret ⟨rfl, .inr ⟨rfl, 0, Nat.zero_le _, .nil, .inr hnone⟩⟩
    rw [if_neg hpa]
    have hpos : 0 < chunk va max := chunk_pos hlen
    have hle : chunk va max ≤ max := chunk_le
    refine (stringFrom_acts (n := chunk va max) (fun k hk => hpage k (lt_of_lt_chunk hk))
      fun k hk hnon => ?_).bind ?_
    · exact user k (hk.trans_le hle) hnon _ (hpage k (lt_of_lt_chunk hk))
    · rintro ⟨bs, g⟩ _ ⟨rfl, ⟨rfl, k, hk, ht⟩ | ⟨rfl, ht⟩⟩
      · exact .ret ⟨rfl, .inl ⟨rfl, k, hk.trans_le hle, ht⟩⟩
      · have huser (k : Nat) (hk : k < max - chunk va max)
            (hnon : ∀ i < k, ∃ b, byteAt τ m (nextPage va + i) = some b ∧ b ≠ 0) (a : Nat)
            (ha : τ (nextPage va + k) = some a) : A a := by
          rw [nextPage_eq hmax (add_lt_of_chunk hk)] at hnon ha
          rw [Nat.add_assoc] at ha
          exact user _ (by omega) (ht.nonNul_add hnon) a ha
        refine (ih huser (by omega)).bind ?_
        rintro ⟨r, cs⟩ _ ⟨rfl, hend⟩
        exact .ret ⟨rfl, hend.round hmax ht⟩

end

/-! ## The page tables of processes -/

/-- A page table as `proc_pagetable`, `uvmalloc` and `uvmclear` build them, in memory. -/
structure Built (mem : Mem) (m : Ram) (root frame n : Nat) : Prop where
  own : ∃ u T R, Own mem (T + R) ∧ (image root frame n u * .cell frame).holds T mem.page ∧
    ∀ page ∈ T, tables m page = mem.pt page
  -- the trampoline is in the text of the kernel
  tramp : ∀ e, mapping (tables m) root trampoline = some e → e.page < mem.first

/-- What a page table of a process maps, and that the pages are apart. -/
structure Layout (m : Ram) (root frame n : Nat) (f : Nat → Option Pte) : Prop where
  map : ∀ v < maxVpn, mapping (tables m) root v = f v
  shape : Shape f frame n false
  user : ∀ v < n, ∀ e, f v = some e → e.page ∉ tablePages (tables m) root ∧ e.page ≠ frame ∧
    kernPage ≤ e.page
  inj : ∀ v < n, ∀ w < n, ∀ e e', f v = some e → f w = some e' → e.page = e'.page → v = w
  frame : frame ∉ tablePages (tables m) root
  tramp : ∀ e, f trampoline = some e → e.page ∉ tablePages (tables m) root ∧
    ∀ v < n, ∀ e', f v = some e' → e'.page ≠ e.page

theorem Built.layout {mem : Mem} {frame n : Nat} (h : Built mem m root frame n) :
    ∃ f, Layout m root frame n f := by
  obtain ⟨u, T, R, own, hT, hm⟩ := h.own
  have hpt : (image root frame n false * .cell frame).holds T fun page =>
      ⟨tables m page, mem.data page⟩ := by
    have hweak := mul_le_mul' image_weaken le_rfl T mem.page hT
    exact Asrt.frame _ hweak fun page hp => Page.ext (hm page hp) rfl
  obtain ⟨_, _, rfl, ⟨f, hs, T₁, T₂, rfl, ⟨rfl, hspace⟩, huser⟩, rfl⟩ := hpt
  have hT₂ := userPages_eq huser
  have hmem {v : Nat} {e : Pte} (hv : v < n) (he : f v = some e) : e.page ∈ T₂ := by
    rw [hT₂]
    refine Multiset.mem_coe.2 (mem_filterMap.2 ⟨v, mem_range.2 hv, ?_⟩)
    rw [he]
    rfl
  obtain ⟨hnd, -, hdisj⟩ := Multiset.nodup_add.1 (Multiset.nodup_add.1 own.nodup).1
  obtain ⟨-, hnd₂, hdisj'⟩ := Multiset.nodup_add.1 hnd
  have hram {a : Nat} (ha : a ∈ (tablePages (tables m) root : Multiset Nat) + T₂) : mem.first ≤ a :=
    (own.mem_ram (Multiset.mem_add.2 (.inl (Multiset.mem_add.2 (.inl ha))))).1
  have hmap : ∀ v < maxVpn, mapping (tables m) root v = f v :=
    fun v hv => hspace.map v (hv.trans maxVpn_lt)
  refine ⟨f, hmap, hs, fun v hv e he => ⟨fun ht => ?_, ?_, ?_⟩, ?_, ?_,
    fun e he => ⟨fun ht => ?_, ?_⟩⟩
  · exact Multiset.disjoint_left.1 hdisj' (Multiset.mem_coe.2 ht) (hmem hv he)
  · rintro hfr
    refine Multiset.disjoint_left.1 hdisj (Multiset.mem_add.2 (.inr (hmem hv he))) ?_
    rw [hfr]
    exact Multiset.mem_singleton_self frame
  · exact own.above.trans (hram (Multiset.mem_add.2 (.inr (hmem hv he))))
  · intro v hv w hw e e' he he' heq
    rw [hT₂, Multiset.coe_nodup, List.Nodup, pairwise_filterMap] at hnd₂
    by_contra hne
    have : Std.Symm fun v w => ∀ b, (f v).map Pte.page = some b →
        ∀ b', (f w).map Pte.page = some b' → b ≠ b' :=
      ⟨fun v w h b hb b' hb' hbb => h b' hb' b hb hbb.symm⟩
    refine hnd₂.forall (mem_range.2 hv) (mem_range.2 hw) hne e.page ?_ e'.page ?_ heq
    · rw [he]
      rfl
    · rw [he']
      rfl
  · exact fun ht =>
      Multiset.disjoint_left.1 hdisj (Multiset.mem_add.2 (.inl (Multiset.mem_coe.2 ht)))
      (Multiset.mem_singleton_self frame)
  · have := hram (Multiset.mem_add.2 (.inl (Multiset.mem_coe.2 ht)))
    have := h.tramp e ((hmap _ trampoline_lt).trans he)
    omega
  · intro v hv e' he' heq
    have := hram (Multiset.mem_add.2 (.inr (hmem hv he')))
    have := h.tramp e ((hmap _ trampoline_lt).trans he)
    omega

namespace Layout

variable {m : Ram} {root frame n va a : Nat} {f : Nat → Option Pte} (h : Layout m root frame n f)

include h

theorem phys_some (hp : phys m root va = some a) : va / PGSIZE < n ∧ va < MAXVA ∧
    ∃ e, f (va / PGSIZE) = some e ∧ e.u = true ∧ a = e.page * PGSIZE + va % PGSIZE := by
  rw [phys] at hp
  split at hp
  · rename_i hva
    have hv : va / PGSIZE < maxVpn := by
      simp only [maxVpn, PGSIZE, MAXVA] at *
      omega
    obtain ⟨e, he, hu⟩ := Option.bind_eq_some_iff.1 hp
    rw [h.map _ hv] at he
    split at hu
    · rename_i hue
      cases hu
      refine ⟨?_, hva, e, he, hue, rfl⟩
      by_contra hn
      by_cases hf : va / PGSIZE = trapframe
      · rw [hf, h.shape.frame] at he
        cases he
        cases hue
      · by_cases ht : va / PGSIZE = trampoline
        · obtain ⟨page, hpage⟩ := h.shape.tramp
          rw [ht, hpage] at he
          cases he
          cases hue
        · rw [h.shape.other _ (Nat.not_lt.1 hn) hf ht] at he
          cases he
    · cases hu
  · cases hp

theorem userSpace : UserSpace m root (phys m root) where
  phys := rfl
  inj := by
    intro va va' a ha ha'
    obtain ⟨hv, -, e, he, -, rfl⟩ := h.phys_some ha
    obtain ⟨hv', -, e', he', -, heq⟩ := h.phys_some ha'
    have hpage : e.page = e'.page := by
      simp only [PGSIZE] at heq
      omega
    have := h.inj _ hv _ hv' e e' he he' hpage
    simp only [PGSIZE] at *
    omega
  apart := by
    intro va a ha
    obtain ⟨hv, -, e, he, -, rfl⟩ := h.phys_some ha
    have hdiv : (e.page * PGSIZE + va % PGSIZE) / PGSIZE = e.page := by
      simp only [PGSIZE]
      omega
    rw [hdiv]
    exact (h.user _ hv e he).1
  pos := by
    intro va a ha
    obtain ⟨hv, -, e, he, -, rfl⟩ := h.phys_some ha
    have := (h.user _ hv e he).2.2
    simp only [kernPage, PGSIZE] at *
    omega

/-- A page that is mapped without `PTE_U` holds neither tables nor bytes of the user. -/
theorem apart {v : Nat} {e : Pte} (hv : v < maxVpn) (he : mapping (tables m) root v = some e)
    (hu : e.u = false) :
    e.page ∉ tablePages (tables m) root ∧ ∀ va a, phys m root va = some a →
    a / PGSIZE ≠ e.page := by
  rw [h.map v hv] at he
  have hdiv {e' : Pte} {va : Nat} : (e'.page * PGSIZE + va % PGSIZE) / PGSIZE = e'.page := by
    simp only [PGSIZE]
    omega
  by_cases hn : v < n
  · refine ⟨(h.user v hn e he).1, fun va a ha => ?_⟩
    obtain ⟨hw, -, e', he', hu', rfl⟩ := h.phys_some ha
    rw [hdiv]
    intro heq
    have := h.inj _ hw _ hn e' e he' he heq
    rw [this, he] at he'
    cases he'
    rw [hu] at hu'
    cases hu'
  · by_cases hf : v = trapframe
    · rw [hf, h.shape.frame] at he
      cases he
      refine ⟨h.frame, fun va a ha => ?_⟩
      obtain ⟨hw, -, e', he', -, rfl⟩ := h.phys_some ha
      rw [hdiv]
      exact (h.user _ hw e' he').2.1
    · by_cases ht : v = trampoline
      · subst ht
        refine ⟨(h.tramp e he).1, fun va a ha => ?_⟩
        obtain ⟨hw, -, e', he', -, rfl⟩ := h.phys_some ha
        rw [hdiv]
        exact (h.tramp e he).2 _ hw e' he'
      · rw [h.shape.other _ (Nat.not_lt.1 hn) hf ht] at he
        cases he

end Layout

/-- The byte at `a` is in a page of the page table. -/
def InTables (m : Ram) (root a : Nat) : Prop := a / PGSIZE ∈ tablePages (tables m) root

/-- The copies between the kernel and the user with page table `root`: what they return, what they
read and write, and that they do not panic. -/
structure Confined (m : Ram) (root : Nat) : Prop where
  /-- Returns 0 iff all bytes are the user's; a first part of them, then all, is overwritten, and no
  other. -/
  copyout : ∀ dstva < 2 ^ 64, ∀ src : List UInt8, src.length < 2 ^ 64 →
    Acts (fun a => InTables m root a ∨ ∃ k < src.length, phys m root (dstva + k) = some a)
      (copyout (root * PGSIZE) dstva src)
      (fun r m' => (r = 0 ∨ r = -1) ∧ (r = 0 ↔ ∀ k < src.length, (phys m root (dstva + k)).isSome) ∧
        phys m' root = phys m root ∧
        ∃ j ≤ src.length, (r = 0 → j = src.length) ∧
          (∀ k < j, ∃ a, phys m root (dstva + k) = some a ∧ some (m' a) = src[k]?) ∧
          ∀ a, (∀ k < j, phys m root (dstva + k) ≠ some a) → m' a = m a) m
  /-- Returns 0 iff all bytes are the user's, and then with these bytes. -/
  copyin : ∀ srcva < 2 ^ 64, ∀ len < 2 ^ 64,
    Acts (fun a => InTables m root a ∨ ∃ k < len, phys m root (srcva + k) = some a)
      (copyin (root * PGSIZE) srcva len)
      (fun r m' => m = m' ∧ (r.1 = 0 ∨ r.1 = -1) ∧
        (r.1 = 0 ↔ ∀ k < len, (phys m root (srcva + k)).isSome) ∧
        ∃ j ≤ len, (r.1 = 0 → j = len) ∧ (∀ k < j, (phys m root (srcva + k)).isSome) ∧
          r.2 = get (phys m root) m srcva j) m
  /-- Returns 0 iff there is a NUL and all bytes up to it are the user's, and then with the bytes up
  to the first NUL; no byte behind it is read. -/
  copyinstr : ∀ srcva < 2 ^ 64, ∀ max < 2 ^ 64,
    Acts (fun a => InTables m root a ∨ ∃ k < max, phys m root (srcva + k) = some a ∧
        ∀ i < k, byteAt (phys m root) m (srcva + i) ≠ some 0)
      (copyinstr (root * PGSIZE) srcva max)
      (fun r m' => m = m' ∧ (r.1 = 0 ∨ r.1 = -1) ∧
        (r.1 = 0 ↔ ∃ k < max, byteAt (phys m root) m (srcva + k) = some 0 ∧
          ∀ i ≤ k, (phys m root (srcva + i)).isSome) ∧
        (r.1 = 0 → ∃ k < max, Terminated (phys m root) m srcva k r.2)) m
  /-- The trapframe and the trampoline are not the user's. -/
  frames : ∀ v, v = trapframe ∨ v = trampoline →
    ∃ e, mapping (tables m) root v = some e ∧ e.u = false
  /-- No access is to a page that is mapped without `PTE_U`: trapframe, trampoline and the guard
  page. -/
  apart : ∀ v < maxVpn, ∀ e, mapping (tables m) root v = some e → e.u = false →
    ∀ a, (InTables m root a ∨ ∃ va, phys m root va = some a) → a / PGSIZE ≠ e.page

theorem Ended.iff {τ : Nat → Option Nat} {max : Nat} {r : Int × List UInt8}
    (h : Ended τ m va max r) :
    r.1 = 0 ↔ ∃ k < max, byteAt τ m (va + k) = some 0 ∧ ∀ i ≤ k, (τ (va + i)).isSome := by
  have mapped {v : Nat} {b : UInt8} (hb : byteAt τ m v = some b) : (τ v).isSome := by
    obtain ⟨a, ha, -⟩ := Option.map_eq_some_iff.1 hb
    rw [ha]
    rfl
  rcases h with ⟨hr, k, hk, ht⟩ | ⟨hr, j, hj, ht, hend⟩
  · refine ⟨fun _ => ⟨k, hk, ht.nul, fun i hi => ?_⟩, fun _ => hr⟩
    rcases hi.eq_or_lt with rfl | hi
    · exact mapped ht.nul
    · obtain ⟨b, hb, -⟩ := ht.nonNul i hi
      exact mapped hb
  · refine ⟨fun h0 => absurd (hr.symm.trans h0) (by decide), ?_⟩
    rintro ⟨k, hk, hnul, hall⟩
    by_cases hkj : k < j
    · obtain ⟨b, hb, hne⟩ := ht.nonNul k hkj
      rw [hnul] at hb
      cases hb
      exact absurd rfl hne
    · have hnone : τ (va + j) = none := hend.resolve_left (by omega)
      have := hall j (by omega)
      rw [hnone] at this
      cases this

/-- Copies between the kernel and user space are confined to the memory of the user. -/
theorem copies_confined {mem : Mem} {m : Ram} {root frame n : Nat} (h : Built mem m root frame n) :
    Confined m root := by
  obtain ⟨f, hl⟩ := h.layout
  have us := hl.userSpace
  have tab (b : Nat) (hb : b ∈ tablePages (tables m) root) (k : Nat) (hk : k < PGSIZE) :
      InTables m root (b * PGSIZE + k) := by
    have hdiv : (b * PGSIZE + k) / PGSIZE = b := by
      simp only [PGSIZE] at *
      omega
    rwa [InTables, hdiv]
  refine ⟨fun dstva _ src _ => ?_, fun srcva _ len _ => ?_, fun srcva _ max _ => ?_, fun v hv => ?_,
    fun v hv e he hu a ha => ?_⟩
  · refine (copyoutFrom_acts us (fun b hb k hk => .inl (tab b hb k hk))
      (fun k hk a ha => .inr ⟨k, hk, ha⟩) (Nat.lt_succ_self _)).mono ?_
    rintro r m' ⟨j, hj, rfl⟩
    have htake : (src.take j).length = j := length_take_of_le hj.le
    refine ⟨hj.result.imp And.left And.left, hj.iff, us.put.phys, j, hj.le, ?_, fun k hk => ?_,
      fun a ha => ?_⟩
    · rintro rfl
      rcases hj.result with ⟨-, hj⟩ | ⟨h0, -⟩
      · exact hj
      · cases h0
    · have hmapped : ∀ i < (src.take j).length, (phys m root (dstva + i)).isSome := by
        rw [htake]
        exact hj.mapped
      obtain ⟨a, ha, hb⟩ := us.put_getElem hmapped (htake.symm ▸ hk)
      refine ⟨a, ha, ?_⟩
      rw [hb, getElem?_take_of_lt hk]
    · exact put_of_ne fun k hk => ha k (htake ▸ hk)
  · refine (copyinFrom_acts us (fun b hb k hk => .inl (tab b hb k hk))
      (fun k hk a ha => .inr ⟨k, hk, ha⟩) (Nat.lt_succ_self _)).mono ?_
    rintro r m' ⟨rfl, j, hj, hbs⟩
    refine ⟨rfl, hj.result.imp And.left And.left, hj.iff, j, hj.le, fun h0 => ?_, hj.mapped, hbs⟩
    rcases hj.result with ⟨-, hj⟩ | ⟨hr, -⟩
    · exact hj
    · rw [h0] at hr
      cases hr
  · have user (k : Nat) (hk : k < max) (hnon : ∀ i < k, ∃ b, byteAt (phys m root) m (srcva + i) =
        some b ∧ b ≠ 0)
        (a : Nat) (ha : phys m root (srcva + k) = some a) :
        InTables m root a ∨ ∃ k < max, phys m root (srcva + k) = some a ∧
          ∀ i < k, byteAt (phys m root) m (srcva + i) ≠ some 0 := by
      refine .inr ⟨k, hk, ha, fun i hi h0 => ?_⟩
      obtain ⟨b, hb, hne⟩ := hnon i hi
      rw [h0] at hb
      cases hb
      exact hne rfl
    refine (copyinstrFrom_acts us (fun b hb k hk => .inl (tab b hb k hk)) user
      (Nat.lt_succ_self _)).mono ?_
    rintro r m' ⟨rfl, hend⟩
    refine ⟨rfl, hend.imp And.left And.left, hend.iff, fun h0 => ?_⟩
    rcases hend with ⟨-, hterm⟩ | ⟨hr, -⟩
    · exact hterm
    · rw [h0] at hr
      cases hr
  · rcases hv with rfl | rfl
    · exact ⟨_, (hl.map _ (trapframe_lt.trans trampoline_lt)).trans hl.shape.frame, rfl⟩
    · obtain ⟨page, hpage⟩ := hl.shape.tramp
      exact ⟨_, (hl.map _ trampoline_lt).trans hpage, rfl⟩
  · obtain ⟨htab, huser⟩ := hl.apart hv he hu
    rcases ha with ha | ⟨va, ha⟩
    · intro heq
      rw [InTables, heq] at ha
      exact htab ha
    · exact huser va a ha

/-! ## A page table in memory -/

theorem ofWord_bits {e : Pte} (h : e.page < 2 ^ 52) : Pte.ofWord e.bits = e := by
  obtain ⟨page, v, r, w, x, u⟩ := e
  dsimp only at h
  rw [Pte.ofWord, Pte.bits, Pte.mk.injEq]
  simp only [Nat.testBit_eq_decide_div_mod_eq]
  refine ⟨?_, ?_, ?_, ?_, ?_, ?_⟩
  · have := v.toNat_le
    have := r.toNat_le
    have := w.toNat_le
    have := x.toNat_le
    have := u.toNat_le
    omega
  all_goals
    cases v <;> cases r <;> cases w <;> cases x <;> cases u <;> simp only [Bool.toNat_false,
      Bool.toNat_true, decide_eq_true_eq, decide_eq_false_iff_not] <;> omega

theorem neZero_entries : NeZero 512 := ⟨by decide⟩

/-- Memory with the page tables `pt`. -/
def ramOf (pt : Tables) : Ram := fun a =>
  UInt8.ofNat ((pt (a / PGSIZE) (@Fin.ofNat 512 neZero_entries (a % PGSIZE / 8))).bits /
    256 ^ (a % 8))

theorem tables_ramOf {pt : Tables} {page : Nat} (h : ∀ i, (pt page i).page < 2 ^ 52) :
    tables (ramOf pt) page = pt page := by
  funext i
  have hi := i.isLt
  have hread : Bytes.read (ramOf pt) 8 (page * PGSIZE + 8 * i) = (pt page i).bits := by
    have hlt : (pt page i).bits < 256 ^ 8 := by
      have := h i
      have := (pt page i).v.toNat_le
      have := (pt page i).r.toNat_le
      have := (pt page i).w.toNat_le
      have := (pt page i).x.toNat_le
      have := (pt page i).u.toNat_le
      simp only [Pte.bits]
      omega
    rw [← Nat.mod_eq_of_lt hlt, ← Bytes.read_write_self (ramOf pt) 8 (page * PGSIZE + 8 * i)
      ((pt page i).bits)]
    refine Bytes.read_congr fun a ha ha' => ?_
    have hpage : a / PGSIZE = page := by
      simp only [PGSIZE] at *
      omega
    have hix : Fin.ofNat 512 (a % PGSIZE / 8) = i := by
      refine Fin.ext ?_
      simp only [Fin.ofNat, PGSIZE] at *
      omega
    have hoff : a % 8 = a - (page * PGSIZE + 8 * i) := by
      simp only [PGSIZE] at *
      omega
    rw [Bytes.write, if_pos ⟨ha, ha'⟩, ramOf, hpage, hix, hoff]
  rw [tables, hread, ofWord_bits (h i)]

/-- A page table with a guard page and a page for the user. -/
def guarded : Vm.Code (Option (Nat × Nat)) := do
  let f ← kalloc
  match f with
  | none => pure none
  | some frame =>
    let r ← procPagetable frame
    match r with
    | none => pure none
    | some root =>
      let sz ← uvmalloc root 0 (2 * PGSIZE)
      if sz = 0 then pure none
      else
        uvmclear root 0
        pure (some (root, frame))

theorem guarded_spec : Triple 1 guarded fun r => match r with
    | none => .ex fun S => .cells S
    | some (root, frame) => image root frame 2 false * .cell frame := by
  have drop {P : Pages} : P ≤ .ex fun S => .cells S := fun T _ _ => ⟨T, rfl⟩
  refine kalloc_spec.bind fun f => ?_
  cases f with
  | none => exact .ret drop
  | some frame =>
    refine procPagetable_spec.frame_one.bind fun r => ?_
    cases r with
    | none => exact .ret drop
    | some root =>
      have halloc := (uvmalloc_spec 0 (2 * PGSIZE) root frame true).frame (F := .cell frame)
      refine halloc.bind fun sz => ?_
      refine Triple.given_mul fun hsz => ?_
      by_cases h0 : sz = 0
      · rw [if_pos h0, if_pos h0]
        exact .ret drop
      · rw [if_neg h0, if_neg h0]
        have hsz : sz = 2 * PGSIZE := hsz.resolve_left h0
        have hclear : Triple (image root frame 2 true) (uvmclear root 0) fun _ =>
            image root frame 2 false :=
          uvmclear_spec (by decide)
        refine (hclear.frame.conseq ?_ fun _ => le_rfl).bind fun _ => .ret le_rfl
        rw [hsz]
        exact le_rfl

/-- Memory with ten free pages. -/
def tenPages : Mem where
  first := stopPage - 10
  tramp := kernPage
  pt _ _ := junk1
  data _ _ := 1
  freelist := range' (stopPage - 10) 10
  fails _ := false
  kallocs := 0

theorem own_tenPages : Own tenPages (0 + 0) where
  above := by decide
  cover := by decide

/-- `tenPages` without processes and files. -/
def tenPagesState : Vm.St :=
  ⟨tenPages, ⟨fun _ => .zero, fun _ => ⟨0, .none, false⟩, fun _ => ⟨false, false⟩⟩⟩

/-- `guarded` succeeds, the trampoline is mapped to the kernel, and the entries fit into words. -/
def guardedEnds : Bool :=
  match guarded.run Vm.step tenPagesState with
  | .ok (some (root, _), s) =>
    mapping s.mem.pt root trampoline == some { trampPerm with page := kernPage, v := true } &&
      s.mem.first == stopPage - 10 &&
      (range' (stopPage - 10) 10).all fun page => (finRange 512).all fun i =>
        (s.mem.pt page i).page < 2 ^ 52
  | _ => false

theorem guardedEnds_eq : guardedEnds = true := by decide +kernel

theorem built_guarded : ∃ mem root frame, Built mem (ramOf mem.pt) root frame 2 := by
  have hwp := guarded_spec tenPagesState.kern tenPages 0 0 own_tenPages rfl
  have hend := guardedEnds_eq
  rw [guardedEnds] at hend
  split at hend
  · rename_i root frame s hrun
    simp only [Bool.and_eq_true, beq_iff_eq, all_eq_true, decide_eq_true_eq] at hend
    obtain ⟨⟨htramp, hfirst⟩, hfit⟩ := hend
    obtain ⟨-, T, own, -, hT⟩ := hwp.of_run hrun
    have hpt : ∀ page ∈ T, tables (ramOf s.mem.pt) page = s.mem.pt page := by
      intro page hp
      have hram := own.mem_ram (Multiset.mem_add.2 (.inl hp))
      rw [hfirst] at hram
      have hle : (10 : Nat) ≤ stopPage := by decide
      refine tables_ramOf fun i => hfit page (mem_range'_1.2 ⟨hram.1, by omega⟩) i (mem_finRange i)
    refine ⟨s.mem, root, frame, ⟨false, T, 0, own, hT, hpt⟩, fun e he => ?_⟩
    have hsame : mapping (tables (ramOf s.mem.pt)) root trampoline =
        mapping s.mem.pt root trampoline := by
      refine Radix.lookup_congr fun b hb => hpt b ?_
      obtain ⟨_, _, rfl, ⟨f, -, T₁, T₂, rfl, ⟨rfl, -⟩, -⟩, -⟩ := hT
      exact Multiset.mem_add.2 (.inl (Multiset.mem_add.2 (.inl (Multiset.mem_coe.2 hb))))
    rw [hsame, htramp] at he
    cases he
    rw [hfirst]
    decide
  · cases hend

/-- The copies with a page table that has a guard page and a page for the user. -/
theorem copies_confined_guarded : ∃ mem root frame, Built mem (ramOf mem.pt) root frame 2 ∧
    Confined (ramOf mem.pt) root := by
  obtain ⟨mem, root, frame, h⟩ := built_guarded
  exact ⟨mem, root, frame, h, copies_confined h⟩

end Xv6.Phys
