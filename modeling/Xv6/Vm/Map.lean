import Xv6.Vm.User

/-!
# Page tables are finite maps

A page table that `uvmcreate`, `mappages`, `uvmunmap` and `uvmclear` have built is a map from the
pages below `MAXVA` to entries: `walk` finds the place of one page, `mappages` adds entries,
`uvmunmap` takes some out, and `freewalk` gives back the pages of a table with an empty map, each
once.

Between the calls the rest of the kernel runs: pages are allocated and freed, other page tables
change. Addresses and sizes are 64-bit numbers. A call that is to free the pages it unmaps gets
pages that may be freed: they are allocated, they are not pages of the table itself, and no page
occurs twice.
-/

namespace Xv6.Vm

open Lib Function Multiset

/-! ## The calls, in 64-bit arithmetic -/

/-- How often the loop of `mappages` goes on, until it is at the page of `va + size - 1`. -/
def mapCount (va size : Nat) : Nat :=
  ((va + size - 1) % 2 ^ 64 / PGSIZE + 2 ^ 52 - va / PGSIZE) % 2 ^ 52

def mappages64 (root va size page : Nat) (perm : Pte) : Code Bool :=
  if size = 0 then do
    op (.panic .mappagesSize)
    pure false
  else mapFrom root perm (mapCount va size) (va / PGSIZE) page

/-- How many pages there are from `va` up to `va + npages*PGSIZE`. -/
def unmapCount (va npages : Nat) : Nat := ((va + npages * PGSIZE) % 2 ^ 64 - va) / PGSIZE

def uvmunmap64 (root va npages : Nat) (free : Bool) : Code Unit :=
  if va % PGSIZE ≠ 0 then op (.panic .unmapAligned)
  else unmapFrom root free (unmapCount va npages) (va / PGSIZE)

theorem mapCount_eq {va size : Nat} (hs : 0 < size) (h : va + size ≤ 2 ^ 64) :
    mapCount va size = (va + size - 1) / PGSIZE - va / PGSIZE := by
  simp only [mapCount, PGSIZE]
  omega

theorem mappages64_eq {root va size page : Nat} {perm : Pte} (h : va + size ≤ 2 ^ 64) :
    mappages64 root va size page perm = mappages root va size page perm := by
  unfold mappages64 mappages
  split
  · rfl
  · rw [mapCount_eq (by omega) h]

theorem unmapCount_eq {va npages : Nat} (h : va + npages * PGSIZE < 2 ^ 64) :
    unmapCount va npages = npages := by
  simp only [unmapCount, PGSIZE] at *
  omega

theorem uvmunmap64_eq {root va npages : Nat} {free : Bool} (h : va + npages * PGSIZE < 2 ^ 64) :
    uvmunmap64 root va npages free = uvmunmap root va npages free := by
  unfold uvmunmap64 uvmunmap
  rw [unmapCount_eq h]

/-! ## Tables that the kernel builds -/

/-- The map of a page table: the pages below `MAXVA` and their entries. -/
def pageMap (s : St) (root vpn : Nat) : Option Pte :=
  if vpn < maxVpn then mapping s.mem.pt root vpn else none

/-- The pages that are mapped from `a` on, `n` virtual pages. -/
def targets (f : Nat → Option Pte) (a n : Nat) : Multiset Nat :=
  ∑ v ∈ Finset.Ico a (a + n), (f v).elim 0 fun e => {e.page}

/-- Pages that may be freed: they are allocated and no pages of the table, and none occurs twice. -/
def Freeable (s : St) (root a n : Nat) : Prop :=
  ∃ R, Own s.mem (tablePages s.mem.pt root + (targets (pageMap s root) a n + R))

/-- The page table at `root` was made by `uvmcreate` and calls of `mappages`, `uvmunmap` and
`uvmclear`, while the rest of the kernel did not touch its pages. -/
inductive Built (root : Nat) : St → Prop
  | uvmcreate {s s' : St} (own : ∃ R, Own s.mem R)
      (run : uvmcreate.run step s = .ok (some root, s')) :
      Built root s'
  | mappages {s s' : St} {va size page : Nat} {perm : Pte} {ok : Bool} (table : Built root s)
      (run : (mappages64 root va size page perm).run step s = .ok (ok, s')) : Built root s'
  | uvmunmap {s s' : St} {va npages : Nat} {free : Bool} (table : Built root s)
      (may : free = true → Freeable s root (va / PGSIZE) (unmapCount va npages))
      (run : (uvmunmap64 root va npages free).run step s = .ok ((), s')) : Built root s'
  | uvmclear {s s' : St} {va : Nat} (table : Built root s)
      (run : (uvmclear root va).run step s = .ok ((), s')) : Built root s'
  | other {s s' : St} (table : Built root s)
      (same : ∀ b ∈ tablePages s.mem.pt root, s'.mem.pt b = s.mem.pt b)
      (own : ∃ R, Own s'.mem (tablePages s.mem.pt root + R)) : Built root s'

/-- What the tables have in common. -/
structure Table (s : St) (root : Nat) : Prop where
  own : ∃ R, Own s.mem (tablePages s.mem.pt root + R)
  space : Space s.mem.pt root (pageMap s root) fun _ => True

section

variable {root va vpn a n : Nat} {s s' : St} {f : Nat →
  Option Pte} {free : Bool} {T R : Multiset Nat}
  {tol : Option Panic → Prop}

theorem pageMap_high (h : maxVpn ≤ vpn) : pageMap s root vpn = none := if_neg (Nat.not_lt.2 h)

/-- A state with a space is one with a table and its map. -/
theorem Table.of_space (hO : Own s.mem (T + R))
    (h : (Vm.space root f fun _ => True).holds T s.mem.page)
    (high : ∀ v, maxVpn ≤ v → f v = none) : Table s root ∧ pageMap s root = f := by
  obtain ⟨rfl, h⟩ := h
  have hmap : pageMap s root = f := by
    funext v
    by_cases hv : v < maxVpn
    · exact (if_pos hv).trans (h.map v (hv.trans maxVpn_lt))
    · rw [pageMap_high (Nat.not_lt.1 hv), high v (Nat.not_lt.1 hv)]
  exact ⟨⟨⟨R, hO⟩, hmap.symm ▸ h⟩, hmap⟩

/-- What a call leaves that works on the table and on the pages of `F`. -/
theorem Table.post {α : Type} {x : Code α} {F : Pages} {Q : α → Pages} {c : α} (h : Table s root)
    (hO : Own s.mem (tablePages s.mem.pt root + (T + R))) (hF : F.holds T s.mem.page)
    (hx : Triple (Vm.space root (pageMap s root) (fun _ => True) * F) x Q tol)
    (hr : x.run step s = .ok (c, s')) : ∃ T', Own s'.mem (T' + R) ∧ (Q c).holds T' s'.mem.page := by
  rw [← add_assoc] at hO
  have hP : (Vm.space root (pageMap s root) (fun _ => True) * F).holds
      (tablePages s.mem.pt root + T) s.mem.page :=
    ⟨_, T, rfl, ⟨rfl, h.space⟩, hF⟩
  obtain ⟨-, T', hO', -, hQ⟩ := (hx s.kern s.mem _ R hO hP).of_run hr
  exact ⟨T', hO', hQ⟩

theorem Table.exists_run {α : Type} {x : Code α} {F : Pages} {Q : α → Pages} (h : Table s root)
    (hO : Own s.mem (tablePages s.mem.pt root + (T + R))) (hF : F.holds T s.mem.page)
    (hx : Triple (Vm.space root (pageMap s root) (fun _ => True) * F) x Q) :
    ∃ c s', x.run step s = .ok (c, s') := by
  rw [← add_assoc] at hO
  have hP : (Vm.space root (pageMap s root) (fun _ => True) * F).holds
      (tablePages s.mem.pt root + T) s.mem.page :=
    ⟨_, T, rfl, ⟨rfl, h.space⟩, hF⟩
  obtain ⟨c, s', hr, -⟩ := (hx s.kern s.mem _ R hO hP).exists_run
  exact ⟨c, s', hr⟩

theorem Table.alone (h : Table s root) : ∃ R, Own s.mem (tablePages s.mem.pt root + (0 + R)) := by
  obtain ⟨R, hO⟩ := h.own
  exact ⟨R, (zero_add R).symm ▸ hO⟩

/-! ## `mappages` -/

theorem Table.mapFrom {perm : Pte} {page k : Nat} {ok : Bool} (h : Table s root)
    (hr : (Vm.mapFrom root perm k a page).run step s = .ok (ok, s')) :
    ∃ j, (j ≤ k + 1 ∧ (ok = true ↔ j = k + 1)) ∧ Table s' root ∧
      pageMap s' root = mapped (pageMap s root) perm page a j := by
  obtain ⟨R, hO⟩ := h.alone
  have hx : Triple (Vm.space root (pageMap s root) fun _ => True) (Vm.mapFrom root perm k a page)
      (mapPost root (pageMap s root) perm k a page fun _ => True) fun _ => True :=
    mapFrom_spec (fun _ => trivial) (.inr fun _ => trivial)
  obtain ⟨T', hO', j, ⟨hj, hok, hrange⟩, hs⟩ :=
    h.post hO rfl (hx.conseq (mul_one _).le fun _ => le_rfl) hr
  refine ⟨j, ⟨hj, hok⟩, Table.of_space hO' hs fun v hv => ?_⟩
  have hout : ¬(a ≤ v ∧ v < a + j) := fun hv' => Nat.not_lt.2 hv (hrange v hv'.1 hv'.2).1
  exact (if_neg hout).trans (pageMap_high hv)

theorem Table.mapFrom_returns {perm : Pte} {page k : Nat} (h : Table s root)
    (unmapped : ∀ v, a ≤ v → v ≤ a + k → v < maxVpn ∧ pageMap s root v = none) :
    ∃ ok s', (Vm.mapFrom root perm k a page).run step s = .ok (ok, s') := by
  obtain ⟨R, hO⟩ := h.alone
  have hx : Triple (Vm.space root (pageMap s root) fun _ => True) (Vm.mapFrom root perm k a page)
      (mapPost root (pageMap s root) perm k a page fun _ => True) :=
    mapFrom_spec (fun _ => trivial) (.inl unmapped)
  exact h.exists_run hO rfl (hx.conseq (mul_one _).le fun _ => le_rfl)

/-! ## `uvmunmap` -/

/-- The pages that `uvmunmap` frees. -/
def freed (f : Nat → Option Pte) (free : Bool) (a n : Nat) : Multiset Nat :=
  if free then targets f a n else 0

theorem held_holds {c : Nat → Page} :
    (∏ v ∈ Finset.Ico a (a + n), held free (f v)).holds (freed f free a n) c := by
  cases free with
  | false =>
    have hone : ∏ v ∈ Finset.Ico a (a + n), held false (f v) = 1 :=
      Finset.prod_eq_one fun _ _ => rfl
    rw [hone]
    rfl
  | true =>
    refine Asrt.holds_prod.2 ⟨fun v => (f v).elim 0 fun e => {e.page}, rfl, fun v _ => ?_⟩
    beta_reduce
    cases f v with
    | none => rfl
    | some e => rfl

theorem Table.may (h : Table s root) (may : free = true → Freeable s root a n) :
    ∃ R, Own s.mem (tablePages s.mem.pt root + (freed (pageMap s root) free a n + R)) := by
  cases free with
  | false => exact h.alone
  | true => exact may rfl

theorem Table.unmapFrom (h : Table s root) (may : free = true → Freeable s root a n)
    (hr : (Vm.unmapFrom root free n a).run step s = .ok ((), s')) :
    Unmaps (pageMap s root) a n ∧ Table s' root ∧
    pageMap s' root = without (pageMap s root) a (a + n) := by
  obtain ⟨R, hO⟩ := h.may may
  have hall : (∀ v, a ≤ v → v < a + n → v < maxVpn ∧ ∃ e, pageMap s root v = some e ∧
      (True → ¬e.IsNode)) ∨
      ∀ _ : Option Panic, True := .inr fun _ => trivial
  obtain ⟨T', hO', hall, hs⟩ := h.post hO held_holds (unmapFrom_removes hall) hr
  refine ⟨hall, Table.of_space hO' hs fun v hv => ?_⟩
  unfold without
  rw [pageMap_high hv, ite_self]

theorem Table.unmapFrom_returns (h : Table s root) (may : free = true → Freeable s root a n)
    (all : Unmaps (pageMap s root) a n) :
    ∃ s', (Vm.unmapFrom root free n a).run step s = .ok ((), s') := by
  obtain ⟨R, hO⟩ := h.may may
  have hall : (∀ v, a ≤ v → v < a + n → v < maxVpn ∧ ∃ e, pageMap s root v = some e ∧
      (True → ¬e.IsNode)) ∨
      ∀ _ : Option Panic, False := .inl fun v h₁ h₂ => by
    obtain ⟨hv, e, he, hnode⟩ := all v h₁ h₂
    exact ⟨hv, e, he, fun _ => hnode⟩
  obtain ⟨_, s', hr⟩ := h.exists_run hO held_holds (unmapFrom_removes hall)
  exact ⟨s', hr⟩

/-! ## `uvmclear` -/

/-- The map after `uvmclear` of a page. -/
def cleared (f : Nat → Option Pte) (vpn : Nat) : Nat → Option Pte :=
  update f vpn ((f vpn).map fun e => { e with u := false })

theorem uvmclear_clears {L : Pte → Prop} (hL : ∀ e : Pte, L e → L { e with u := false })
    (mapped : va / PGSIZE < maxVpn ∧ (f (va / PGSIZE)).isSome ∨ ∀ e, tol e) :
    Triple (space root f L) (uvmclear root va)
      (fun _ => .given (va / PGSIZE < maxVpn) (space root (cleared f (va / PGSIZE)) L)) tol := by
  unfold uvmclear
  by_cases hv : va / PGSIZE < maxVpn
  swap
  · rw [walk, if_pos (Nat.not_lt.1 hv)]
    exact .panic (mapped.resolve_left (fun h => hv h.1) _)
  refine (walk_spec hv).tolerate.bind fun r => ?_
  cases r with
  | none =>
    refine .given fun hnone => .panic (mapped.resolve_left (fun h => ?_) _)
    have := h.2
    rw [hnone rfl] at this
    cases this
  | some loc =>
    refine (readPte_spec hv).tolerate.bind fun e => .given fun he => ?_
    obtain ⟨he, hl⟩ := he
    have hw :
        Triple (spaceAt root f (va / PGSIZE) loc L) (op (.setPte loc.1 loc.2 { e with u := false }))
        (fun _ => space root
          (update f (va / PGSIZE) (if e.v then some { e with u := false } else none)) L) tol :=
      (writePte_spec hv fun h => hL e (hl h)).tolerate
    refine hw.conseq le_rfl fun _ T pt h => ⟨hv, ?_⟩
    have hsame : (if e.v then some { e with u := false } else none) =
        (f (va / PGSIZE)).map fun e => { e with u := false } := by
      rw [he]
      split <;> rfl
    rw [hsame] at h
    exact h

theorem Table.uvmclear (h : Table s root) (hr : (Vm.uvmclear root va).run step s = .ok ((), s')) :
    Table s' root ∧ pageMap s' root = cleared (pageMap s root) (va / PGSIZE) := by
  obtain ⟨R, hO⟩ := h.alone
  have hx : Triple (Vm.space root (pageMap s root) fun _ => True) (Vm.uvmclear root va) _
      fun _ => True :=
    uvmclear_clears (fun _ _ => trivial) (.inr fun _ => trivial)
  obtain ⟨T', hO', hv, hs⟩ := h.post hO rfl (hx.conseq (mul_one _).le fun _ => le_rfl) hr
  refine Table.of_space hO' hs fun w hw => ?_
  rw [cleared, update_of_ne (by omega)]
  exact pageMap_high hw

theorem Table.uvmclear_returns (h : Table s root) (hv : va < MAXVA)
    (mapped : (pageMap s root (va / PGSIZE)).isSome) :
    ∃ s', (Vm.uvmclear root va).run step s = .ok ((), s') := by
  obtain ⟨R, hO⟩ := h.alone
  have hlt : va / PGSIZE < maxVpn := Nat.div_lt_div_of_lt_of_dvd (by decide) hv
  have hx : Triple (Vm.space root (pageMap s root) fun _ => True) (Vm.uvmclear root va) _ fun _ =>
      False :=
    uvmclear_clears (fun _ _ => trivial) (.inl ⟨hlt, mapped⟩)
  obtain ⟨_, s', hr⟩ := h.exists_run hO rfl (hx.conseq (mul_one _).le fun _ => le_rfl)
  exact ⟨s', hr⟩

/-! ## `walk` and `freewalk` -/

theorem walkFrom_run {ℓ : Nat} :
    (walkFrom vpn false ℓ a).run step s = .ok (Radix.locate Pte.ptr s.mem.pt ℓ a (px vpn), s) := by
  induction ℓ generalizing a with
  | zero => rfl
  | succ ℓ ih =>
    show (if (s.mem.pt a (px vpn (ℓ + 1))).v then _ else _ : Code _).run step s = _
    rw [Radix.locate, Pte.ptr]
    split
    · exact ih
    · rfl

theorem walk_run (hv : vpn < maxVpn) :
    (walk root vpn false).run step s = .ok (Radix.locate Pte.ptr s.mem.pt 2 root (px vpn), s) := by
  rw [walk, if_neg (Nat.not_le.2 hv)]
  exact walkFrom_run

theorem Table.freewalk (h : Table s root) (empty : pageMap s root = fun _ => none) :
    ∃ s', (Vm.freewalk 3 root).run step s = .ok ((), s') ∧
      s'.mem.freelist.Perm (tablePages s.mem.pt root ++ s.mem.freelist) := by
  obtain ⟨R, hO⟩ := h.own
  have hx : Triple (Vm.space root (pageMap s root) fun _ => True) (Vm.freewalk 3 root) fun _ => 1 :=
    freewalk_spec.conseq (bare_of_space fun v _ => congrFun empty v) fun _ => le_rfl
  obtain ⟨_, s', hr, -, T', hO', -, rfl⟩ := (hx s.kern s.mem _ R hO ⟨rfl, h.space⟩).exists_run
  have hram : s'.mem.ram = s.mem.ram :=
    congrArg (fun a => (Finset.Ico a stopPage).val) (run_first hr)
  have hcover : (s'.mem.freelist : Multiset Nat) + R =
      (tablePages s.mem.pt root : Multiset Nat) + s.mem.freelist + R := by
    rw [← zero_add R, hO'.cover, hram, zero_add, ← hO.cover, add_left_comm, add_assoc]
  refine ⟨s', hr, coe_eq_coe.1 ?_⟩
  rw [← coe_add]
  exact add_right_cancel hcover

theorem Built.table (h : Built root s) : Table s root := by
  induction h with
  | uvmcreate own run =>
    obtain ⟨R, hO⟩ := own
    rw [← zero_add R] at hO
    obtain ⟨-, T', hO', -, hs⟩ := (uvmcreate_spec _ _ 0 R hO rfl).of_run run
    exact (Table.of_space hO' (space_mono (fun _ _ => trivial) _ _ hs) fun _ _ => rfl).1
  | mappages table run ih =>
    unfold mappages64 at run
    split at run
    · cases run
    · obtain ⟨j, -, h, -⟩ := ih.mapFrom run
      exact h
  | uvmunmap table may run ih =>
    unfold uvmunmap64 at run
    split at run
    · cases run
    · exact (ih.unmapFrom may run).2.1
  | uvmclear table run ih => exact (ih.uvmclear run).1
  | other table same own ih =>
    obtain ⟨R, hO⟩ := own
    exact (Table.of_space hO ⟨congrArg _ (Radix.tables_congr same).symm, ih.space.frame same⟩
      fun _ => pageMap_high).1

end

/-! ## The map -/

/-- The page table at `root` is a finite map, with `walk`, `mappages`, `uvmunmap`, `uvmclear` and
`freewalk` for its operations. -/
structure FiniteMap (s : St) (root : Nat) : Prop where
  /-- `walk(pagetable, va, 0)` finds the place of the entry of one page. -/
  walk : ∀ vpn < maxVpn, ∃ r, (walk root vpn false).run step s = .ok (r, s) ∧
    match r with
    | none => pageMap s root vpn = none
    | some (a, i) => (pageMap s root vpn = if (s.mem.pt a i).v then some (s.mem.pt a i) else none) ∧
      ∀ u < maxVpn, (Vm.walk root u false).run step s = .ok (r, s) → u = vpn
  /-- `mappages` adds the entries of a range that is not mapped; of one page it adds the entry or
  nothing. -/
  mappages : ∀ va size page perm, 0 < size → va + size ≤ MAXVA →
    (∀ v, va / PGSIZE ≤ v → v ≤ (va + size - 1) / PGSIZE → pageMap s root v = none) →
    ∃ ok s', (mappages64 root va size page perm).run step s = .ok (ok, s') ∧
      (ok = true → pageMap s' root =
        mapped (pageMap s root) perm page (va / PGSIZE)
        ((va + size - 1) / PGSIZE + 1 - va / PGSIZE)) ∧
      (ok = false → (va + size - 1) / PGSIZE = va / PGSIZE → pageMap s' root = pageMap s root)
  /-- `uvmunmap` takes out entries that are there with more flags than `PTE_V`. -/
  uvmunmap : ∀ a npages free, Unmaps (pageMap s root) a npages →
    (free = true → Freeable s root a npages) →
    ∃ s', (uvmunmap64 root (a * PGSIZE) npages free).run step s = .ok ((), s') ∧
      pageMap s' root = without (pageMap s root) a (a + npages)
  /-- It does not return if one of them is not there. -/
  unmaps : ∀ va npages free s', va + npages * PGSIZE < 2 ^ 64 →
    (free = true → Freeable s root (va / PGSIZE) npages) →
    (uvmunmap64 root va npages free).run step s = .ok ((), s') →
    va % PGSIZE = 0 ∧ Unmaps (pageMap s root) (va / PGSIZE) npages
  /-- `uvmclear` takes `PTE_U` from one entry. -/
  uvmclear : ∀ va < MAXVA, (pageMap s root (va / PGSIZE)).isSome →
    ∃ s', (uvmclear root va).run step s = .ok ((), s') ∧
      pageMap s' root = cleared (pageMap s root) (va / PGSIZE)
  /-- `freewalk` of an empty map puts the pages of the table on the free list, each once. -/
  freewalk : pageMap s root = (fun _ => none) →
    (tablePages s.mem.pt root ++ s.mem.freelist).Nodup ∧
    ∃ s', (freewalk 3 root).run step s = .ok ((), s') ∧
      s'.mem.freelist.Perm (tablePages s.mem.pt root ++ s.mem.freelist)

section

variable {root va a n : Nat} {s s' : St} {free : Bool}

/-- Mapped pages are below `MAXVA`, where 64 bits suffice. -/
theorem Unmaps.bound {f : Nat → Option Pte} (h : Unmaps f a n) :
    n = 0 ∨ a * PGSIZE + n * PGSIZE < 2 ^ 64 := by
  rcases Nat.eq_zero_or_pos n with h0 | hpos
  · exact .inl h0
  · have hlt := (h (a + n - 1) (by omega) (by omega)).1
    simp only [maxVpn, MAXVA, PGSIZE] at *
    omega

theorem Table.walk (h : Table s root) (vpn : Nat) (hv : vpn < maxVpn) :
    ∃ r, (Vm.walk root vpn false).run step s = .ok (r, s) ∧
    match r with
    | none => pageMap s root vpn = none
    | some (a, i) => (pageMap s root vpn = if (s.mem.pt a i).v then some (s.mem.pt a i) else none) ∧
      ∀ u < maxVpn, (Vm.walk root u false).run step s = .ok (r, s) → u = vpn := by
  refine ⟨_, walk_run hv, ?_⟩
  have hmap : pageMap s root vpn = mapping s.mem.pt root vpn := if_pos hv
  rw [hmap]
  cases hloc : Radix.locate Pte.ptr s.mem.pt 2 root (px vpn) with
  | none => exact Radix.lookup_of_locate_none hloc
  | some loc =>
    refine ⟨?_, fun u hu hwalk => ?_⟩
    · rw [mapping, Radix.lookup_of_locate hloc, Pte.isSome_ptr]
    · rw [walk_run hu] at hwalk
      have hloc' := (Prod.mk.inj (Outcome.ok.inj hwalk)).1
      exact (px_inj (hu.trans maxVpn_lt) (hv.trans maxVpn_lt)).1
        (Radix.locate_inj h.space.nodup hloc hloc')

theorem Table.mappages (h : Table s root) (va size page : Nat) (perm : Pte) (hpos : 0 < size)
    (hmax : va + size ≤ MAXVA)
    (unmapped : ∀ v, va / PGSIZE ≤ v → v ≤ (va + size - 1) / PGSIZE → pageMap s root v = none) :
    ∃ ok s', (mappages64 root va size page perm).run step s = .ok (ok, s') ∧
      (ok = true → pageMap s' root =
        mapped (pageMap s root) perm page (va / PGSIZE)
        ((va + size - 1) / PGSIZE + 1 - va / PGSIZE)) ∧
      (ok = false → (va + size - 1) / PGSIZE = va / PGSIZE → pageMap s' root = pageMap s root) := by
  have hle : va + size ≤ 2 ^ 64 := hmax.trans (by decide)
  have hfirst : va / PGSIZE ≤ (va + size - 1) / PGSIZE := Nat.div_le_div_right (by omega)
  have hlast : (va + size - 1) / PGSIZE < maxVpn :=
    Nat.div_lt_div_of_lt_of_dvd (by decide) (by omega)
  rw [mappages64, if_neg (by omega), mapCount_eq hpos hle]
  obtain ⟨ok, s', hr⟩ : ∃ ok s', (Vm.mapFrom root perm ((va + size - 1) / PGSIZE - va / PGSIZE)
      (va / PGSIZE) page).run step s = .ok (ok, s') :=
    h.mapFrom_returns fun v h₁ h₂ => ⟨by omega, unmapped v h₁ (by omega)⟩
  obtain ⟨j, ⟨hj, hok⟩, -, hmap⟩ := h.mapFrom hr
  refine ⟨ok, s', hr, fun ht => ?_, fun hf hone => ?_⟩
  · rw [hmap, hok.1 ht]
    congr 1
    omega
  · have hne : j ≠ (va + size - 1) / PGSIZE - va / PGSIZE + 1 := fun e => by
      rw [hok.2 e] at hf
      cases hf
    rw [hmap, show j = 0 by omega, mapped_zero]

theorem Table.finiteMap (h : Table s root) : FiniteMap s root where
  walk := h.walk
  mappages := h.mappages
  uvmunmap a npages free all may := by
    rw [uvmunmap64, if_neg (by rw [Nat.mul_mod_left]; decide), Nat.mul_div_cancel a (by decide)]
    have hcount : unmapCount (a * PGSIZE) npages = npages := by
      rcases all.bound with rfl | hlt
      · simp only [unmapCount, PGSIZE]
        omega
      · exact unmapCount_eq hlt
    rw [hcount]
    obtain ⟨s', hr⟩ := h.unmapFrom_returns may all
    exact ⟨s', hr, (h.unmapFrom may hr).2.2⟩
  unmaps va npages free s' hlt may hr := by
    rw [uvmunmap64, unmapCount_eq hlt] at hr
    split at hr
    · cases hr
    · exact ⟨not_not.1 ‹_›, (h.unmapFrom may hr).1⟩
  uvmclear va hva hmapped := by
    obtain ⟨s', hr⟩ := h.uvmclear_returns hva hmapped
    exact ⟨s', hr, (h.uvmclear hr).2⟩
  freewalk empty := by
    obtain ⟨R, hO⟩ := h.own
    have hnodup := hO.nodup_add
    rw [← add_assoc, coe_add] at hnodup
    exact ⟨(coe_nodup.1 (nodup_add.1 hnodup).1).perm List.perm_append_comm, h.freewalk empty⟩

/-- Every page table that is built by `uvmcreate` and calls of `mappages`, `uvmunmap` and `uvmclear`
is a finite map from the pages below `MAXVA` to entries. -/
theorem page_table_map (h : Built root s) : FiniteMap s root := h.table.finiteMap

end

/-- Four pages of RAM that are free. -/
def blank : St where
  mem := ⟨stopPage - 4, 0, fun _ _ => .zero, fun _ _ => 0,
    [stopPage - 4, stopPage - 3, stopPage - 2, stopPage - 1], fun _ => false, 0⟩
  kern := ⟨fun _ => .zero, fun _ => ⟨0, .none, false⟩, fun _ => ⟨false, false⟩⟩

/-- A page table is made and two pages are mapped; then `PTE_U` is taken from the first one and the
second one is unmapped. -/
def mapTwoUnmapOne : Code (Option Nat) := do
  let pagetable ← uvmcreate
  match pagetable with
  | none => pure none
  | some root =>
    let _ ← mappages64 root 0 (2 * PGSIZE) 7 ⟨0, false, true, true, false, true⟩
    uvmclear root 0
    uvmunmap64 root PGSIZE 1 false
    pure (some root)

/-- The first page is left, without `PTE_U`. -/
def oneLeft : Outcome Panic (Option Nat × St) → Bool
  | .ok (some root, s) =>
    pageMap s root 0 = some ⟨7, true, true, true, false, false⟩ ∧ pageMap s root 1 = none
  | _ => false

theorem page_table_map_one :
    ∃ root s, Built root s ∧ pageMap s root 0 = some ⟨7, true, true, true, false, false⟩ ∧
      pageMap s root 1 = none ∧ FiniteMap s root := by
  have hleft : oneLeft (mapTwoUnmapOne.run step blank) = true := by decide +kernel
  unfold oneLeft at hleft
  split at hleft
  · rename_i root s hrun
    obtain ⟨h0, h1⟩ := of_decide_eq_true hleft
    obtain ⟨r, s₁, hmade, hrun⟩ := Prog.run_bind_ok hrun
    cases r with
    | none => cases hrun
    | some root' =>
      obtain ⟨ok, s₂, hmap, hrun⟩ := Prog.run_bind_ok hrun
      obtain ⟨_, s₃, hclear, hrun⟩ := Prog.run_bind_ok hrun
      obtain ⟨_, s₄, hunmap, hrun⟩ := Prog.run_bind_ok hrun
      cases hrun
      have made : Built root s₁ := .uvmcreate ⟨0, by decide, by decide⟩ hmade
      have cleared : Built root s₃ := .uvmclear (.mappages made hmap) hclear
      have built : Built root s := .uvmunmap cleared (fun h => absurd h Bool.false_ne_true) hunmap
      exact ⟨root, s, built, h0, h1, page_table_map built⟩
  · cases hleft

end Xv6.Vm
