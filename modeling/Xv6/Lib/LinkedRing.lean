import Mathlib.Data.List.Chain
import Mathlib.Data.List.Nodup
import Mathlib.Logic.Function.Iterate

/-!
# Circular doubly linked lists with a sentinel

The nodes are the values of `Option α`, of which `none` is the sentinel. A ring is given by its two
link fields alone; `Spells r l` says that following `next` from the sentinel visits the elements of
`l` in order and returns to the sentinel, and that following `prev` goes the other way round.
`unlink` and `pushFront` are the pointer assignments of the usual C code, and `find` is the usual
loop from the first node up to the sentinel.
-/

namespace Xv6.Lib

open Function List

structure LinkedRing (α : Type) where
  next : Option α → Option α
  prev : Option α → Option α

namespace LinkedRing

variable {α : Type} {r r' : LinkedRing α} {a : α} {l l₁ l₂ : List α}

/-- The ring of the sentinel alone. -/
def empty : LinkedRing α := ⟨fun _ => none, fun _ => none⟩

def Linked (r : LinkedRing α) (x y : Option α) : Prop := r.next x = y ∧ r.prev y = x

structure Spells (r : LinkedRing α) (l : List α) : Prop where
  nodup : l.Nodup
  linked : (none :: l.map some ++ [none]).IsChain r.Linked

theorem Spells.empty : (empty : LinkedRing α).Spells [] := by
  refine ⟨nodup_nil, ?_⟩
  simp [LinkedRing.empty, Linked]

/-- A chain of links survives changes to the `next` of other nodes than its own, the last apart,
and to the `prev` of other nodes than its own, the first apart. -/
theorem isChain_linked_of_agree {l : List (Option α)} (h : l.IsChain r.Linked)
    (next : ∀ x ∈ l.dropLast, r'.next x = r.next x) (prev : ∀ x ∈ l.tail, r'.prev x = r.prev x) :
    l.IsChain r'.Linked := by
  rw [isChain_iff_forall_rel_of_append_cons_cons] at h ⊢
  intro x y l₁ l₂ hl
  obtain ⟨hn, hp⟩ := h hl
  have hx : x ∈ l.dropLast := by
    rw [hl, dropLast_append_of_ne_nil (by simp)]
    simp
  have hy : y ∈ l.tail := by
    rw [hl]
    cases l₁ <;> simp
  exact ⟨(next x hx).trans hn, (prev y hy).trans hp⟩

theorem nodup_nodes (h : l.Nodup) :
    (none :: l.map some).Nodup ∧ (l.map some ++ [none]).Nodup := by
  have hm : (l.map some).Nodup := h.map fun _ _ => Option.some.inj
  simp [nodup_append, hm]

/-! ## Search -/

/-- `for(b = start; b != &head; b = step(b)) if(p(b)) ...` -/
def find (step : Option α → Option α) (p : α → Bool) : Nat → Option α → Option α
  | 0, _ => none
  | _ + 1, none => none
  | fuel + 1, some a => if p a then some a else find step p fuel (step (some a))

theorem find_eq_of_isChain {step : Option α → Option α} {p : α → Bool} {l : List α}
    {x : Option α} (h : (x :: l.map some ++ [none]).IsChain fun x y => step x = y) {fuel : Nat}
    (hf : l.length < fuel) : find step p fuel (step x) = l.find? p := by
  induction l generalizing x fuel with
  | nil =>
    obtain ⟨fuel, rfl⟩ : ∃ k, fuel = k + 1 := ⟨fuel - 1, by simp at hf; omega⟩
    simp only [map_nil, cons_append, nil_append, isChain_pair] at h
    rw [h]
    rfl
  | cons a l ih =>
    obtain ⟨fuel, rfl⟩ : ∃ k, fuel = k + 1 := ⟨fuel - 1, by simp at hf; omega⟩
    simp only [map_cons, cons_append, isChain_cons_cons] at h
    obtain ⟨hx, h⟩ := h
    rw [hx, find, find?_cons]
    cases p a
    · exact ih h (by simpa using hf)
    · rfl

/-- Searching forward finds the first element of the spelled list. -/
theorem Spells.find_next (h : r.Spells l) (p : α → Bool) (hf : l.length < fuel) :
    find r.next p fuel (r.next none) = l.find? p :=
  find_eq_of_isChain (h.linked.imp fun _ _ hl => hl.1) hf

/-- Searching backward finds the last one. -/
theorem Spells.find_prev (h : r.Spells l) (p : α → Bool) (hf : l.length < fuel) :
    find r.prev p fuel (r.prev none) = l.reverse.find? p := by
  refine find_eq_of_isChain ?_ (by simpa using hf)
  have hr : (none :: l.reverse.map some ++ [none]) = (none :: l.map some ++ [none]).reverse := by
    simp
  rw [hr, isChain_reverse]
  exact h.linked.imp fun _ _ hl => hl.2

/-! ## Walking round -/

theorem iterate_next_of_isChain {x : Option α} (h : (x :: l.map some ++ [none]).IsChain r.Linked) :
    (∀ k (hk : k < l.length), r.next^[k + 1] x = some l[k]) ∧ r.next^[l.length + 1] x = none := by
  induction l generalizing x with
  | nil =>
    simp only [map_nil, cons_append, nil_append, isChain_pair] at h
    exact ⟨fun k hk => absurd hk (by simp), h.1⟩
  | cons a l ih =>
    simp only [map_cons, cons_append, isChain_cons_cons] at h
    obtain ⟨hx, h⟩ := h
    obtain ⟨ih₁, ih₂⟩ := ih h
    refine ⟨fun k hk => ?_, ?_⟩
    · rw [iterate_succ_apply, hx.1]
      cases k with
      | zero => rfl
      | succ k => exact ih₁ k (by simpa using hk)
    · rw [length_cons, iterate_succ_apply, hx.1, ih₂]

theorem Spells.iterate_next (h : r.Spells l) :
    (∀ k (hk : k < l.length), r.next^[k + 1] none = some l[k]) ∧
      r.next^[l.length + 1] none = none :=
  iterate_next_of_isChain h.linked

/-- In a ring through all nodes, `prev` is the inverse of `next`. -/
theorem Spells.inverse (h : r.Spells l) (all : ∀ a, a ∈ l) (x : Option α) :
    r.prev (r.next x) = x ∧ r.next (r.prev x) = x := by
  have hc := isChain_iff_forall_rel_of_append_cons_cons.1 h.linked
  have hmem : x = none ∨ x ∈ l.map some := by
    cases x with
    | none => exact .inl rfl
    | some a => exact .inr (mem_map_of_mem (all a))
  obtain ⟨y, hy⟩ : ∃ y, r.Linked x y := by
    obtain ⟨A, B, hAB⟩ := append_of_mem (mem_cons.2 hmem)
    obtain ⟨y, C, hC⟩ := exists_cons_of_ne_nil (l := B ++ [none]) (by simp)
    refine ⟨y, @hc x y A C ?_⟩
    rw [hAB, append_assoc, cons_append, hC]
  obtain ⟨z, hz⟩ : ∃ z, r.Linked z x := by
    obtain ⟨A, B, hAB⟩ := append_of_mem (a := x) (l := l.map some ++ [none])
      (by rcases hmem with rfl | h <;> simp_all)
    obtain ⟨A', z, hA⟩ := eq_nil_or_concat (none :: A) |>.resolve_left (by simp)
    refine ⟨z, @hc z x A' B ?_⟩
    rw [cons_append, hAB, ← cons_append, hA]
    simp
  exact ⟨by rw [hy.1, hy.2], by rw [hz.2, hz.1]⟩

/-! ## Updates -/

variable [DecidableEq α]

def setNext (r : LinkedRing α) (x y : Option α) : LinkedRing α :=
  { r with next := update r.next x y }

def setPrev (r : LinkedRing α) (x y : Option α) : LinkedRing α :=
  { r with prev := update r.prev x y }

/-- `b->next->prev = b->prev; b->prev->next = b->next;` -/
def unlink (r : LinkedRing α) (b : α) : LinkedRing α :=
  let r := r.setPrev (r.next b) (r.prev b)
  r.setNext (r.prev b) (r.next b)

/-- `b->next = head.next; b->prev = &head; head.next->prev = b; head.next = b;` -/
def pushFront (r : LinkedRing α) (b : α) : LinkedRing α :=
  let r := r.setNext b (r.next none)
  let r := r.setPrev b none
  let r := r.setPrev (r.next none) b
  r.setNext none b

theorem Spells.unlink (h : r.Spells (l₁ ++ a :: l₂)) : (r.unlink a).Spells (l₁ ++ l₂) := by
  have hnd := h.nodup
  -- the neighbours of `a`, either of which may be the sentinel
  obtain ⟨A, x, hA⟩ := eq_nil_or_concat (none :: l₁.map some) |>.resolve_left (by simp)
  obtain ⟨y, B, hB⟩ := exists_cons_of_ne_nil (l := l₂.map some ++ [none]) (by simp)
  have hchain : (A ++ x :: some a :: y :: B).IsChain r.Linked := by
    have := h.linked
    simpa [hA, hB, ← cons_append] using this
  rw [isChain_append_cons_cons, isChain_cons_cons] at hchain
  obtain ⟨hleft, hxa, hay, hright⟩ := hchain
  have hx : x = none ∨ x ∈ l₁.map some := by
    have : x ∈ none :: l₁.map some := by rw [hA]; simp
    simpa using this
  have hy : y = none ∨ y ∈ l₂.map some := by
    have : y ∈ l₂.map some ++ [none] := by rw [hB]; simp
    simpa [or_comm] using this
  have hya : some a ≠ y := by
    rintro rfl
    simp only [reduceCtorEq, mem_map, Option.some.injEq, exists_eq_right, false_or] at hy
    exact (nodup_cons.1 hnd.of_append_right).1 hy
  have hnext : (r.unlink a).next = update r.next x y := by
    simp [LinkedRing.unlink, setPrev, setNext, hay.1, hxa.2, update_of_ne hya]
  have hprev : (r.unlink a).prev = update r.prev y x := by
    simp [LinkedRing.unlink, setPrev, setNext, hay.1, hxa.2]
  have disj : ∀ z ∈ l₁.map some, ∀ w ∈ l₂.map some, z ≠ w := by
    simp only [mem_map]
    rintro _ ⟨b, hb, rfl⟩ _ ⟨c, hc, rfl⟩ hbc
    cases hbc
    exact (disjoint_of_nodup_append hnd hb (mem_cons_of_mem a hc))
  have hA' : x ∉ A := by
    have := (nodup_nodes hnd.of_append_left).1
    rw [hA, nodup_concat] at this
    exact this.1
  have hB' : y ∉ B := by
    have := (nodup_nodes hnd.of_append_right.of_cons).2
    rw [hB, nodup_cons] at this
    exact this.1
  refine ⟨by simp_all [nodup_append], ?_⟩
  have hl : none :: (l₁ ++ l₂).map some ++ [none] = A ++ x :: y :: B := by
    simp [hB, ← cons_append, hA]
  rw [hl, isChain_append_cons_cons]
  refine ⟨isChain_linked_of_agree hleft ?_ ?_, ⟨?_, ?_⟩, isChain_linked_of_agree hright ?_ ?_⟩
  · intro u hu
    rw [hnext, update_of_ne]
    rintro rfl
    simp at hu
    exact hA' hu
  · intro v hv
    rw [hprev, update_of_ne]
    rintro rfl
    have : v ∈ l₁.map some := by
      rw [← concat_eq_append, ← hA] at hv
      exact hv
    rcases hy with rfl | hy
    · simp at this
    · exact disj _ this _ hy rfl
  · rw [hnext, update_self]
  · rw [hprev, update_self]
  · intro u hu
    rw [hnext, update_of_ne]
    rintro rfl
    have : u ∈ l₂.map some := by
      rw [← hB] at hu
      simpa using hu
    rcases hx with rfl | hx
    · simp at this
    · exact disj _ hx _ this rfl
  · intro v hv
    rw [hprev, update_of_ne]
    rintro rfl
    exact hB' hv

theorem Spells.pushFront (h : r.Spells l) (ha : a ∉ l) : (r.pushFront a).Spells (a :: l) := by
  obtain ⟨y, B, hB⟩ := exists_cons_of_ne_nil (l := l.map some ++ [none]) (by simp)
  have hchain : (none :: y :: B).IsChain r.Linked := by
    rw [← hB]
    exact h.linked
  rw [isChain_cons_cons] at hchain
  obtain ⟨hy, hchain⟩ := hchain
  have hya : y ≠ some a := by
    rintro rfl
    have : some a ∈ l.map some ++ [none] := by rw [hB]; simp
    exact ha (by simpa using this)
  have hnext : (r.pushFront a).next =
      update (update r.next (some a) y) none (some a) := by
    simp [LinkedRing.pushFront, setPrev, setNext, hy.1]
  have hprev : (r.pushFront a).prev =
      update (update r.prev (some a) none) y (some a) := by
    simp [LinkedRing.pushFront, setPrev, setNext, hy.1]
  have hB' : y ∉ B := by
    have := (nodup_nodes h.nodup).2
    rw [hB, nodup_cons] at this
    exact this.1
  refine ⟨nodup_cons.2 ⟨ha, h.nodup⟩, ?_⟩
  have hl : none :: (a :: l).map some ++ [none] = none :: some a :: y :: B := by simp [hB]
  rw [hl, isChain_cons_cons, isChain_cons_cons]
  refine ⟨⟨?_, ?_⟩, ⟨?_, ?_⟩, isChain_linked_of_agree hchain ?_ ?_⟩
  · rw [hnext, update_self]
  · rw [hprev, update_of_ne hya.symm, update_self]
  · rw [hnext, update_of_ne (by simp), update_self]
  · rw [hprev, update_self]
  · intro u hu
    rw [← hB] at hu
    simp only [dropLast_concat, mem_map] at hu
    obtain ⟨b, hb, rfl⟩ := hu
    have hba : b ≠ a := by rintro rfl; exact ha hb
    rw [hnext, update_of_ne (by simp), update_of_ne (by simpa using hba)]
  · intro v hv
    have hvB : v ∈ l.map some ++ [none] := by rw [hB]; exact mem_cons_of_mem _ hv
    have hva : v ≠ some a := by rintro rfl; exact ha (by simpa using hvB)
    have hvy : v ≠ y := by rintro rfl; exact hB' hv
    rw [hprev, update_of_ne hvy, update_of_ne hva]

theorem Spells.moveFront (h : r.Spells l) (ha : a ∈ l) :
    ((r.unlink a).pushFront a).Spells (a :: l.erase a) := by
  obtain ⟨l₁, l₂, rfl⟩ := append_of_mem ha
  have hnd := h.nodup
  have h₁ : a ∉ l₁ := fun h₁ => disjoint_of_nodup_append hnd h₁ mem_cons_self
  have h₂ : a ∉ l₂ := (nodup_cons.1 hnd.of_append_right).1
  rw [erase_append_right _ h₁, erase_cons_head]
  exact h.unlink.pushFront (by simp [h₁, h₂])

end LinkedRing

end Xv6.Lib
