import Mathlib.Data.List.FinRange
import Mathlib.Data.List.Nodup
import Mathlib.Data.List.Pairwise
import Mathlib.Tactic.Common

/-!
# Radix trees in a heap of tables

A tree of tables of `N` entries each, in a heap that maps the address of a table to its entries. An
entry is empty or points somewhere: above the lowest level to a table, at the lowest level to a
value. A key is the index to take at each level. `lookup` finds the entry of a key, `locate` the
place where it is or would be, and `tables` lists the tables of a tree; if none is listed twice then
a write to one place changes the entry of one key (`lookup_set`), and a tree can grow below an empty
entry (`Grows.attach`, `Grows.child`).
-/

namespace Xv6.Lib.Radix

open Function List

variable {P E : Type} {N : Nat} (ptr : E → Option P)

abbrev Heap (P E : Type) (N : Nat) := P → Fin N → E

/-- The entry of key `ix` in the tree of height `ℓ` at `a`, if it is not empty. -/
def lookup (heap : Heap P E N) : (ℓ : Nat) → P → (Nat → Fin N) → Option E
  | 0, a, ix => if (ptr (heap a (ix 0))).isSome then some (heap a (ix 0)) else none
  | ℓ + 1, a, ix => (ptr (heap a (ix (ℓ + 1)))).bind fun c => lookup heap ℓ c ix

/-- Where the entry of a key is, if all tables on the way exist. -/
def locate (heap : Heap P E N) : (ℓ : Nat) → P → (Nat → Fin N) → Option (P × Fin N)
  | 0, a, ix => some (a, ix 0)
  | ℓ + 1, a, ix => (ptr (heap a (ix (ℓ + 1)))).bind fun c => locate heap ℓ c ix

/-- The tables of a tree. -/
def tables (heap : Heap P E N) : (ℓ : Nat) → P → List P
  | 0, a => [a]
  | ℓ + 1, a => a :: (finRange N).flatMap fun i => (ptr (heap a i)).elim [] (tables heap ℓ)

/-- Entries above the lowest level satisfy `Node`, those at the lowest level `Leaf`. -/
def Wf (Node Leaf : E → Prop) (heap : Heap P E N) : (ℓ : Nat) → P → Prop
  | 0, a => ∀ i, (ptr (heap a i)).isSome → Leaf (heap a i)
  | ℓ + 1, a => ∀ i c, ptr (heap a i) = some c → Node (heap a i) ∧ Wf Node Leaf heap ℓ c

/-- Replace one entry. -/
def set [DecidableEq P] (heap : Heap P E N) (a : P) (i : Fin N) (e : E) : Heap P E N :=
  update heap a (update (heap a) i e)

variable {ptr} {heap heap' : Heap P E N} {ℓ : Nat} {a b c : P} {i k : Fin N} {ix ix' : Nat → Fin N}
  {Node Leaf : E → Prop}

theorem mem_tables_self : a ∈ tables ptr heap ℓ a := by
  cases ℓ <;> simp [tables]

theorem mem_tables_of_child (hc : ptr (heap a i) = some c) (hb : b ∈ tables ptr heap ℓ c) :
    b ∈ tables ptr heap (ℓ + 1) a := by
  refine mem_cons_of_mem _ (mem_flatMap.2 ⟨i, mem_finRange i, ?_⟩)
  rw [hc]
  exact hb

theorem locate_mem (h : locate ptr heap ℓ a ix = some (b, k)) : b ∈ tables ptr heap ℓ a := by
  induction ℓ generalizing a with
  | zero => cases h; exact mem_tables_self
  | succ ℓ ih =>
    obtain ⟨c, hc, h⟩ := Option.bind_eq_some_iff.1 h
    exact mem_tables_of_child hc (ih h)

theorem lookup_of_locate (h : locate ptr heap ℓ a ix = some (b, k)) :
    lookup ptr heap ℓ a ix = if (ptr (heap b k)).isSome then some (heap b k) else none := by
  induction ℓ generalizing a with
  | zero => cases h; rfl
  | succ ℓ ih =>
    obtain ⟨c, hc, h⟩ := Option.bind_eq_some_iff.1 h
    rw [lookup, hc]
    exact ih h

theorem lookup_of_locate_none (h : locate ptr heap ℓ a ix = none) :
    lookup ptr heap ℓ a ix = none := by
  induction ℓ generalizing a with
  | zero => cases h
  | succ ℓ ih =>
    rw [lookup]
    cases hc : ptr (heap a (ix (ℓ + 1))) with
    | none => rfl
    | some c =>
      rw [locate, hc] at h
      exact ih h

theorem lookup_ix_congr (h : ∀ j ≤ ℓ, ix' j = ix j) :
    lookup ptr heap ℓ a ix' = lookup ptr heap ℓ a ix := by
  induction ℓ generalizing a with
  | zero => rw [lookup, lookup, h 0 le_rfl]
  | succ ℓ ih =>
    rw [lookup, lookup, h (ℓ + 1) le_rfl]
    congr 1
    exact funext fun c => ih fun j hj => h j (Nat.le_succ_of_le hj)

theorem Wf.leaf {e : E} (hw : Wf ptr Node Leaf heap ℓ a) (h : lookup ptr heap ℓ a ix = some e) :
    Leaf e ∧ (ptr e).isSome := by
  induction ℓ generalizing a with
  | zero =>
    obtain ⟨hs, h⟩ := Option.ite_none_right_eq_some.1 h
    cases h
    exact ⟨hw _ hs, hs⟩
  | succ ℓ ih =>
    obtain ⟨c, hc, h⟩ := Option.bind_eq_some_iff.1 h
    exact ih (hw _ c hc).2 h

theorem Wf.mono {Leaf' : E → Prop} (hL : ∀ e, Leaf e → Leaf' e) (hw : Wf ptr Node Leaf heap ℓ a) :
    Wf ptr Node Leaf' heap ℓ a := by
  induction ℓ generalizing a with
  | zero => exact fun i hi => hL _ (hw i hi)
  | succ ℓ ih => exact fun i c hc => ⟨(hw i c hc).1, ih (hw i c hc).2⟩

/-! ## Frames -/

theorem tables_congr (h : ∀ b ∈ tables ptr heap ℓ a, heap' b = heap b) :
    tables ptr heap' ℓ a = tables ptr heap ℓ a := by
  induction ℓ generalizing a with
  | zero => rfl
  | succ ℓ ih =>
    have ha := h a mem_tables_self
    unfold tables
    rw [ha]
    congr 1
    refine flatMap_congr fun i _ => ?_
    cases hc : ptr (heap a i) with
    | none => rfl
    | some c => exact ih fun b hb => h b (mem_tables_of_child hc hb)

theorem lookup_congr (h : ∀ b ∈ tables ptr heap ℓ a, heap' b = heap b) :
    lookup ptr heap' ℓ a ix = lookup ptr heap ℓ a ix := by
  induction ℓ generalizing a with
  | zero => rw [lookup, lookup, h a mem_tables_self]
  | succ ℓ ih =>
    rw [lookup, lookup, h a mem_tables_self]
    cases hc : ptr (heap a (ix (ℓ + 1))) with
    | none => rfl
    | some c => exact ih fun b hb => h b (mem_tables_of_child hc hb)

theorem locate_congr (h : ∀ b ∈ tables ptr heap ℓ a, heap' b = heap b) :
    locate ptr heap' ℓ a ix = locate ptr heap ℓ a ix := by
  induction ℓ generalizing a with
  | zero => rfl
  | succ ℓ ih =>
    rw [locate, locate, h a mem_tables_self]
    cases hc : ptr (heap a (ix (ℓ + 1))) with
    | none => rfl
    | some c => exact ih fun b hb => h b (mem_tables_of_child hc hb)

theorem Wf.congr (hw : Wf ptr Node Leaf heap ℓ a)
    (h : ∀ b ∈ tables ptr heap ℓ a, heap' b = heap b) :
    Wf ptr Node Leaf heap' ℓ a := by
  induction ℓ generalizing a with
  | zero =>
    unfold Wf
    rw [h a mem_tables_self]
    exact hw
  | succ ℓ ih =>
    intro i c hc
    rw [h a mem_tables_self] at hc ⊢
    exact ⟨(hw i c hc).1, ih (hw i c hc).2 fun b hb => h b (mem_tables_of_child hc hb)⟩

/-! ## Trees without sharing -/

theorem nodup_child (h : (tables ptr heap (ℓ + 1) a).Nodup) (hc : ptr (heap a i) = some c) :
    (tables ptr heap ℓ c).Nodup ∧ a ∉ tables ptr heap ℓ c := by
  obtain ⟨ha, hn⟩ := nodup_cons.1 h
  have hi := (nodup_flatMap.1 hn).1 i (mem_finRange i)
  rw [hc] at hi
  refine ⟨hi, fun hm => ha (mem_flatMap.2 ⟨i, mem_finRange i, ?_⟩)⟩
  rw [hc]
  exact hm

theorem disjoint_children {i' : Fin N} {c' : P} (h : (tables ptr heap (ℓ + 1) a).Nodup)
    (hc : ptr (heap a i) = some c) (hc' : ptr (heap a i') = some c') (hi : i' ≠ i)
    (hb : b ∈ tables ptr heap ℓ c) : b ∉ tables ptr heap ℓ c' := by
  have hd := (nodup_flatMap.1 (nodup_cons.1 h).2).2
  have : Std.Symm (onFun List.Disjoint fun i => (ptr (heap a i)).elim [] (tables ptr heap ℓ)) :=
    ⟨fun _ _ h _ ha hb => h hb ha⟩
  have hdis := hd.forall (mem_finRange i) (mem_finRange i') hi.symm
  simp only [onFun, hc, hc'] at hdis
  exact fun hb' => hdis hb hb'

theorem locate_inj (hn : (tables ptr heap ℓ a).Nodup) (h : locate ptr heap ℓ a ix = some (b, k))
    (h' : locate ptr heap ℓ a ix' = some (b, k)) : ∀ j ≤ ℓ, ix' j = ix j := by
  induction ℓ generalizing a with
  | zero =>
    intro j hj
    cases h
    rw [Nat.le_zero.1 hj]
    exact (Prod.mk.inj (Option.some.inj h')).2
  | succ ℓ ih =>
    obtain ⟨c, hc, h⟩ := Option.bind_eq_some_iff.1 h
    obtain ⟨c', hc', h'⟩ := Option.bind_eq_some_iff.1 h'
    have hi : ix' (ℓ + 1) = ix (ℓ + 1) := by
      by_contra hne
      exact disjoint_children hn hc hc' hne (locate_mem h) (locate_mem h')
    rw [hi, hc] at hc'
    cases hc'
    intro j hj
    rcases Nat.le_succ_iff.1 hj with hj | rfl
    · exact ih (nodup_child hn hc).1 h h' j hj
    · exact hi

section Set

variable [DecidableEq P] {e : E}

theorem set_of_ne (h : c ≠ b) : set heap b k e c = heap c := update_of_ne h ..

theorem set_self : set heap b k e b = update (heap b) k e := update_self ..

theorem set_frame (h : b ∉ tables ptr heap ℓ a) :
    ∀ c ∈ tables ptr heap ℓ a, set heap b k e c = heap c :=
  fun _ hc => set_of_ne fun e => h (e ▸ hc)

theorem tables_set (hn : (tables ptr heap ℓ a).Nodup) (h : locate ptr heap ℓ a ix = some (b, k)) :
    tables ptr (set heap b k e) ℓ a = tables ptr heap ℓ a := by
  induction ℓ generalizing a with
  | zero => rfl
  | succ ℓ ih =>
    obtain ⟨c, hc, h⟩ := Option.bind_eq_some_iff.1 h
    obtain ⟨hnc, hac⟩ := nodup_child hn hc
    have hb := locate_mem h
    have hab : a ≠ b := fun e => hac (e ▸ hb)
    unfold tables
    rw [set_of_ne hab]
    congr 1
    refine flatMap_congr fun i' _ => ?_
    cases hc' : ptr (heap a i') with
    | none => rfl
    | some c' =>
      by_cases hi : i' = ix (ℓ + 1)
      · rw [hi, hc] at hc'
        cases hc'
        exact ih hnc h
      · exact tables_congr (set_frame (disjoint_children hn hc hc' hi hb))

/-- Writing to the place of one key changes the entry of that key. -/
theorem lookup_set (hn : (tables ptr heap ℓ a).Nodup) (h : locate ptr heap ℓ a ix = some (b, k)) :
    lookup ptr (set heap b k e) ℓ a ix' =
      if ∀ j ≤ ℓ, ix' j = ix j then if (ptr e).isSome then some e else none
      else lookup ptr heap ℓ a ix' := by
  induction ℓ generalizing a with
  | zero =>
    cases h
    rw [lookup, lookup, set_self]
    by_cases hi : ix' 0 = ix 0
    · have hall : ∀ j ≤ 0, ix' j = ix j := fun j hj => by rw [Nat.le_zero.1 hj, hi]
      rw [if_pos hall, hi, update_self]
    · have hnot : ¬∀ j ≤ 0, ix' j = ix j := fun h => hi (h 0 le_rfl)
      rw [if_neg hnot, update_of_ne hi]
  | succ ℓ ih =>
    obtain ⟨c, hc, h⟩ := Option.bind_eq_some_iff.1 h
    obtain ⟨hnc, hac⟩ := nodup_child hn hc
    have hb := locate_mem h
    have hab : a ≠ b := fun e => hac (e ▸ hb)
    rw [lookup, lookup, set_of_ne hab]
    by_cases hi : ix' (ℓ + 1) = ix (ℓ + 1)
    · rw [hi, hc]
      refine (ih hnc h).trans (if_congr ?_ rfl rfl)
      exact ⟨fun hj j hle => (Nat.le_succ_iff.1 hle).elim (hj j) fun e => e ▸ hi,
        fun hj j hle => hj j (Nat.le_succ_of_le hle)⟩
    · rw [if_neg fun hj => hi (hj _ le_rfl)]
      cases hc' : ptr (heap a (ix' (ℓ + 1))) with
      | none => rfl
      | some c' => exact lookup_congr (set_frame (disjoint_children hn hc hc' hi hb))

theorem Wf.set (hw : Wf ptr Node Leaf heap ℓ a) (hn : (tables ptr heap ℓ a).Nodup)
    (h : locate ptr heap ℓ a ix = some (b, k)) (he : (ptr e).isSome → Leaf e) :
    Wf ptr Node Leaf (Radix.set heap b k e) ℓ a := by
  induction ℓ generalizing a with
  | zero =>
    cases h
    intro i
    rw [set_self]
    by_cases hi : i = ix 0
    · rw [hi, update_self]
      exact he
    · rw [update_of_ne hi]
      exact hw i
  | succ ℓ ih =>
    obtain ⟨c, hc, h⟩ := Option.bind_eq_some_iff.1 h
    obtain ⟨hnc, hac⟩ := nodup_child hn hc
    have hb := locate_mem h
    intro i' c' hc'
    have hab : a ≠ b := fun e => hac (e ▸ hb)
    rw [set_of_ne hab] at hc' ⊢
    refine ⟨(hw i' c' hc').1, ?_⟩
    by_cases hi : i' = ix (ℓ + 1)
    · rw [hi, hc] at hc'
      cases hc'
      exact ih (hw _ c hc).2 hnc h
    · exact (hw i' c' hc').2.congr (set_frame (disjoint_children hn hc hc' hi hb))

end Set

/-! ## Growth -/

/-- The tree has got the tables `new`, with the same entries. -/
structure Grows (ptr : E → Option P) (Node Leaf : E → Prop) (ℓ : Nat) (a : P)
    (heap heap' : Heap P E N) (new : List P) : Prop where
  tables : (tables ptr heap' ℓ a).Perm (new ++ Radix.tables ptr heap ℓ a)
  lookup : ∀ ix, lookup ptr heap' ℓ a ix = Radix.lookup ptr heap ℓ a ix
  wf : Wf ptr Node Leaf heap' ℓ a
  frame : ∀ b, b ∉ Radix.tables ptr heap' ℓ a → heap' b = heap b

namespace Grows

variable {new : List P}

theorem refl (hw : Wf ptr Node Leaf heap ℓ a) : Grows ptr Node Leaf ℓ a heap heap [] :=
  ⟨.refl _, fun _ => rfl, hw, fun _ _ => rfl⟩

theorem trans {heap'' : Heap P E N} {new' : List P} (h : Grows ptr Node Leaf ℓ a heap heap' new)
    (h' : Grows ptr Node Leaf ℓ a heap' heap'' new') :
    Grows ptr Node Leaf ℓ a heap heap'' (new' ++ new) where
  tables := by
    rw [append_assoc]
    exact h'.tables.trans (h.tables.append_left _)
  lookup ix := (h'.lookup ix).trans (h.lookup ix)
  wf := h'.wf
  frame b hb := by
    refine (h'.frame b hb).trans (h.frame b fun hb' => hb ?_)
    exact h'.tables.mem_iff.2 (mem_append_right _ hb')

theorem lookup_empty (h : ∀ i, ptr (heap a i) = none) : Radix.lookup ptr heap ℓ a ix = none := by
  cases ℓ with
  | zero => simp [Radix.lookup, h]
  | succ ℓ => simp [Radix.lookup, h]

theorem tables_empty (h : ∀ i, ptr (heap a i) = none) : Radix.tables ptr heap ℓ a = [a] := by
  cases ℓ with
  | zero => rfl
  | succ ℓ => simp [Radix.tables, h]

theorem wf_empty (h : ∀ i, ptr (heap a i) = none) : Wf ptr Node Leaf heap ℓ a := by
  cases ℓ with
  | zero => intro i hi; rw [h i] at hi; cases hi
  | succ ℓ => intro i c hc; rw [h i] at hc; cases hc

/-- One of the lists that are joined gets longer. -/
theorem perm_flatMap {ι : Type} {l : List ι} {f f' : ι → List P} {i : ι} (hl : l.Nodup) (hi : i ∈ l)
    (one : (f' i).Perm (new ++ f i)) (others : ∀ j ∈ l, j ≠ i → f' j = f j) :
    (l.flatMap f').Perm (new ++ l.flatMap f) := by
  induction l with
  | nil => cases hi
  | cons j l ih =>
    obtain ⟨hj, hl⟩ := nodup_cons.1 hl
    rw [flatMap_cons, flatMap_cons]
    rcases mem_cons.1 hi with rfl | hi'
    · have rest : l.flatMap f' = l.flatMap f := flatMap_congr fun k hk =>
        others k (.tail _ hk) fun e => hj (e ▸ hk)
      rw [rest, ← append_assoc]
      exact one.append_right _
    · have hji : j ≠ i := fun e => hj (e ▸ hi')
      rw [others j mem_cons_self hji]
      refine ((ih hl hi' fun k hk => others k (.tail _ hk)).append_left _).trans ?_
      rw [← append_assoc, ← append_assoc]
      exact perm_append_comm.append_right _

/-- One child grows, or is new; the others stay. -/
theorem of_child (htab : ((ptr (heap' a i)).elim [] (Radix.tables ptr heap' ℓ)).Perm
      (new ++ (ptr (heap a i)).elim [] (Radix.tables ptr heap ℓ)))
    (hlook : ∀ ix, (ptr (heap' a i)).bind (fun c => Radix.lookup ptr heap' ℓ c ix) =
      (ptr (heap a i)).bind fun c => Radix.lookup ptr heap ℓ c ix)
    (hwf : ∀ c, ptr (heap' a i) = some c → Node (heap' a i) ∧ Wf ptr Node Leaf heap' ℓ c)
    (same : ∀ i', i' ≠ i → heap' a i' = heap a i')
    (others : ∀ i' c, i' ≠ i → ptr (heap a i') = some c →
      ∀ b ∈ Radix.tables ptr heap ℓ c, heap' b = heap b)
    (hw : Wf ptr Node Leaf heap (ℓ + 1) a)
    (frame : ∀ b, b ≠ a → b ∉ (ptr (heap' a i)).elim [] (Radix.tables ptr heap' ℓ) →
      heap' b = heap b) : Grows ptr Node Leaf (ℓ + 1) a heap heap' new where
  tables := by
    have key :
        ((finRange N).flatMap fun i => (ptr (heap' a i)).elim [] (Radix.tables ptr heap' ℓ)).Perm
        (new ++ (finRange N).flatMap fun i => (ptr (heap a i)).elim []
          (Radix.tables ptr heap ℓ)) := by
      refine perm_flatMap (nodup_finRange N) (mem_finRange i) htab fun j _ hj => ?_
      rw [same j hj]
      cases hc : ptr (heap a j) with
      | none => rfl
      | some c => exact tables_congr (others j c hj hc)
    exact (key.cons a).trans perm_middle.symm
  lookup ix := by
    rw [Radix.lookup, Radix.lookup]
    by_cases hi : ix (ℓ + 1) = i
    · rw [hi]
      exact hlook ix
    · rw [same _ hi]
      cases hc : ptr (heap a (ix (ℓ + 1))) with
      | none => rfl
      | some c => exact lookup_congr (others _ c hi hc)
  wf := by
    intro i' c hc
    by_cases hi : i' = i
    · exact hi ▸ hwf c (hi ▸ hc)
    · rw [same i' hi] at hc ⊢
      exact ⟨(hw i' c hc).1, (hw i' c hc).2.congr (others i' c hi hc)⟩
  frame b hb := by
    refine frame b (fun e => hb (e ▸ mem_tables_self)) fun hm => hb ?_
    cases hc : ptr (heap' a i) with
    | none => rw [hc] at hm; cases hm
    | some c => rw [hc] at hm; exact mem_tables_of_child hc hm

theorem child (h : Grows ptr Node Leaf ℓ c heap heap' new) (hc : ptr (heap a i) = some c)
    (hn : (Radix.tables ptr heap (ℓ + 1) a).Nodup) (hw : Wf ptr Node Leaf heap (ℓ + 1) a)
    (fresh : ∀ b ∈ new, b ∉ Radix.tables ptr heap (ℓ + 1) a) :
    Grows ptr Node Leaf (ℓ + 1) a heap heap' new := by
  have off : ∀ b, b ∈ Radix.tables ptr heap (ℓ + 1) a → b ∉ Radix.tables ptr heap ℓ c →
      heap' b = heap b := by
    refine fun b hb hbc => h.frame b fun hm => ?_
    rcases mem_append.1 (h.tables.mem_iff.1 hm) with hm | hm
    · exact fresh b hm hb
    · exact hbc hm
  have ha : heap' a = heap a := off a mem_tables_self (nodup_child hn hc).2
  refine of_child (i := i) ?_ ?_ ?_ (fun i' _ => by rw [ha]) (fun i' c' hi hc' b hb => ?_) hw
    fun b _ hb => ?_
  · rw [ha, hc]; exact h.tables
  · intro ix; rw [ha, hc]; exact h.lookup ix
  · intro c' hc'
    rw [ha, hc] at hc'
    cases hc'
    rw [ha]
    exact ⟨(hw i c hc).1, h.wf⟩
  · exact off b (mem_tables_of_child hc' hb) (disjoint_children hn hc' hc hi.symm hb)
  · rw [ha, hc] at hb
    exact h.frame b hb

/-- An empty entry gets a new, empty table. -/
theorem attach [DecidableEq P] {n : P} {e : E} {zero : Fin N → E} (hz : ∀ k, ptr (zero k) = none)
    (he : ptr e = some n) (hnode : Node e) (hi : ptr (heap a i) = none)
    (hn : (Radix.tables ptr heap (ℓ + 1) a).Nodup) (hw : Wf ptr Node Leaf heap (ℓ + 1) a)
    (fresh : n ∉ Radix.tables ptr heap (ℓ + 1) a) :
    Grows ptr Node Leaf (ℓ + 1) a heap (set (update heap n zero) a i e) [n] := by
  have han : a ≠ n := fun h => fresh (h ▸ mem_tables_self)
  have ha : set (update heap n zero) a i e a = update (heap a) i e := by
    rw [set_self, update_of_ne han]
  have hn' : set (update heap n zero) a i e n = zero := by
    rw [set_of_ne han.symm, update_self]
  have hempty : ∀ k, ptr (set (update heap n zero) a i e n k) = none := by
    rw [hn']; exact hz
  have off : ∀ b, b ≠ a → b ≠ n → set (update heap n zero) a i e b = heap b := by
    intro b hb hbn
    rw [set_of_ne hb, update_of_ne hbn]
  refine of_child (i := i) ?_ ?_ ?_ (fun i' hi' => ?_) (fun i' c hi' hc b hb => ?_) hw
    fun b hb hbt => ?_
  · rw [ha, update_self, he, hi]
    exact .of_eq (tables_empty hempty)
  · intro ix
    rw [ha, update_self, he, hi]
    exact lookup_empty hempty
  · intro c hc
    rw [ha, update_self] at hc ⊢
    rw [he] at hc
    cases hc
    exact ⟨hnode, wf_empty hempty⟩
  · rw [ha, update_of_ne hi']
  · refine off b ?_ ?_
    · rintro rfl; exact (nodup_child hn hc).2 hb
    · rintro rfl; exact fresh (mem_tables_of_child hc hb)
  · refine off b hb ?_
    rintro rfl
    rw [ha, update_self, he] at hbt
    exact hbt mem_tables_self

end Grows

end Xv6.Lib.Radix
