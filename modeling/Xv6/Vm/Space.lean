import Xv6.Lib.Sep
import Xv6.Vm.Code
import Mathlib.Algebra.BigOperators.Intervals
import Mathlib.Order.Interval.Finset.Nat

/-!
# Page tables as maps

`Own` accounts for the pages of RAM: each is on the free list or in the hands of its owners, once. A
triple `Triple P x Q` says what the function `x` does to the pages it owns, and that it leaves the
others alone. The assertion `space root f` is that of a page table that implements the map `f` from
virtual pages to entries; `walk`, `mappages`, `uvmunmap` and `freewalk` are specified by what they
do to the map.
-/

namespace Xv6.Vm

open Lib Function List

/-- The pages of RAM after the kernel. -/
def Mem.ram (m : Mem) : Multiset Nat := (Finset.Ico m.first stopPage).val

/-- Every page of RAM is free or in `T`, once. -/
structure Own (m : Mem) (T : Multiset Nat) : Prop where
  above : kernPage ≤ m.first
  cover : (m.freelist : Multiset Nat) + T = m.ram

namespace Own

variable {m : Mem} {T R : Multiset Nat}

theorem nodup_add (h : Own m T) : ((m.freelist : Multiset Nat) + T).Nodup := by
  rw [h.cover]
  exact (Finset.Ico m.first stopPage).nodup

theorem nodup (h : Own m T) : T.Nodup := (Multiset.nodup_add.1 h.nodup_add).2.1

variable {a : Nat}

theorem not_free (h : Own m T) (ha : a ∈ T) : a ∉ m.freelist :=
  fun hm => Multiset.disjoint_left.1 (Multiset.nodup_add.1 h.nodup_add).2.2
    (Multiset.mem_coe.2 hm) ha

theorem not_mem (h : Own m (T + R)) (ha : a ∈ T) : a ∉ R :=
  fun hr => Multiset.disjoint_left.1 (Multiset.nodup_add.1 h.nodup).2.2 ha hr

theorem mem_ram (h : Own m T) (ha : a ∈ T) : m.first ≤ a ∧ a < stopPage := by
  have : a ∈ m.ram := h.cover ▸ Multiset.mem_add.2 (.inr ha)
  exact Finset.mem_Ico.1 this

theorem card_le (h : Own m T) : T.card ≤ stopPage - kernPage := by
  have hle : T ≤ m.ram := h.cover ▸ Multiset.le_add_left T m.freelist
  have hcard : m.ram.card = stopPage - m.first := Nat.card_Ico m.first stopPage
  have := Multiset.card_le_card hle
  have := h.above
  omega

end Own

/-- The contents of a page, as entries and as bytes. -/
@[ext]
structure Page where
  entries : Fin 512 → Pte
  bytes : Nat → UInt8

def Mem.page (m : Mem) (n : Nat) : Page := ⟨m.pt n, m.data n⟩

/-- The page tables in pages. -/
def tablesOf (c : Nat → Page) : Tables := fun n => (c n).entries

theorem tablesOf_page (m : Mem) : tablesOf m.page = m.pt := rfl

/-- `pagetable[i] = e`. -/
def setEntry (c : Nat → Page) (a : Nat) (i : Fin 512) (e : Pte) : Nat → Page :=
  update c a ⟨update (c a).entries i e, Bytes.write (c a).bytes 8 (8 * i) e.bits⟩

section

variable {c : Nat → Page} {a n : Nat} {i : Fin 512} {e : Pte}

variable {m : Mem}

theorem page_congr {m' : Mem} (hpt : m'.pt n = m.pt n) (hdata : m'.data n = m.data n) :
    m'.page n = m.page n :=
  Page.ext hpt hdata

theorem tablesOf_setEntry : tablesOf (setEntry c a i e) = Radix.set (tablesOf c) a i e := by
  funext b
  rcases eq_or_ne b a with rfl | hb
  · rw [tablesOf, setEntry, update_self, Radix.set_self, tablesOf]
  · rw [tablesOf, setEntry, update_of_ne hb, Radix.set_of_ne hb, tablesOf]

theorem page_update {es : Fin 512 → Pte} {d : Nat → UInt8} : Mem.page { m with
      pt := update m.pt n es
      data := update m.data n d } = update m.page n ⟨es, d⟩ := by
  funext b
  refine Page.ext ?_ ?_
  · show update m.pt n es b = _
    rw [update_apply, update_apply]
    split
    · rfl
    · rfl
  · show update m.data n d b = _
    rw [update_apply, update_apply]
    split
    · rfl
    · rfl

end

theorem run_first {α : Type} {s s' : St} {x : Code α} {a : α} (h : x.run step s = .ok (a, s')) :
    s'.mem.first = s.mem.first := by
  induction x generalizing s with
  | ret b =>
    cases h
    rfl
  | call o f ih =>
    rw [Prog.run] at h
    cases ho : step o s with
    | blocked => rw [ho] at h; cases h
    | panic e => rw [ho] at h; cases h
    | ok r =>
      rw [ho] at h
      refine (ih r.1 h).trans ?_
      cases o with
      | kalloc =>
        simp only [step] at ho
        split at ho
        · cases ho; rfl
        · split at ho <;> cases ho <;> rfl
      | kfree n =>
        simp only [step] at ho
        split at ho <;> cases ho
        rfl
      | panic e => cases ho
      | stop => cases ho
      | _ => cases ho; rfl

/-! ## Triples -/

/-- `x`, run from `m`, ends in memory with `Q` and the same processes and files. -/
def VWp {α : Type} (x : Code α) (Q : α → Mem → Prop) (m : Mem) : Prop :=
  ∀ k, x.Wp step (fun _ => False) (fun a s => s.kern = k ∧ Q a s.mem) ⟨m, k⟩

namespace VWp

variable {α β : Type} {Q : α → Mem → Prop} {Q' : β → Mem → Prop} {m : Mem} {T : Multiset Nat}

theorem ret {a : α} (h : Q a m) : VWp (.ret a) Q m := fun _ => ⟨rfl, h⟩

variable {x : Code α}

theorem mono {Q' : α → Mem → Prop} (h : VWp x Q m) (hQ : ∀ a m', Q a m' → Q' a m') :
    VWp x Q' m :=
  fun k => (h k).mono fun _ _ ⟨hk, hq⟩ => ⟨hk, hQ _ _ hq⟩

theorem call {o : Op} {k : iface.Res o → Code β} {r : iface.Res o} {m' : Mem}
    (he : ∀ kern, step o ⟨m, kern⟩ = .ok (r, ⟨m', kern⟩)) (h : VWp (k r) Q' m') :
    VWp (.call o k) Q' m := by
  intro kern
  unfold Prog.Wp
  rw [he kern]
  exact h kern

variable {n : Nat} {i : Fin 512}

theorem pte {k : Pte → Code β} (h : VWp (k (m.pt n i)) Q' m) :
    VWp (.call (.pte n i) k) Q' m :=
  .call (fun _ => rfl) h

theorem setPte {e : Pte} {k : Unit → Code β}
    (h : VWp (k ()) Q' { m with
      pt := Radix.set m.pt n i e
      data := update m.data n (Bytes.write (m.data n) 8 (8 * i) e.bits) }) :
    VWp (.call (.setPte n i e) k) Q' m :=
  .call (fun _ => rfl) h

theorem clear {k : Unit → Code β}
    (h : VWp (k ()) Q' { m with
      pt := update m.pt n fun _ => Pte.zero
      data := update m.data n fun _ => 0 }) :
    VWp (.call (.clear n) k) Q' m :=
  .call (fun _ => rfl) h

theorem kalloc {k : Option Nat → Code β} (h : Own m T)
    (none : ∀ m', m'.page = m.page → Own m' T → VWp (k none) Q' m')
    (some : ∀ n m', n ∉ T → m'.page = update m.page n ⟨fun _ => junk5, fun _ => 5⟩ →
      Own m' (n ::ₘ T) → VWp (k (some n)) Q' m') : VWp (.call .kalloc k) Q' m := by
  have failed : VWp (k .none) Q' { m with kallocs := m.kallocs + 1 } :=
    none _ rfl ⟨h.above, h.cover⟩
  have missed (he : ∀ kern,
      step .kalloc ⟨m, kern⟩ = .ok (.none, ⟨{ m with kallocs := m.kallocs + 1 }, kern⟩)) :
      VWp (.call .kalloc k) Q' m := .call he failed
  cases hfree : m.freelist with
  | nil => exact missed fun kern => by simp only [step, hfree]
  | cons n rest =>
    by_cases hfail : m.fails m.kallocs = true
    · exact missed fun kern => by simp only [step, hfree, if_pos hfail]
    · have he : ∀ kern, step .kalloc ⟨m, kern⟩ = .ok (.some n, ⟨{ m with
          kallocs := m.kallocs + 1
          freelist := rest
          pt := update m.pt n fun _ => junk5
          data := update m.data n fun _ => 5 }, kern⟩) :=
        fun kern => by simp only [step, hfree, if_neg hfail]
      have hcover : (rest : Multiset Nat) + n ::ₘ T = m.ram := by
        rw [Multiset.add_cons, ← Multiset.cons_add, Multiset.cons_coe, ← hfree]
        exact h.cover
      have hn : n ∉ T := fun hm => h.not_free hm (hfree ▸ mem_cons_self)
      exact .call he (some n _ hn page_update ⟨h.above, hcover⟩)

end VWp

/-- An assertion about pages and what they hold. -/
abbrev Pages := Asrt Nat Page

/-- The page `a` with the entries `es`. -/
def entriesAt (a : Nat) (es : Fin 512 → Pte) : Pages where
  holds T c := T = {a} ∧ (c a).entries = es
  frame :=
    fun ⟨hT, hes⟩ hf =>
      ⟨hT, (congrArg Page.entries (hf _ (hT ▸ Multiset.mem_singleton_self _))).trans hes⟩

/-- `x`, run with the processes and files `k` and the pages of `P`, ends with those of `Q` and does
not touch the pages of others, or stops in a way that `tol` tolerates. -/
def Spec {α : Type} (k : Kern) (P : Pages) (x : Code α) (Q : α → Kern → Pages)
    (tol : Option Panic → Prop := fun _ => False) : Prop :=
  ∀ m T R, Own m (T + R) → P.holds T m.page →
    x.Wp step tol (fun a s => (∀ b ∈ R, s.mem.page b = m.page b) ∧
    ∃ T', Own s.mem (T' + R) ∧ (Q a s.kern).holds T' s.mem.page) ⟨m, k⟩

/-- `x` works on memory alone, and takes the pages of `P` to those of `Q`. -/
def Triple {α : Type} (P : Pages) (x : Code α) (Q : α → Pages)
    (tol : Option Panic → Prop := fun _ => False) :
    Prop :=
  ∀ k, Spec k P x (fun a k' => .given (k' = k) (Q a)) tol

namespace Spec

variable {α β ι : Type} {k k' : Kern} {P F : Pages} {Q : α → Kern → Pages} {Q' : β → Kern → Pages}
  {x : Code α} {f : α → Code β} {tol : Option Panic → Prop}

theorem ret {a : α} (h : P ≤ Q a k) : Spec k P (.ret a) Q tol :=
  fun m T _ hO hP => ⟨fun _ _ => rfl, T, hO, h T m.page hP⟩

theorem bind (h : Spec k P x Q tol) (hf : ∀ a k', Spec k' (Q a k') (f a) Q' tol) :
    Spec k P (x.bind f) Q' tol := by
  refine fun m T R hO hP => (h m T R hO hP).bind fun a ⟨m', k'⟩ ⟨hR, T', hO', hQ⟩ => ?_
  refine (hf a k' m' T' R hO' hQ).mono fun b s ⟨hR', hQ'⟩ => ⟨fun c hc => ?_, hQ'⟩
  exact (hR' c hc).trans (hR c hc)

theorem conseq {A : Pages} {Q₀ : α → Kern → Pages} (h : Spec k A x Q₀ tol) (hP : P ≤ A)
    (hQ : ∀ a k', Q₀ a k' ≤ Q a k') : Spec k P x Q tol :=
  fun m T R hO hp => (h m T R hO (hP T m.page hp)).mono fun a s ⟨hR, T', hO', hq⟩ =>
    ⟨hR, T', hO', hQ a s.kern _ _ hq⟩

theorem frame (h : Spec k P x Q tol) : Spec k (P * F) x (fun a k' => Q a k' * F) tol := by
  rintro m _ R hO ⟨T₁, T₂, rfl, hP, hF⟩
  rw [add_assoc] at hO
  refine (h m T₁ (T₂ + R) hO hP).mono fun a s ⟨hR, T', hO', hQ⟩ => ⟨fun b hb => ?_, T' + T₂, ?_, ?_⟩
  · exact hR b (Multiset.mem_add.2 (.inr hb))
  · rwa [add_assoc]
  · exact ⟨T', T₂, rfl, hQ, F.frame hF fun b hb => hR b (Multiset.mem_add.2 (.inl hb))⟩

theorem ex {P : ι → Pages} (h : ∀ i, Spec k (P i) x Q tol) : Spec k (.ex P) x Q tol :=
  fun m T R hO ⟨i, hP⟩ => h i m T R hO hP

variable {φ : Prop}

theorem given (h : φ → Spec k P x Q tol) : Spec k (.given φ P) x Q tol :=
  fun m T R hO ⟨hφ, hP⟩ => h hφ m T R hO hP

theorem given_mul (h : φ → Spec k (P * F) x Q tol) : Spec k (.given φ P * F) x Q tol := by
  rw [Asrt.given_mul]
  exact .given h

theorem mul_given (h : φ → Spec k (F * P) x Q tol) : Spec k (F * .given φ P) x Q tol := by
  rw [Asrt.mul_given]
  exact .given h

theorem of_own (hφ : ∀ m T R, Own m (T + R) → P.holds T m.page → φ) (h : φ → Spec k P x Q tol) :
    Spec k P x Q tol :=
  fun m T R hO hP => h (hφ m T R hO hP) m T R hO hP

theorem mem {B : α → Pages} (h : Triple P x B tol) (hf : ∀ a, Spec k (B a) (f a) Q' tol) :
    Spec k P (x.bind f) Q' tol :=
  (h k).bind fun a _ => .given fun hk => hk ▸ hf a

theorem kern {f : Kern → Code β} (h : Spec k P (f k) Q' tol) :
    Spec k P ((op .kern).bind f) Q' tol := h

theorem setKern {f : Unit → Code β} (h : Spec k' P (f ()) Q' tol) :
    Spec k P (.call (.setKern k') f) Q' tol := h

end Spec

namespace Triple

variable {α β ι : Type} {P F : Pages} {Q : α → Pages} {Q' : β → Pages} {x : Code α} {f : α → Code β}
  {tol : Option Panic → Prop}

theorem of_wp (h : ∀ m T R, Own m (T + R) → P.holds T m.page → VWp x (fun a m' =>
    (∀ b ∈ R, m'.page b = m.page b) ∧ ∃ T', Own m' (T' + R) ∧ (Q a).holds T' m'.page) m) :
    Triple P x Q :=
  fun k m T R hO hP => (h m T R hO hP k).mono fun _ _ ⟨hk, hR, T', hO', hQ⟩ => ⟨hR, T', hO', hk, hQ⟩

theorem tolerate (h : Triple P x Q) : Triple P x Q tol :=
  fun k m T R hO hP => (h k m T R hO hP).weaken fun _ => False.elim

theorem of_exactly (h : ∀ T c, P.holds T c → Triple (.exactly T c) x Q tol) : Triple P x Q tol :=
  fun k m T R hO hP => h T m.page hP k m T R hO ⟨rfl, fun _ _ => rfl⟩

theorem panic {e : Panic} {f : Unit → Code α} (h : tol (some e)) :
    Triple P (.call (.panic e) f) Q tol :=
  fun _ _ _ _ _ _ => h

theorem ret {a : α} (h : P ≤ Q a) : Triple P (.ret a) Q tol :=
  fun _ => .ret fun T pt hP => ⟨rfl, h T pt hP⟩

theorem bind (h : Triple P x Q tol) (hf : ∀ a, Triple (Q a) (f a) Q' tol) :
    Triple P (x.bind f) Q' tol :=
  fun k => .mem h fun a => hf a k

theorem conseq {A : Pages} {Q₀ : α → Pages} (h : Triple A x Q₀ tol) (hP : P ≤ A)
    (hQ : ∀ a, Q₀ a ≤ Q a) :
    Triple P x Q tol :=
  fun k => (h k).conseq hP fun a _ _ _ ⟨hk, hq⟩ => ⟨hk, hQ a _ _ hq⟩

theorem frame (h : Triple P x Q tol) : Triple (P * F) x (fun a => Q a * F) tol :=
  fun k => (h k).frame.conseq le_rfl fun _ _ => Asrt.given_mul.le

theorem frame_left (h : Triple P x Q tol) : Triple (F * P) x (fun a => F * Q a) tol :=
  h.frame.conseq (mul_comm F P).le fun a => (mul_comm (Q a) F).le

theorem frame_one (h : Triple 1 x Q tol) : Triple F x (fun a => Q a * F) tol :=
  h.frame.conseq (one_mul F).ge fun _ => le_rfl

theorem ex {P : ι → Pages} (h : ∀ i, Triple (P i) x Q tol) : Triple (.ex P) x Q tol :=
  fun k => .ex fun i => h i k

variable {φ : Prop}

theorem given (h : φ → Triple P x Q tol) : Triple (.given φ P) x Q tol :=
  fun k => .given fun hφ => h hφ k

theorem given_mul (h : φ → Triple (P * F) x Q tol) : Triple (.given φ P * F) x Q tol :=
  fun k => .given_mul fun hφ => h hφ k

theorem of_own (hφ : ∀ m T R, Own m (T + R) → P.holds T m.page → φ) (h : φ → Triple P x Q tol) :
    Triple P x Q tol :=
  fun k => .of_own hφ fun hp => h hp k

variable {a : Nat} {i : Fin 512}

theorem read (φ : Pte → Prop) (h : ∀ T c, P.holds T c → φ (tablesOf c a i)) :
    Triple P (op (.pte a i)) fun e => .given (φ e) P :=
  .of_wp fun m T _ hO hP => .call (fun _ => rfl) (.ret ⟨fun _ _ => rfl, T, hO, h T m.page hP, hP⟩)

variable {o : Op}

theorem change {r : iface.Res o} {Q : iface.Res o → Pages} (a : Nat) (v : Mem → Page)
    (he : ∀ m kern, step o ⟨m, kern⟩ = .ok (r, ⟨{ m with
      pt := update m.pt a (v m).entries
      data := update m.data a (v m).bytes }, kern⟩))
    (h : ∀ T m, P.holds T m.page → a ∈ T ∧ (Q r).holds T (update m.page a (v m))) :
    Triple P (op o) Q := by
  refine .of_wp fun m T R hO hP => .call (he m) (.ret ⟨fun b hb => ?_, T, ⟨hO.above, hO.cover⟩, ?_⟩)
  · have hba : b ≠ a := by
      rintro rfl
      exact hO.not_mem (h T m hP).1 hb
    rw [page_update, update_of_ne hba]
  · rw [page_update]
    exact (h T m hP).2

theorem write {e : Pte} {Q : Pages}
    (h : ∀ T c, P.holds T c → a ∈ T ∧ Q.holds T (setEntry c a i e)) :
    Triple P (op (.setPte a i e)) fun _ => Q :=
  .change a (fun m => ⟨update (m.pt a) i e, Bytes.write (m.data a) 8 (8 * i) e.bits⟩)
    (fun _ _ => rfl) fun T m => h T m.page

variable {n : Nat}

theorem clear : Triple (.cell n) (op (.clear n)) fun _ => .pts n ⟨fun _ => .zero, fun _ => 0⟩ :=
  .change n (fun _ => ⟨fun _ => .zero, fun _ => 0⟩) (fun _ _ => rfl) fun _ _ hT =>
    ⟨hT ▸ Multiset.mem_singleton_self n, hT, update_self ..⟩

theorem setData {r : iface.Res o} {P : Pages} {Q : iface.Res o → Pages}
    (d : Mem → Nat → UInt8) (he : ∀ m kern, step o ⟨m, kern⟩ = .ok (r, ⟨m.setData n (d m), kern⟩))
    (h : ∀ T m, P.holds T m.page → n ∈ T ∧ (Q r).holds T (update m.page n ⟨entries (d m), d m⟩)) :
    Triple P (op o) Q :=
  .change n (fun m => ⟨entries (d m), d m⟩) he h

theorem fill_cell {off : Nat} {bs : List UInt8} :
    Triple (.cell n) (op (.fill n off bs)) fun _ => .cell n :=
  .setData (fun m => Bytes.splice (m.data n) off bs) (fun _ _ => rfl) fun _ _ hT =>
    ⟨hT ▸ Multiset.mem_singleton_self n, hT⟩

theorem move_cell {dst src : Nat} : Triple (.cell dst) (op (.move dst src n)) fun _ => .cell dst :=
  .setData (fun m o => if o < n then m.data src o else m.data dst o) (fun _ _ => rfl) fun _ _ hT =>
    ⟨hT ▸ Multiset.mem_singleton_self dst, hT⟩

theorem kfree : Triple (.cell n) (op (.kfree n)) fun _ => 1 := by
  refine .of_wp ?_
  rintro m _ R hO rfl
  have hn := hO.mem_ram (Multiset.mem_add.2 (.inl (Multiset.mem_singleton_self n)))
  have he : ∀ kern, step (.kfree n) ⟨m, kern⟩ = .ok ((), ⟨{ m with
      freelist := n :: m.freelist
      pt := update m.pt n fun _ => junk1
      data := update m.data n fun _ => 1 }, kern⟩) := fun kern => if_pos hn
  refine .call he (.ret ⟨fun b hb => ?_, 0, ⟨hO.above, ?_⟩, rfl⟩)
  · have hb : b ≠ n := fun e => hO.not_mem (Multiset.mem_singleton_self n) (e ▸ hb)
    exact page_congr (update_of_ne hb ..) (update_of_ne hb ..)
  · have : ((n :: m.freelist : List Nat) : Multiset Nat) + R = m.ram := by
      rw [← Multiset.cons_coe, Multiset.cons_add, ← Multiset.add_cons]
      exact hO.cover
    rwa [zero_add]

end Triple

/-- The page that `kalloc` returned. -/
def optCell : Option Nat → Pages
  | none => 1
  | some n => .cell n

theorem kalloc_spec : Triple 1 kalloc optCell := by
  refine .of_wp ?_
  rintro m _ R hO rfl
  rw [zero_add] at hO
  refine .kalloc hO (fun m' hpage hO' => .ret ⟨fun b _ => by rw [hpage], 0, ?_, rfl⟩)
    fun n m' hn hpage hO' => .ret ⟨fun b hb => ?_, {n}, hO', rfl⟩
  · rwa [zero_add]
  · rw [hpage, update_of_ne fun e : b = n => hn (e ▸ hb)]

/-! ## `walk` -/

/-- An entry that points to a lower-level page table, and one that maps a page. -/
def Pte.IsNode (e : Pte) : Prop := e = .node e.page
def Pte.IsLeaf (e : Pte) : Prop := e.rwx = true

variable {e : Pte}

theorem Pte.IsLeaf.not_isNode (h : e.IsLeaf) : ¬e.IsNode := by
  intro hn
  rw [hn] at h
  cases h

theorem Pte.isSome_ptr (e : Pte) : e.ptr.isSome = e.v := by
  unfold Pte.ptr
  cases e.v <;> rfl

/-- The pages of the page table of height `ℓ` at `a`. -/
abbrev subtables (pt : Tables) (ℓ a : Nat) : List Nat := Radix.tables Pte.ptr pt ℓ a

/-- Growth, with `L` for the entries that map pages. -/
abbrev Grows (L : Pte → Prop) (ℓ a : Nat) := Radix.Grows Pte.ptr Pte.IsNode L (N := 512) ℓ a

/-- What `walk` did to the page table at `a`, and what it found. -/
structure Walked (L : Pte → Prop) (vpn : Nat) (alloc : Bool) (ℓ a : Nat) (pt pt' : Tables)
    (r : Option (Nat × Fin 512)) :
    Prop where
  grows : ∃ new, Grows L ℓ a pt pt' new
  found : ∀ loc, r = some loc → Radix.locate Pte.ptr pt' ℓ a (px vpn) = some loc
  missed : r = none → alloc = false → Radix.locate Pte.ptr pt ℓ a (px vpn) = none

section Walk

variable {L : Pte → Prop} {m : Mem} {R : Multiset Nat} {vpn ℓ a c : Nat}
  {alloc : Bool} {i : Fin 512}

variable {pt : Tables}

/-- The pages of a child are some of those of its parent. -/
theorem subtables_child (hc : (pt a i).ptr = some c)
    (hn : (subtables pt (ℓ + 1) a).Nodup) :
    ∃ rest, (subtables pt (ℓ + 1) a : Multiset Nat) = (subtables pt ℓ c : Multiset Nat) + rest := by
  refine Multiset.le_iff_exists_add.1 ?_
  refine (Multiset.le_iff_subset (Multiset.coe_nodup.2 (Radix.nodup_child hn hc).1)).2
    fun b hb => ?_
  exact Radix.mem_tables_of_child hc hb

variable {m' : Mem} {r : Option (Nat × Fin 512)}

/-- What is true of a walk from a child is true of the one from its parent. -/
theorem Walked.child {rest : Multiset Nat}
    (h : Walked L vpn alloc ℓ c m.pt m'.pt r) (hc : (m.pt a (px vpn (ℓ + 1))).ptr = some c)
    (hO : Own m (subtables m.pt (ℓ + 1) a + R))
    (hw : Radix.Wf Pte.ptr Pte.IsNode L m.pt (ℓ + 1) a)
    (hrest : (subtables m.pt (ℓ + 1) a : Multiset Nat) = (subtables m.pt ℓ c : Multiset Nat) + rest)
    (hO' : Own m' (subtables m'.pt ℓ c + (rest + R))) (hR : ∀ b ∈ rest + R, m'.page b = m.page b) :
    Walked L vpn alloc (ℓ + 1) a m.pt m'.pt r ∧ Own m' (subtables m'.pt (ℓ + 1) a + R) := by
  obtain ⟨new, hg⟩ := h.grows
  have hn : (subtables m.pt (ℓ + 1) a).Nodup :=
    Multiset.coe_nodup.1 (Multiset.nodup_add.1 hO.nodup).1
  have hnew : (subtables m'.pt ℓ c : Multiset Nat) = (new : Multiset Nat) + subtables m.pt ℓ c := by
    rw [Multiset.coe_add]
    exact Multiset.coe_eq_coe.2 hg.tables
  have hnodup : ((new : Multiset Nat) + subtables m.pt (ℓ + 1) a).Nodup := by
    rw [hrest, ← add_assoc, ← hnew]
    have := hO'.nodup
    rw [← add_assoc] at this
    exact (Multiset.nodup_add.1 this).1
  have hgrow := hg.child hc hn hw fun b hb =>
    Multiset.disjoint_left.1 (Multiset.nodup_add.1 hnodup).2.2 (Multiset.mem_coe.2 hb)
  have hnode : a ∉ subtables m.pt ℓ c := (Radix.nodup_child hn hc).2
  have ha : m'.pt a = m.pt a := by
    have hmem : a ∈ (subtables m.pt ℓ c : Multiset Nat) + rest := hrest ▸ Radix.mem_tables_self
    rcases Multiset.mem_add.1 hmem with h | h
    · exact absurd h hnode
    · exact congrArg Page.entries (hR a (Multiset.mem_add.2 (.inl h)))
  refine ⟨⟨⟨new, hgrow⟩, fun loc hl => ?_, fun hr hal => ?_⟩, ?_⟩
  · rw [Radix.locate, ha, hc]
    exact h.found loc hl
  · rw [Radix.locate, hc]
    exact h.missed hr hal
  · have : (subtables m'.pt (ℓ + 1) a : Multiset Nat) = subtables m'.pt ℓ c + rest := by
      rw [hnew, add_assoc, ← hrest, Multiset.coe_add]
      exact Multiset.coe_eq_coe.2 hgrow.tables
    rw [this, add_assoc]
    exact hO'

theorem Walked.trans {pt' pt'' : Tables} {new : List Nat}
    (h : Walked L vpn true ℓ a pt' pt'' r) (hg : Grows L ℓ a pt pt' new) :
    Walked L vpn true ℓ a pt pt'' r := by
  obtain ⟨new', hg'⟩ := h.grows
  exact ⟨⟨_, hg.trans hg'⟩, h.found, nofun⟩

/-- The tables after the new page `n` has been cleared and entered at `i`. -/
def graft (pt : Tables) (n a : Nat) (i : Fin 512) : Tables :=
  Radix.set (update pt n fun _ => .zero) a i (.node n)

/-- Memory after that. -/
def Mem.graft (m : Mem) (n a : Nat) (i : Fin 512) : Mem :=
  let data := update m.data n fun _ => 0
  { m with
    pt := Vm.graft m.pt n a i
    data := update data a (Bytes.write (data a) 8 (8 * i) (Pte.node n).bits) }

theorem graft_own {n : Nat} (hO : Own m (subtables m.pt (ℓ + 1) a + R))
    (hw : Radix.Wf Pte.ptr Pte.IsNode L m.pt (ℓ + 1) a) (hempty : (m.pt a i).ptr = none)
    (hn : n ∉ (subtables m.pt (ℓ + 1) a : Multiset Nat) + R)
    (hpage : m'.page = update m.page n ⟨fun _ => junk5, fun _ => 5⟩)
    (hO' : Own m' (n ::ₘ (subtables m.pt (ℓ + 1) a + R))) :
    Grows L (ℓ + 1) a m.pt (graft m'.pt n a i) [n] ∧
      Own (m'.graft n a i) (subtables (graft m'.pt n a i) (ℓ + 1) a + R) ∧
      ∀ b ∈ R, (m'.graft n a i).page b = m.page b := by
  have hfresh : n ∉ subtables m.pt (ℓ + 1) a := fun h => hn (Multiset.mem_add.2 (.inl h))
  have hpt : m'.pt = update m.pt n fun _ => junk5 := by
    rw [← tablesOf_page m', hpage]
    funext b
    rw [tablesOf, update_apply, update_apply]
    split
    · rfl
    · rfl
  have hg : Grows L (ℓ + 1) a m.pt (graft m'.pt n a i) [n] := by
    rw [hpt, graft, update_idem]
    exact .attach (fun _ => rfl) rfl rfl hempty
      (Multiset.coe_nodup.1 (Multiset.nodup_add.1 hO.nodup).1) hw hfresh
  have htab : (subtables (graft m'.pt n a i) (ℓ + 1) a : Multiset Nat) =
      n ::ₘ (subtables m.pt (ℓ + 1) a : Multiset Nat) := Multiset.coe_eq_coe.2 hg.tables
  refine ⟨hg, ⟨hO'.above, ?_⟩, fun b hb => ?_⟩
  · rw [htab, Multiset.cons_add]
    exact hO'.cover
  · have hbn : b ≠ n := by
      rintro rfl
      exact hn (Multiset.mem_add.2 (.inr hb))
    have hba : b ≠ a := by
      rintro rfl
      exact hO.not_mem (Multiset.mem_coe.2 Radix.mem_tables_self) hb
    have hsame : m'.page b = m.page b := by rw [hpage, update_of_ne hbn]
    refine (page_congr ?_ ?_).trans hsame
    · exact (Radix.set_of_ne hba).trans (update_of_ne hbn ..)
    · exact (update_of_ne hba ..).trans (update_of_ne hbn ..)

theorem walkFrom_wp (hO : Own m (subtables m.pt ℓ a + R))
    (hw : Radix.Wf Pte.ptr Pte.IsNode L m.pt ℓ a) :
    VWp (walkFrom vpn alloc ℓ a) (fun r m' => (∀ b ∈ R, m'.page b = m.page b) ∧
      Own m' (subtables m'.pt ℓ a + R) ∧ Walked L vpn alloc ℓ a m.pt m'.pt r) m := by
  induction ℓ generalizing a m R with
  | zero =>
    refine .ret ⟨fun _ _ => rfl, hO, ⟨[], .refl hw⟩, fun loc h => ?_, nofun⟩
    rw [← h]
    rfl
  | succ ℓ ih =>
    have descend {m : Mem} {c : Nat} (hO : Own m (subtables m.pt (ℓ + 1) a + R))
        (hw : Radix.Wf Pte.ptr Pte.IsNode L m.pt (ℓ + 1) a)
        (hc : (m.pt a (px vpn (ℓ + 1))).ptr = some c) :
        VWp (walkFrom vpn alloc ℓ c) (fun r m' => (∀ b ∈ R, m'.page b = m.page b) ∧
          Own m' (subtables m'.pt (ℓ + 1) a + R) ∧
          Walked L vpn alloc (ℓ + 1) a m.pt m'.pt r) m := by
      have hn := Multiset.coe_nodup.1 (Multiset.nodup_add.1 hO.nodup).1
      obtain ⟨rest, hrest⟩ := subtables_child hc hn
      have hOc : Own m (subtables m.pt ℓ c + (rest + R)) := by
        rw [← add_assoc, ← hrest]
        exact hO
      refine (ih hOc (hw _ c hc).2).mono fun r m' h => ?_
      obtain ⟨hR, hO', h⟩ := h
      obtain ⟨h', hO''⟩ := h.child hc hO hw hrest hO' hR
      exact ⟨fun b hb => hR b (Multiset.mem_add.2 (.inr hb)), hO'', h'⟩
    refine .pte ?_
    show VWp (if (m.pt a (px vpn (ℓ + 1))).v then _ else _) _ _
    split
    · rename_i hv
      exact descend hO hw (if_pos hv)
    · rename_i hv
      have hempty : (m.pt a (px vpn (ℓ + 1))).ptr = none := if_neg hv
      have hnone : Radix.locate Pte.ptr m.pt (ℓ + 1) a (px vpn) = none := by
        rw [Radix.locate, hempty]
        rfl
      cases alloc with
      | false => exact .ret ⟨fun _ _ => rfl, hO, ⟨[], .refl hw⟩, by simp, fun _ _ => hnone⟩
      | true =>
        refine .kalloc hO (fun m' hpage hO' => .ret ?_) fun n m' hn hpage hO' => ?_
        · have hpt : m'.pt = m.pt := congrArg tablesOf hpage
          rw [hpage, hpt]
          exact ⟨fun _ _ => rfl, hO', ⟨[], .refl hw⟩, by simp, by simp⟩
        · obtain ⟨hg, hO₂, hR₂⟩ := graft_own hO hw hempty hn hpage hO'
          have hc : (graft m'.pt n a (px vpn (ℓ + 1)) a (px vpn (ℓ + 1))).ptr = some n := by
            rw [graft, Radix.set_self, update_self]
            rfl
          refine .clear (.setPte ((descend hO₂ hg.wf hc).mono fun r m'' h => ?_))
          exact ⟨fun b hb => (h.1 b hb).trans (hR₂ b hb), h.2.1, h.2.2.trans hg⟩

end Walk

/-! ## Spaces -/

/-- The page table at `root` implements the map `f`, whose entries satisfy `L`. -/
structure Space (pt : Tables) (root : Nat) (f : Nat → Option Pte) (L : Pte → Prop := Pte.IsLeaf) :
    Prop where
  nodup : (tablePages pt root).Nodup
  wf : Radix.Wf Pte.ptr Pte.IsNode L pt 2 root
  map : ∀ vpn < 512 ^ 3, mapping pt root vpn = f vpn

variable {L : Pte → Prop} {pt : Tables} {root : Nat}

theorem Space.frame {pt' : Tables} {f : Nat → Option Pte}
    (h : Space pt root f L) (hf : ∀ a ∈ tablePages pt root, pt' a = pt a) : Space pt' root f L where
  nodup := by
    rw [tablePages, Radix.tables_congr hf]
    exact h.nodup
  wf := h.wf.congr hf
  map vpn hv := (Radix.lookup_congr hf).trans (h.map vpn hv)

variable {vpn : Nat}

theorem Space.leaf {f : Nat → Option Pte}
    (h : Space pt root f L) (hv : vpn < 512 ^ 3) (he : f vpn = some e) : L e ∧ e.v = true := by
  obtain ⟨hl, hs⟩ := h.wf.leaf ((h.map vpn hv).trans he)
  exact ⟨hl, e.isSome_ptr ▸ hs⟩

def space (root : Nat) (f : Nat → Option Pte) (L : Pte → Prop := Pte.IsLeaf) : Pages where
  holds T c := T = tablePages (tablesOf c) root ∧ Space (tablesOf c) root f L
  frame := by
    rintro _ c c' ⟨rfl, h⟩ hf
    have hf : ∀ a ∈ tablePages (tablesOf c) root, tablesOf c' a = tablesOf c a :=
      fun a ha => congrArg Page.entries (hf a ha)
    exact ⟨congrArg _ (Radix.tables_congr hf).symm, h.frame hf⟩

theorem space_mono {L' : Pte → Prop} {f : Nat → Option Pte} (hL : ∀ e, L e → L' e) :
    space root f L ≤ space root f L' :=
  fun _ _ ⟨hT, h⟩ => ⟨hT, h.nodup, h.wf.mono hL, h.map⟩

/-- A space in which the place of the entry of `vpn` is known. -/
def spaceAt (root : Nat) (f : Nat → Option Pte) (vpn : Nat) (loc : Nat × Fin 512)
    (L : Pte → Prop := Pte.IsLeaf) : Pages where
  holds T c :=
    (space root f L).holds T c ∧ Radix.locate Pte.ptr (tablesOf c) 2 root (px vpn) = some loc
  frame := by
    rintro _ c c' ⟨h, hl⟩ hf
    refine ⟨(space root f L).frame h hf, ?_⟩
    rw [h.1] at hf
    exact (Radix.locate_congr fun a ha => congrArg Page.entries (hf a ha)).trans hl

theorem spaceAt_le {f : Nat → Option Pte} {loc : Nat × Fin 512} :
    spaceAt root f vpn loc L ≤ space root f L := fun _ _ h => h.1

section Space

variable {L : Pte → Prop} {root vpn a n : Nat} {f : Nat → Option Pte} {alloc : Bool} {i : Fin 512}

theorem maxVpn_lt : maxVpn < 512 ^ 3 := by decide

theorem px_inj {u v : Nat} (hu : u < 512 ^ 3) (hv : v < 512 ^ 3) :
    (∀ j ≤ 2, px u j = px v j) ↔ u = v := by
  refine ⟨fun h => ?_, fun h _ _ => h ▸ rfl⟩
  have h0 := congrArg Fin.val (h 0 (by decide))
  have h1 := congrArg Fin.val (h 1 (by decide))
  have h2 := congrArg Fin.val (h 2 (by decide))
  simp only [px, Fin.ofNat, Nat.pow_zero, Nat.pow_one, Nat.div_one] at h0 h1 h2
  omega

/-- What `walk` leaves. -/
def walkPost (root : Nat) (f : Nat → Option Pte) (vpn : Nat) (alloc : Bool)
    (L : Pte → Prop := Pte.IsLeaf) :
    Option (Nat × Fin 512) → Pages
  | none => .given (alloc = false → f vpn = none) (space root f L)
  | some loc => spaceAt root f vpn loc L

theorem walk_spec (hv : vpn < maxVpn) :
    Triple (space root f L) (walk root vpn alloc) (walkPost root f vpn alloc L) := by
  refine .of_wp ?_
  rintro m _ R hO ⟨rfl, hs⟩
  rw [walk, if_neg (Nat.not_le.2 hv)]
  refine (walkFrom_wp hO hs.wf).mono fun r m' ⟨hR, hO', h⟩ => ⟨hR, _, hO', ?_⟩
  obtain ⟨new, hg⟩ := h.grows
  have hs' : (space root f L).holds (subtables m'.pt 2 root) m'.page :=
    ⟨rfl, Multiset.coe_nodup.1 (Multiset.nodup_add.1 hO'.nodup).1, hg.wf,
      fun u hu => (hg.lookup _).trans (hs.map u hu)⟩
  cases r with
  | none =>
    refine ⟨fun hal => ?_, hs'⟩
    rw [← hs.map vpn (hv.trans maxVpn_lt)]
    exact Radix.lookup_of_locate_none (h.missed rfl hal)
  | some loc => exact ⟨hs', h.found loc rfl⟩

theorem readPte_spec (hv : vpn < maxVpn) : Triple (spaceAt root f vpn (a, i) L) (op (.pte a i))
    fun e => .given ((f vpn = if e.v then some e else none) ∧ (e.v = true → L e))
      (spaceAt root f vpn (a, i) L) := by
  refine .read (fun e => (f vpn = if e.v then some e else none) ∧ (e.v = true → L e))
    fun T c ⟨⟨_, hs⟩, hl⟩ => ?_
  have he : f vpn = if (tablesOf c a i).v then some (tablesOf c a i) else none := by
    rw [← hs.map vpn (hv.trans maxVpn_lt), mapping, Radix.lookup_of_locate hl, Pte.isSome_ptr]
  exact ⟨he, fun h => (hs.leaf (hv.trans maxVpn_lt) (he.trans (if_pos h))).1⟩

theorem writePte_spec {e : Pte} (hv : vpn < maxVpn) (he : e.v = true → L e) :
    Triple (spaceAt root f vpn (a, i) L) (op (.setPte a i e))
      fun _ => space root (update f vpn (if e.v then some e else none)) L := by
  refine .write fun T c ⟨⟨hT, hs⟩, hl⟩ => ?_
  have htab : tablePages (Radix.set (tablesOf c) a i e) root = tablePages (tablesOf c) root :=
    Radix.tables_set hs.nodup hl
  have hmem : a ∈ T := hT ▸ Multiset.mem_coe.2 (Radix.locate_mem hl)
  have hnodup : (tablePages (Radix.set (tablesOf c) a i e) root).Nodup := by
    rw [htab]
    exact hs.nodup
  show a ∈ T ∧ T = tablePages (tablesOf (setEntry c a i e)) root ∧
      Space (tablesOf (setEntry c a i e)) root _ L
  rw [tablesOf_setEntry]
  refine ⟨hmem, hT.trans (congrArg _ htab.symm), hnodup, hs.wf.set hs.nodup hl fun h => he ?_,
    fun u hu => ?_⟩
  · rwa [Pte.isSome_ptr] at h
  · rw [mapping, Radix.lookup_set hs.nodup hl, update_apply, Pte.isSome_ptr]
    exact if_congr (px_inj hu (hv.trans maxVpn_lt)) rfl (hs.map u hu)

/-- The map with `j` pages from `a` on mapped to consecutive physical pages from `page` on. -/
def mapped (f : Nat → Option Pte) (perm : Pte) (page a j : Nat) : Nat → Option Pte :=
  fun v => if a ≤ v ∧ v < a + j then some { perm with page := page + (v - a), v := true } else f v

section Mapped

variable {perm : Pte} {page j : Nat}

theorem mapped_zero : mapped f perm page a 0 = f := funext fun _ => if_neg fun h => by omega

theorem mapped_succ :
    mapped (update f a (some { perm with page, v := true })) perm (page + 1) (a + 1) j =
      mapped f perm page a (j + 1) := by
  funext v
  unfold mapped
  rcases eq_or_ne v a with rfl | hva
  · have hnot : ¬(v + 1 ≤ v ∧ v < v + 1 + j) := fun h => by omega
    rw [if_neg hnot, if_pos ⟨le_rfl, by omega⟩, update_self, Nat.sub_self, Nat.add_zero]
  · rw [update_of_ne hva]
    by_cases hv : a ≤ v ∧ v < a + (j + 1)
    · rw [if_pos hv, if_pos (by omega), show page + 1 + (v - (a + 1)) = page + (v - a) by omega]
    · rw [if_neg hv, if_neg (by omega)]

theorem mapped_one :
    mapped f perm page a 1 = update f a (some { perm with page, v := true }) := by
  rw [← mapped_succ, mapped_zero]

/-- What the loop of `mappages` leaves: its first `j` pages are mapped, and all of them if it
succeeds. -/
def mapPost (root : Nat) (f : Nat → Option Pte) (perm : Pte) (k a page : Nat)
    (L : Pte → Prop := Pte.IsLeaf) (ok : Bool) : Pages :=
  .ex fun j => .given (j ≤ k + 1 ∧ (ok = true ↔ j = k + 1) ∧ ∀ v, a ≤ v → v < a + j →
    v < maxVpn ∧ f v = none)
    (space root (mapped f perm page a j) L)

theorem mapPost_none {k : Nat} : space root f L ≤ mapPost root f perm k a page L false :=
  fun _ _ h => ⟨0, ⟨by omega, ⟨nofun, fun h => by omega⟩, fun _ _ _ => by omega⟩,
    mapped_zero.symm ▸ h⟩

/-- The pages that `mappages` reaches are below `MAXVA` and not mapped, or it panics. -/
theorem mapFrom_spec {k a page : Nat} {f : Nat → Option Pte} {tol : Option Panic → Prop}
    (hp : ∀ page, L { perm with page, v := true })
    (free : (∀ v, a ≤ v → v ≤ a + k → v < maxVpn ∧ f v = none) ∨ ∀ e, tol e) :
    Triple (space root f L) (mapFrom root perm k a page) (mapPost root f perm k a page L) tol := by
  unfold mapFrom
  by_cases hv : a < maxVpn
  swap
  · have htol := free.resolve_left fun h => hv (h a le_rfl (by omega)).1
    rw [walk, if_pos (Nat.not_lt.1 hv)]
    exact .panic (htol _)
  refine (walk_spec hv).tolerate.bind fun r => ?_
  cases r with
  | none => exact .ret fun T pt h => mapPost_none T pt h.2
  | some loc =>
    refine (readPte_spec hv).tolerate.bind fun e => .given fun ⟨he, _⟩ => ?_
    show Triple _ (if e.v then _ else _) _ _
    split
    · rename_i hev
      have htol := free.resolve_left fun h => by
        rw [(h a le_rfl (by omega)).2, if_pos hev] at he
        cases he
      exact .panic (htol _)
    · rename_i hev
      rw [if_neg hev] at he
      have hw :
          Triple (spaceAt root f a loc L) (op (.setPte loc.1 loc.2 { perm with page, v := true }))
          (fun _ => space root (update f a (some { perm with page, v := true })) L) tol :=
        (writePte_spec hv fun _ => hp page).tolerate
      refine hw.bind fun _ => ?_
      -- the first page is mapped; the rest is what the loop does from the next one on
      cases k with
      | zero =>
        refine .ret fun T pt h => ⟨1, ⟨le_rfl, by simp, fun v h₁ h₂ => ?_⟩, mapped_one.symm ▸ h⟩
        rw [show v = a by omega]
        exact ⟨hv, he⟩
      | succ k =>
        have next : (∀ v, a + 1 ≤ v → v ≤ a + 1 + k → v < maxVpn ∧
            update f a (some { perm with page, v := true }) v = none) ∨ ∀ e, tol e :=
          free.imp_left fun h v h₁ h₂ => by
            rw [update_of_ne (by omega)]
            exact h v (by omega) (by omega)
        refine (mapFrom_spec hp next).conseq le_rfl fun ok T pt h => ?_
        obtain ⟨j, ⟨hj, hok, hrange⟩, h⟩ := h
        rw [mapped_succ] at h
        refine ⟨j + 1, ⟨by omega, hok.trans (by omega), fun v h₁ h₂ => ?_⟩, h⟩
        rcases eq_or_ne v a with rfl | hva
        · exact ⟨hv, he⟩
        · have := hrange v (by omega) (by omega)
          rwa [update_of_ne hva] at this
termination_by k

theorem mappages_spec (hv : vpn < maxVpn) (hf : f vpn = none) (hp : perm.IsLeaf) :
    Triple (space root f) (mappages root (vpn * PGSIZE) PGSIZE page perm) fun ok =>
      space root (if ok then update f vpn (some { perm with page, v := true }) else f) := by
  have hpos : 0 < PGSIZE := by decide
  have hk : (vpn * PGSIZE + PGSIZE - 1) / PGSIZE - vpn * PGSIZE / PGSIZE = 0 := by
    simp only [PGSIZE]
    omega
  rw [mappages, if_neg (by decide), hk, Nat.mul_div_cancel vpn hpos]
  have free : ∀ v, vpn ≤ v → v ≤ vpn + 0 → v < maxVpn ∧ f v = none := by
    intro v h₁ h₂
    rw [show v = vpn by omega]
    exact ⟨hv, hf⟩
  refine (mapFrom_spec (fun _ => hp) (.inl free)).conseq le_rfl fun ok T pt h => ?_
  obtain ⟨j, ⟨hj, hok, -⟩, h⟩ := h
  cases ok with
  | true =>
    rw [hok.1 rfl, mapped_one] at h
    exact h
  | false =>
    have : j ≠ 0 + 1 := fun e => by cases hok.2 e
    rw [show j = 0 by omega, mapped_zero] at h
    exact h

end Mapped

/-- The page of a user, if it is to be freed. -/
def held (free : Bool) (e : Option Pte) : Pages := if free then optCell (e.map Pte.page) else 1

/-- The map without the pages from `a` up to `b`. -/
def without (f : Nat → Option Pte) (a b : Nat) : Nat → Option Pte :=
  fun v => if a ≤ v ∧ v < b then none else f v

/-- Pages that `uvmunmap` takes out of the map. -/
def Unmaps (f : Nat → Option Pte) (a n : Nat) : Prop :=
  ∀ v, a ≤ v → v < a + n → v < maxVpn ∧ ∃ e, f v = some e ∧ ¬e.IsNode

variable {free : Bool}

/-- The pages that `uvmunmap` reaches are mapped below `MAXVA`, or it panics. -/
theorem unmapFrom_removes {tol : Option Panic → Prop}
    (all : (∀ v, a ≤ v → v < a + n → v < maxVpn ∧ ∃ e, f v = some e ∧ (L e → ¬e.IsNode)) ∨
      ∀ e, tol e) :
    Triple (space root f L * ∏ v ∈ Finset.Ico a (a + n), held free (f v)) (unmapFrom root free n a)
      (fun _ => .given (Unmaps f a n) (space root (without f a (a + n)) L)) tol := by
  induction n generalizing a f with
  | zero =>
    refine .ret fun T pt h => ⟨fun v h₁ h₂ => by omega, ?_⟩
    have hsame : without f a (a + 0) = f := funext fun v => if_neg fun h => by omega
    rw [hsame]
    simpa using h
  | succ n ih =>
    have hrest : without (update f a none) (a + 1) (a + 1 + n) = without f a (a + 1 + n) := by
      funext v
      rcases eq_or_ne v a with rfl | hva
      · rw [without, without, update_self, ite_self, if_pos ⟨le_rfl, by omega⟩]
      · rw [without, without, update_of_ne hva]
        exact if_congr (by omega) rfl rfl
    have all' : (∀ v, a + 1 ≤ v → v < a + 1 + n → v < maxVpn ∧
        ∃ e, update f a none v = some e ∧ (L e → ¬e.IsNode)) ∨ ∀ e, tol e :=
      all.imp_left fun h v h₁ h₂ => by
        rw [update_of_ne (by omega)]
        exact h v (by omega) (by omega)
    have hprod : ∏ v ∈ Finset.Ico (a + 1) (a + 1 + n), held free (f v) =
        ∏ v ∈ Finset.Ico (a + 1) (a + 1 + n), held free (update f a none v) := by
      refine Finset.prod_congr rfl fun v hv => ?_
      rw [update_of_ne (by have := (Finset.mem_Ico.1 hv).1; omega)]
    have next := ih all'
    rw [hrest, ← hprod] at next
    rw [Finset.prod_eq_prod_Ico_succ_bot (by omega), show a + (n + 1) = a + 1 + n by omega]
    by_cases ha : a < maxVpn
    swap
    · have htol := all.resolve_left fun h => ha (h a le_rfl (by omega)).1
      rw [unmapFrom, walk, if_pos (Nat.not_lt.1 ha)]
      exact .panic (htol _)
    refine (walk_spec ha).frame.tolerate.bind fun r => ?_
    cases r with
    | none =>
      rw [walkPost, Asrt.given_mul]
      refine .given fun hnone => .panic (all.resolve_left (fun h => ?_) _)
      obtain ⟨-, e, he, -⟩ := h a le_rfl (by omega)
      rw [hnone rfl] at he
      cases he
    | some loc =>
      refine (readPte_spec ha).frame.tolerate.bind fun e => .given_mul fun ⟨he, hL⟩ => ?_
      show Triple _ (if e.v = false then _ else if e = .node e.page then _ else _) _ _
      split
      · rename_i hv
        refine .panic (all.resolve_left (fun h => ?_) _)
        obtain ⟨-, e', he', -⟩ := h a le_rfl (by omega)
        rw [he', if_neg (by rw [hv]; nofun)] at he
        cases he
      rename_i hv
      rw [Bool.not_eq_false] at hv
      rw [if_pos hv] at he
      split
      · rename_i hnode
        refine .panic (all.resolve_left (fun h => ?_) _)
        obtain ⟨-, e', he', hleaf⟩ := h a le_rfl (by omega)
        rw [he] at he'
        cases he'
        exact hleaf (hL hv) hnode
      rename_i hnode
      have hset : Triple (spaceAt root f a loc L) (op (.setPte loc.1 loc.2 .zero))
          (fun _ => space root (update f a none) L) tol := (writePte_spec ha nofun).tolerate
      have hdone (x : Code Unit) (h : Triple (space root (update f a none) L *
          ∏ v ∈ Finset.Ico (a + 1) (a + 1 + n), held free (f v)) x
          (fun _ => .given (Unmaps (update f a none) (a + 1) n)
            (space root (without f a (a + 1 + n)) L)) tol) :
          Triple (spaceAt root f a loc L * ∏ v ∈ Finset.Ico (a + 1) (a + 1 + n), held free (f v))
            ((op (.setPte loc.1 loc.2 .zero)).bind fun _ => x)
            (fun _ => .given (Unmaps f a (n + 1)) (space root (without f a (a + 1 + n)) L))
              tol := by
        refine hset.frame.bind fun _ => h.conseq le_rfl fun _ T pt ⟨hrange, h⟩ =>
          ⟨fun v h₁ h₂ => ?_, h⟩
        rcases eq_or_ne v a with rfl | hva
        · exact ⟨ha, e, he, hnode⟩
        · have := hrange v (by omega) (by omega)
          rwa [update_of_ne hva] at this
      cases free with
      | false =>
        rw [held, if_neg nofun, one_mul]
        exact hdone _ next
      | true =>
        rw [he, held, if_pos rfl, mul_left_comm]
        refine Triple.kfree.frame.tolerate.bind fun _ => ?_
        rw [one_mul]
        exact hdone _ next

theorem unmapFrom_spec (hn : a + n ≤ maxVpn) (hf : ∀ v, a ≤ v → v < a + n → (f v).isSome) :
    Triple (space root f * ∏ v ∈ Finset.Ico a (a + n), held free (f v)) (unmapFrom root free n a)
      fun _ => space root (without f a (a + n)) := by
  refine (unmapFrom_removes (.inl fun v h₁ h₂ => ⟨by omega, ?_⟩)).conseq le_rfl fun _ _ _ h => h.2
  obtain ⟨e, he⟩ := Option.isSome_iff_exists.1 (hf v h₁ h₂)
  exact ⟨e, he, Pte.IsLeaf.not_isNode⟩

/-! ## `freewalk` -/

/-- A page table without leaves. -/
def bare : Nat → Nat → Pages
  | 0, a => .ex fun es => .given (∀ i, (es i).v = false) (entriesAt a es)
  | ℓ + 1, a => .ex fun es => entriesAt a es * (indices.map fun i =>
      if (es i).v then .given (es i).IsNode (bare ℓ (es i).page) else 1).prod

variable {ℓ : Nat}

theorem subtables_succ {pt : Tables} :
    subtables pt (ℓ + 1) a = a :: indices.flatMap fun i => (pt a i).ptr.elim []
    (subtables pt ℓ) := by
  unfold indices
  rfl

theorem bare_of_lookup {c : Nat → Page} (hn : (subtables (tablesOf c) ℓ a).Nodup)
    (hw : Radix.Wf Pte.ptr Pte.IsNode L (tablesOf c) ℓ a)
    (hl : ∀ ix, Radix.lookup Pte.ptr (tablesOf c) ℓ a ix = none) :
    (bare ℓ a).holds (subtables (tablesOf c) ℓ a) c := by
  induction ℓ generalizing a with
  | zero =>
    refine ⟨tablesOf c a, fun i => ?_, rfl, rfl⟩
    have := hl fun _ => i
    rw [Radix.lookup, Pte.isSome_ptr] at this
    cases hv : (tablesOf c a i).v with
    | false => rfl
    | true => rw [hv] at this; cases this
  | succ ℓ ih =>
    have kids (l : List (Fin 512)) : (l.map fun i => if (tablesOf c a i).v then
        Asrt.given (tablesOf c a i).IsNode (bare ℓ (tablesOf c a i).page) else 1).prod.holds
        (l.flatMap fun i => (tablesOf c a i).ptr.elim [] (subtables (tablesOf c) ℓ)) c := by
      induction l with
      | nil => rfl
      | cons i l ih' =>
        refine ⟨_, _, (Multiset.coe_add ..).symm, ?_, ih'⟩
        beta_reduce
        cases hv : (tablesOf c a i).v with
        | false =>
          have hc : (tablesOf c a i).ptr = none := if_neg (by simp [hv])
          rw [hc, if_neg (by simp)]
          rfl
        | true =>
          have hc : (tablesOf c a i).ptr = some (tablesOf c a i).page := if_pos hv
          rw [hc, if_pos rfl]
          refine ⟨(hw i _ hc).1, ih (Radix.nodup_child hn hc).1 (hw i _ hc).2 fun ix => ?_⟩
          have := hl (update ix (ℓ + 1) i)
          rw [Radix.lookup, update_self, hc] at this
          refine (Radix.lookup_ix_congr fun j hj => ?_).trans this
          rw [update_of_ne (by omega)]
    refine ⟨tablesOf c a, {a}, _, ?_, ⟨rfl, rfl⟩, kids indices⟩
    rw [Multiset.singleton_add, Multiset.cons_coe, subtables_succ]

theorem bare_of_space (hf : ∀ v < 512 ^ 3, f v = none) : space root f L ≤ bare 2 root := by
  rintro _ c ⟨rfl, hs⟩
  refine bare_of_lookup hs.nodup hs.wf fun ix => ?_
  let v := (ix 0).val + 512 * (ix 1).val + 512 ^ 2 * (ix 2).val
  have h0 := (ix 0).isLt
  have h1 := (ix 1).isLt
  have h2 := (ix 2).isLt
  have hv : v < 512 ^ 3 := by
    show (ix 0).val + 512 * (ix 1).val + 512 ^ 2 * (ix 2).val < _
    omega
  rw [← hf v hv, ← hs.map v hv]
  refine Radix.lookup_ix_congr fun j hj => Fin.ext ?_
  have : j = 0 ∨ j = 1 ∨ j = 2 := by omega
  rcases this with rfl | rfl | rfl <;> simp only [px, Fin.ofNat, v] <;> omega

theorem freeEntries_spec {child : Nat → Code Unit} {K : Pte → Pages} {es : Fin 512 → Pte}
    (hkid : ∀ e, e.v = true → ∃ P, K e ≤ .given e.IsNode P ∧ Triple P (child e.page) fun _ => 1)
    (hnone : ∀ e, e.v = false → K e = 1) {l : List (Fin 512)} (hl : l.Nodup) :
    Triple (entriesAt a es * (l.map fun i => K (es i)).prod)
    (freeEntries child a l) fun _ => .cell a := by
  induction l generalizing es with
  | nil =>
    rw [map_nil, prod_nil, mul_one]
    exact .ret fun _ _ h => h.1
  | cons i l ih =>
    obtain ⟨hi, hl⟩ := nodup_cons.1 hl
    have hread : Triple (entriesAt a es) (op (.pte a i)) fun e =>
        .given (e = es i) (entriesAt a es) :=
      .read (fun e => e = es i) fun T c h => congrFun h.2 i
    rw [map_cons, prod_cons]
    refine hread.frame.bind fun e => ?_
    rw [Asrt.given_mul]
    refine .given fun he => ?_
    subst he
    show Triple _ (if _ then _ else if _ then _ else _) _
    cases hv : (es i).v with
    | false =>
      rw [hnone _ hv, one_mul]
      exact ih hl
    | true =>
      obtain ⟨P, hP, hchild⟩ := hkid _ hv
      refine .conseq
        (A := .given (es i).IsNode (P * (entriesAt a es * (l.map fun i => K (es i)).prod)))
        (.given fun hnode => ?_) ?_ fun _ => le_rfl
      · have hrwx : (es i).rwx = false := by
          rw [hnode]
          rfl
        rw [hrwx]
        refine hchild.frame.bind fun _ => ?_
        rw [one_mul]
        have hset : Triple (entriesAt a es) (op (.setPte a i .zero))
            fun _ => entriesAt a (update es i .zero) :=
          .write fun T c ⟨hT, hes⟩ => ⟨hT ▸ Multiset.mem_singleton_self a, hT, by
            rw [setEntry, update_self, hes]⟩
        refine hset.frame.bind fun _ => ?_
        have hsame : l.map (fun j => K (es j)) = l.map fun j => K (update es i .zero j) :=
          map_congr_left fun j hj => by rw [update_of_ne fun e : j = i => hi (e ▸ hj)]
        rw [hsame]
        exact ih hl
      · rw [mul_left_comm, ← Asrt.given_mul]
        exact mul_le_mul_left hP _

theorem nodup_indices : indices.Nodup := by
  unfold indices
  exact nodup_finRange 512

theorem freewalk_of_entries {P : Pages} {depth : Nat}
    (h : Triple P (freeEntries (freewalk depth) a indices) fun _ => .cell a) :
    Triple P (freewalk (depth + 1) a) fun _ => 1 :=
  Triple.bind h fun _ => .kfree

theorem freewalk_spec : Triple (bare ℓ a) (freewalk (ℓ + 1) a) fun _ => 1 := by
  induction ℓ generalizing a with
  | zero =>
    refine .ex fun es => .given fun hes => freewalk_of_entries ?_
    have hloop :
        Triple (entriesAt a es * (indices.map fun i => if (es i).v then .given False 1 else 1).prod)
        (freeEntries (freewalk 0) a indices) fun _ => .cell a :=
      freeEntries_spec (K := fun e => if e.v then .given False 1 else 1)
        (fun e hv => ⟨.given False 1,
          by rw [if_pos hv]; exact fun _ _ h => h.1.elim, .given False.elim⟩)
        (fun e hv => if_neg (by rw [hv]; nofun)) nodup_indices
    have hone :
        (indices.map fun i => if (es i).v then Asrt.given False 1 else (1 : Pages)).prod = 1 := by
      refine prod_eq_one fun P hP => ?_
      obtain ⟨i, -, rfl⟩ := mem_map.1 hP
      exact if_neg (by rw [hes i]; nofun)
    rw [hone, mul_one] at hloop
    exact hloop
  | succ ℓ ih =>
    refine .ex fun es => freewalk_of_entries ?_
    exact freeEntries_spec (K := fun e => if e.v then .given e.IsNode (bare ℓ e.page) else 1)
      (fun e hv => ⟨bare ℓ e.page, by rw [if_pos hv], ih⟩)
        (fun e hv => if_neg (by rw [hv]; nofun)) nodup_indices

end Space

end Xv6.Vm
