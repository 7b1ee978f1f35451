import Xv6.Vm.Kernel
import Xv6.Vm.Space

/-!
# User address spaces

`image root frame n u` is the assertion of a user page table with `n` user pages, the trapframe
`frame` and the trampoline. The functions that `fork`, `exec` and `sbrk` call take images to images,
whichever call of `kalloc` fails.
-/

namespace Xv6.Vm

open Lib Function List

/-- The map of a user page table with `n` user pages; if `u`, the user may access them all. -/
structure Shape (f : Nat → Option Pte) (frame n : Nat) (u : Bool) : Prop where
  le : n ≤ stopPage - kernPage
  user : ∀ v < n, ∃ e, f v = some e ∧ (u = true → e.u = true)
  frame : f trapframe = some { framePerm with page := frame, v := true }
  tramp : ∃ page, f trampoline = some { trampPerm with page, v := true }
  other : ∀ v, n ≤ v → v ≠ trapframe → v ≠ trampoline → f v = none

/-- The pages that `f` maps below `n`. -/
def userPages (f : Nat → Option Pte) (n : Nat) : Pages := ∏ v ∈ Finset.Ico 0 n, held true (f v)

def image (root frame n : Nat) (u : Bool) : Pages :=
  .ex fun f => .given (Shape f frame n u) (space root f * userPages f n)

theorem memory_lt : stopPage - kernPage < trapframe := by decide

theorem trapframe_lt : trapframe < trampoline := by decide

theorem trampoline_lt : trampoline < maxVpn := by decide

theorem pages_mul (n : Nat) : pages (n * PGSIZE) = n := by
  simp only [pages, PGSIZE]
  omega

theorem pages_mono {a b : Nat} (h : a ≤ b) : pages a ≤ pages b :=
  Nat.div_le_div_right (by omega)

section

variable {f : Nat → Option Pte} {root frame n k a : Nat} {u : Bool}

theorem userPages_congr {g : Nat → Option Pte}
    (h : ∀ v < n, (g v).map Pte.page = (f v).map Pte.page) :
    userPages g n = userPages f n := by
  refine Finset.prod_congr rfl fun v hv => ?_
  rw [held, held, h v (Finset.mem_Ico.1 hv).2]

theorem userPages_succ : userPages f (n + 1) = userPages f n * held true (f n) :=
  Finset.prod_Ico_succ_top (Nat.zero_le n) _

variable {T : Multiset Nat} {c : Nat → Page}

theorem userPages_eq (h : (userPages f n).holds T c) :
    T = ((range n).filterMap fun v => (f v).map Pte.page : List Nat) := by
  induction n generalizing T with
  | zero => exact h
  | succ n ih =>
    rw [userPages_succ] at h
    obtain ⟨T₁, T₂, rfl, h₁, h₂⟩ := h
    rw [range_succ, filterMap_append, ← Multiset.coe_add, ← ih h₁]
    congr 1
    simp only [filterMap_cons, filterMap_nil]
    cases hf : f n with
    | none =>
      rw [hf] at h₂
      exact h₂
    | some e =>
      rw [hf] at h₂
      exact h₂

theorem image_weaken : image root frame n u ≤ image root frame n false :=
  fun _ _ ⟨f, hs, h⟩ =>
    ⟨f, ⟨hs.le, fun v hv => (hs.user v hv).imp fun _ h => ⟨h.1, nofun⟩, hs.frame, hs.tramp,
    hs.other⟩, h⟩

theorem Shape.without (h : Shape f frame (a + k) u) : Shape (without f a (a + k)) frame a u := by
  have hle := h.le
  have hfr := memory_lt
  have htr := trapframe_lt
  refine ⟨by omega, fun v hv => ?_, ?_, ?_, fun v hv h₁ h₂ => ?_⟩
  · rw [Vm.without, if_neg (by omega)]
    exact h.user v (by omega)
  · rw [Vm.without, if_neg (by omega)]
    exact h.frame
  · rw [Vm.without, if_neg (by omega)]
    exact h.tramp
  · rw [Vm.without]
    split
    · rfl
    · exact h.other v (by omega) h₁ h₂

theorem image_intro (hs : Shape f frame n u) :
    space root f * userPages f n ≤ image root frame n u :=
  fun _ _ h => ⟨f, hs, h⟩

variable {α : Type} {F : Pages}

theorem image_elim {x : Code α} {Q : α → Pages}
    (h : ∀ f, Shape f frame n u → Triple (space root f * (userPages f n * F)) x Q) :
    Triple (image root frame n u * F) x Q := by
  rw [image, Asrt.ex_mul]
  refine .ex fun f => ?_
  rw [Asrt.given_mul, mul_assoc]
  exact .given fun hs => h f hs

theorem card_userPages (hf : ∀ v < n, (f v).isSome)
    (h : (userPages f n).holds T c) : T.card = n := by
  induction n generalizing T with
  | zero =>
    rw [userPages, Finset.Ico_self, Finset.prod_empty] at h
    rw [Asrt.holds_one.1 h, Multiset.card_zero]
  | succ n ih =>
    rw [userPages_succ] at h
    obtain ⟨T₁, T₂, rfl, h₁, h₂⟩ := h
    obtain ⟨e, he⟩ := Option.isSome_iff_exists.1 (hf n (Nat.lt_succ_self n))
    rw [he] at h₂
    have : T₂ = {e.page} := h₂
    rw [Multiset.card_add, ih (fun v hv => hf v (by omega)) h₁, this, Multiset.card_singleton]

theorem card_image (h : (image root frame n u).holds T c) : n ≤ T.card := by
  obtain ⟨f, hs, T₁, T₂, rfl, -, h⟩ := h
  have hf : ∀ v < n, (f v).isSome := fun v hv => by
    obtain ⟨e, he, -⟩ := hs.user v hv
    exact he ▸ rfl
  rw [Multiset.card_add, card_userPages hf h]
  exact Nat.le_add_left ..

variable {e : Pte}

theorem Shape.update (h : Shape f frame n u) (hn : n < stopPage - kernPage)
    (he : u = true → e.u = true) : Shape (update f n (some e)) frame (n + 1) u := by
  have hfr := memory_lt
  have htr := trapframe_lt
  refine ⟨hn, fun v hv => ?_, ?_, ?_, fun v hv h₁ h₂ => ?_⟩
  · rcases eq_or_ne v n with rfl | hvn
    · exact ⟨e, update_self .., he⟩
    · rw [update_of_ne hvn]
      exact h.user v (by omega)
  · rw [update_of_ne (by omega)]
    exact h.frame
  · rw [update_of_ne (by omega)]
    exact h.tramp
  · rw [update_of_ne (by omega)]
    exact h.other v (by omega) h₁ h₂

variable {mem : Nat}

/-- A page besides those of an image leaves room for a user page. -/
theorem image_room {x : Code α} {Q : α → Pages}
    (h : n < stopPage - kernPage → Triple (image root frame n u * (.cell mem * F)) x Q) :
    Triple (image root frame n u * (.cell mem * F)) x Q := by
  refine .of_own ?_ h
  rintro m _ R hO ⟨T₁, _, rfl, h, _, T₂, rfl, rfl, -⟩
  have := hO.card_le
  have := card_image h
  simp only [Multiset.card_add, Multiset.card_singleton] at *
  omega

variable {perm : Pte}

theorem image_extend (hs : Shape f frame n u) (hn : n < stopPage - kernPage)
    (hu : u = true → perm.u = true) :
    space root (update f n (some { perm with page := mem, v := true })) *
      (userPages f n * .cell mem) ≤
      image root frame (n + 1) u := by
  have hsame : userPages (update f n (some { perm with page := mem, v := true })) n =
      userPages f n :=
    userPages_congr fun v hv => by rw [update_of_ne (by omega)]
  have hs' := hs.update (e := { perm with page := mem, v := true }) hn hu
  refine le_trans ?_ (image_intro hs')
  rw [userPages_succ, update_self, hsame]
  exact le_rfl

theorem mappages_next (hs : Shape f frame n u) (hn : n < stopPage - kernPage)
    (hp : perm.IsLeaf) :
    Triple (space root f) (mappages root (n * PGSIZE) PGSIZE mem perm) fun ok =>
      space root (if ok then update f n (some { perm with page := mem, v := true }) else f) := by
  have hlt := memory_lt
  have htr := trapframe_lt
  have hmax := trampoline_lt
  exact mappages_spec (by omega) (hs.other n le_rfl (by omega) (by omega)) hp

theorem userPerm_leaf : userPerm.IsLeaf := rfl

theorem Triple.clear_cell : Triple (.cell mem) (op (.clear mem)) fun _ => .cell mem :=
  Triple.clear.conseq le_rfl fun _ => Asrt.cell_le_of_pts

theorem uvminit_spec {src : List UInt8} (hsrc : src.length < PGSIZE) :
    Triple (image root frame 0 true) (uvminit root src)
      fun ok => if ok then image root frame 1 true else .ex id := by
  rw [uvminit, if_neg (Nat.not_le.2 hsrc)]
  refine kalloc_spec.frame_one.bind fun r => ?_
  cases r with
  | none => exact .ret fun T c h => ⟨_, h⟩
  | some mem =>
    refine Triple.clear_cell.frame.bind fun _ => ?_
    rw [mul_comm, ← mul_one (Asrt.cell mem)]
    refine image_room fun hroom => image_elim fun f hs => ?_
    refine (mappages_next hs hroom userPerm_leaf).frame.bind fun ok => ?_
    cases ok with
    | false => exact .ret fun T c h => ⟨_, h⟩
    | true =>
      rw [mul_one]
      refine (Triple.frame_left (F := space _ _ * userPages f 0) Triple.fill_cell).conseq
        (mul_assoc ..).ge
        (fun _ => le_rfl) |>.bind fun _ => .ret ?_
      rw [if_pos rfl, mul_assoc]
      exact image_extend hs hroom fun _ => rfl

variable {old : Nat}

/-! ## Page tables of processes -/

theorem uvmcreate_spec : Triple 1 uvmcreate fun r => match r with
    | none => 1
    | some root => space root fun _ => none := by
  refine kalloc_spec.bind fun r => ?_
  cases r with
  | none => exact .ret le_rfl
  | some root =>
    refine Triple.clear.bind fun _ => .ret ?_
    rintro _ c ⟨rfl, hz⟩
    have hempty : ∀ i, (tablesOf c root i).ptr = none := fun i => by rw [tablesOf, hz]; rfl
    have htab : tablePages (tablesOf c) root = [root] := Radix.Grows.tables_empty hempty
    refine ⟨?_, ?_, Radix.Grows.wf_empty hempty, fun v _ => Radix.Grows.lookup_empty hempty⟩
    · rw [htab]
      rfl
    · rw [htab]
      exact nodup_singleton root

variable {v : Nat}

theorem uvmunmap_one (hv : v < maxVpn) (hf : (f v).isSome) :
    Triple (space root f) (uvmunmap root (v * PGSIZE) 1 false)
      fun _ => space root (update f v none) := by
  have hmod : ¬v * PGSIZE % PGSIZE ≠ 0 := not_not.2 (Nat.mul_mod_left v PGSIZE)
  rw [uvmunmap, if_neg hmod, Nat.mul_div_cancel v (by decide)]
  have hprod : ∏ w ∈ Finset.Ico v (v + 1), held false (f w) = 1 := Finset.prod_eq_one fun _ _ => rfl
  refine (unmapFrom_spec hv fun w h h' => (show w = v by omega) ▸ hf).conseq ?_ fun _ => ?_
  · rw [hprod, mul_one]
  · have : without f v (v + 1) = update f v none := by
      funext w
      rw [without, update_apply]
      exact if_congr (by omega) rfl rfl
    rw [this]

variable {sz : Nat}

theorem uvmfree_spec (hn : pages sz ≤ maxVpn) (hf : ∀ v < pages sz, (f v).isSome)
    (hnone : ∀ v, pages sz ≤ v → f v = none) :
    Triple (space root f * userPages f (pages sz)) (uvmfree root sz) fun _ => 1 := by
  have hfree {g : Nat → Option Pte} (hg : ∀ v, g v = none) :
      Triple (space root g) (freewalk 3 root) fun _ => 1 :=
    freewalk_spec.conseq (bare_of_space fun v _ => hg v) fun _ => le_rfl
  unfold uvmfree
  split
  · have hun : Triple (space root f * userPages f (pages sz)) (uvmunmap root 0 (pages sz) true)
        fun _ => space root (without f 0 (0 + pages sz)) := by
      refine (unmapFrom_spec (a := 0) (by omega) fun v _ hv => hf v (by omega)).conseq ?_
        fun _ => le_rfl
      rw [Nat.zero_add]
      rfl
    refine hun.bind fun _ => hfree fun v => ?_
    rw [without]
    split
    · rfl
    · exact hnone v (by omega)
  · have hz : pages sz = 0 := by
      rw [show sz = 0 by omega]
      rfl
    rw [hz, userPages, Finset.Ico_self, Finset.prod_empty, mul_one]
    exact hfree fun v => hnone v (by omega)

theorem procFreepagetable_spec :
    Triple (image root frame (pages sz) u) (procFreepagetable root sz) fun _ => 1 := by
  refine .ex fun f => .given fun hs => ?_
  have hle := hs.le
  have hfr := memory_lt
  have htr := trapframe_lt
  have hmax := trampoline_lt
  obtain ⟨page, htramp⟩ := hs.tramp
  have h₁ : Triple (space root f) (uvmunmap root (trampoline * PGSIZE) 1 false) _ :=
    uvmunmap_one hmax (htramp ▸ rfl)
  have hframe : (update f trampoline none trapframe).isSome := by
    rw [update_of_ne (by omega), hs.frame]
    rfl
  refine h₁.frame.bind fun _ => (uvmunmap_one (by omega) hframe).frame.bind fun _ => ?_
  have hsame : ∀ v < pages sz, update (update f trampoline none) trapframe none v = f v :=
    fun v hv => by rw [update_of_ne (by omega), update_of_ne (by omega)]
  rw [← userPages_congr fun v hv => congrArg _ (hsame v hv)]
  refine uvmfree_spec (by omega) (fun v hv => ?_) fun v hv => ?_
  · obtain ⟨e, he, -⟩ := hs.user v hv
    rw [hsame v hv, he]
    rfl
  · rw [update_apply, update_apply]
    split
    · rfl
    · split
      · rfl
      · exact hs.other v hv ‹_› ‹_›

/-- The page table of a process without user memory. -/
def newImage (frame : Nat) : Option Nat → Pages
  | none => 1
  | some root => image root frame 0 true

theorem procPagetable_spec : Triple 1 (procPagetable frame) (newImage frame) := by
  refine uvmcreate_spec.bind fun r => ?_
  cases r with
  | none => exact .ret le_rfl
  | some root =>
    have hfr := memory_lt
    have htr := trapframe_lt
    have hmax := trampoline_lt
    have hfree {g : Nat → Option Pte} (hg : ∀ v, g v = none) :
        Triple (space root g) (uvmfree root 0) fun _ => 1 :=
      (uvmfree_spec (Nat.zero_le _) (fun _ hv => absurd hv (Nat.not_lt_zero _))
        fun v _ => hg v).conseq
        (mul_one _).ge fun _ => le_rfl
    have htramp : Triple (space root fun _ => none) (op .tramp) fun _ => space root fun _ => none :=
      .of_wp fun m T R hO hP =>
        .call (r := m.tramp) (fun _ => rfl) (.ret ⟨fun _ _ => rfl, T, hO, hP⟩)
    refine htramp.bind fun tramp => ?_
    have hmap₁ : Triple (space root fun _ => none)
        (mappages root (trampoline * PGSIZE) PGSIZE tramp trampPerm) _ :=
      mappages_spec hmax rfl rfl
    refine hmap₁.bind fun ok => ?_
    cases ok with
    | false => exact (hfree fun _ => rfl).bind fun _ => .ret le_rfl
    | true =>
      let f : Nat → Option Pte := update (fun _ => none) trampoline
        (some { trampPerm with page := tramp, v := true })
      have hf : ∀ v, v ≠ trampoline → f v = none := fun v hv => update_of_ne hv ..
      have hmap₂ :
          Triple (space root f) (mappages root (trapframe * PGSIZE) PGSIZE frame framePerm) _ :=
        mappages_spec (by omega) (hf trapframe (by omega)) rfl
      refine hmap₂.bind fun ok => ?_
      have hself : f trampoline = some { trampPerm with page := tramp, v := true } := update_self ..
      cases ok with
      | false =>
        refine (uvmunmap_one (f := f) hmax (by rw [hself]; rfl)).bind fun _ =>
          (hfree fun v => ?_).bind fun _ => .ret le_rfl
        rw [update_apply]
        split
        · rfl
        · exact hf v ‹_›
      | true =>
        have hs : Shape (update f trapframe (some { framePerm with page := frame, v := true }))
            frame 0 true := by
          refine ⟨Nat.zero_le _, nofun, update_self .., ⟨tramp, ?_⟩, fun v _ h₁ h₂ => ?_⟩
          · rw [update_of_ne (by omega), hself]
          · rw [update_of_ne h₁, hf v h₂]
        refine .ret ?_
        calc space root _ = space root _ * userPages _ 0 := (mul_one _).symm
          _ ≤ image root frame 0 true := image_intro hs

/-! ## Copying and loading -/

theorem Shape.clear (h : Shape f frame n u) (hv : v < n) :
    Shape (Function.update f v (some e)) frame n false := by
  have hle := h.le
  have hfr := memory_lt
  have htr := trapframe_lt
  refine ⟨hle, fun w hw => ?_, ?_, ?_, fun w hw h₁ h₂ => ?_⟩
  · rcases eq_or_ne w v with rfl | hwv
    · exact ⟨e, update_self .., nofun⟩
    · rw [update_of_ne hwv]
      exact (h.user w hw).imp fun _ h => ⟨h.1, nofun⟩
  · rw [update_of_ne (by omega)]
    exact h.frame
  · rw [update_of_ne (by omega)]
    exact h.tramp
  · rw [update_of_ne (by omega)]
    exact h.other w hw h₁ h₂

end

end Xv6.Vm
