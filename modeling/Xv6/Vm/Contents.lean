import Xv6.Vm.Map

/-!
# What user memory holds

`filled f u n` is the assertion of the first `n` user pages of the map `f`, with the bytes `u` at
their virtual addresses. `uvmalloc`, `uvmdealloc` and `uvmcopy` are specified by the map and the
bytes they leave, `walkaddr` by the map. `Mem.byte` reads user memory as the hardware does.
-/

namespace Xv6.Vm

open Lib Function Finset

/-- The byte of user memory at address `va`. -/
def Mem.byte (m : Mem) (root va : Nat) : Option UInt8 :=
  (mapping m.pt root (va / PGSIZE)).map fun e => m.data e.page (va % PGSIZE)

/-- The page `a` with the bytes `d`. -/
def bytesAt (a : Nat) (d : Nat → UInt8) : Pages where
  holds T c := T = {a} ∧ ∀ o < PGSIZE, (c a).bytes o = d o
  frame := fun ⟨hT, hd⟩ hf => ⟨hT, fun o ho =>
    (congrArg (fun p => Page.bytes p o) (hf _ (hT ▸ Multiset.mem_singleton_self _))).trans
      (hd o ho)⟩

/-- The page of an entry, with the bytes `d`. -/
def pageOf (e : Option Pte) (d : Nat → UInt8) : Pages := e.elim 1 fun e => bytesAt e.page d

/-- The pages that `f` maps below `n`, with the bytes `u`. -/
def filled (f : Nat → Option Pte) (u : Nat → UInt8) (n : Nat) : Pages :=
  ∏ v ∈ Finset.Ico 0 n, pageOf (f v) fun o => u (v * PGSIZE + o)

section

variable {f g : Nat → Option Pte} {u w : Nat → UInt8} {root frame n k a b v : Nat} {t : Bool}
  {d d' : Nat → UInt8}
  {e : Pte} {T : Multiset Nat} {c : Nat → Page}

theorem bytesAt_congr (h : ∀ o < PGSIZE, d o = d' o) : bytesAt a d = bytesAt a d' := by
  apply le_antisymm
  · intro T c hd
    exact ⟨hd.1, fun o ho => (hd.2 o ho).trans (h o ho)⟩
  · intro T c hd
    exact ⟨hd.1, fun o ho => (hd.2 o ho).trans (h o ho).symm⟩

theorem bytesAt_le : bytesAt a d ≤ .cell a := fun _ _ h => h.1

theorem pageOf_le (e : Option Pte) : pageOf e d ≤ held true e := by
  cases e with
  | none => exact le_rfl
  | some e => exact bytesAt_le

theorem filled_le : filled f u n ≤ userPages f n := prod_le_prod' fun v _ => pageOf_le (f v)

theorem filled_zero : filled f u 0 = 1 := rfl

theorem filled_succ :
    filled f u (n + 1) = filled f u n * pageOf (f n) fun o => u (n * PGSIZE + o) :=
  prod_Ico_succ_top (Nat.zero_le n) _

theorem filled_congr (hf : ∀ v < n, (g v).map Pte.page = (f v).map Pte.page)
    (hu : ∀ x < n * PGSIZE, w x = u x) :
    filled g w n = filled f u n := by
  refine prod_congr rfl fun v hv => ?_
  have hvn := (mem_Ico.1 hv).2
  have hd : ∀ o < PGSIZE, w (v * PGSIZE + o) = u (v * PGSIZE + o) := fun o ho => hu _ (by
    simp only [PGSIZE] at *
    omega)
  have hpage := hf v hvn
  cases hgv : g v with
  | none =>
    rw [hgv] at hpage
    rw [Option.map_eq_none_iff.1 hpage.symm]
    rfl
  | some e =>
    rw [hgv] at hpage
    obtain ⟨e', he', hee⟩ := Option.map_eq_some_iff.1 hpage.symm
    rw [he']
    show bytesAt e.page _ = bytesAt e'.page _
    rw [hee]
    exact bytesAt_congr hd

theorem filled_split (hv : v < n) (he : f v = some e) :
    filled f u n = bytesAt e.page (fun o => u (v * PGSIZE + o)) *
      ∏ x ∈ (Finset.Ico 0 n).erase v, pageOf (f x) fun o => u (x * PGSIZE + o) := by
  have hmem : v ∈ Finset.Ico 0 n := mem_Ico.2 ⟨Nat.zero_le v, hv⟩
  rw [filled, ← mul_prod_erase _ _ hmem, he]
  rfl

theorem filled_holds (h : (filled f u n).holds T c) (hv : v < n) (he : f v = some e) :
    e.page ∈ T ∧ ∀ o < PGSIZE, (c e.page).bytes o = u (v * PGSIZE + o) := by
  rw [filled_split hv he] at h
  obtain ⟨_, T₂, rfl, ⟨rfl, hd⟩, -⟩ := h
  exact ⟨Multiset.mem_add.2 (.inl (Multiset.mem_singleton_self _)), hd⟩

/-- The bytes of user memory, by the map. -/
def bytesOf (f : Nat → Option Pte) (c : Nat → Page) : Nat → UInt8 := fun x =>
  (f (x / PGSIZE)).elim 0 fun e => (c e.page).bytes (x % PGSIZE)

theorem filled_of_userPages (h : (userPages f n).holds T c) :
    (filled f (bytesOf f c) n).holds T c := by
  obtain ⟨S, hT, hS⟩ := Asrt.holds_prod.1 h
  refine Asrt.holds_prod.2 ⟨S, hT, fun v hv => ?_⟩
  have h := hS v hv
  cases hfv : f v with
  | none =>
    rw [hfv] at h
    exact h
  | some e =>
    rw [hfv] at h
    refine ⟨h, fun o ho => ?_⟩
    have hdiv : (v * PGSIZE + o) / PGSIZE = v := by
      simp only [PGSIZE] at *
      omega
    have hmod : (v * PGSIZE + o) % PGSIZE = o := by
      simp only [PGSIZE] at *
      omega
    show (c e.page).bytes o = bytesOf f c (v * PGSIZE + o)
    rw [bytesOf, hdiv, hmod, hfv]
    rfl

variable {S : Multiset Nat} {va : Nat}

theorem byte_of_filled {m : Mem} (hs : (space root f).holds S m.page)
    (h : (filled f u n).holds T m.page) (hn : n ≤ maxVpn) (hva : va < n * PGSIZE)
    (hf : (f (va / PGSIZE)).isSome) : m.byte root va = some (u va) := by
  obtain ⟨e, he⟩ := Option.isSome_iff_exists.1 hf
  have hv : va / PGSIZE < n := Nat.div_lt_of_lt_mul (by rwa [Nat.mul_comm])
  have hmap : mapping m.pt root (va / PGSIZE) = some e :=
    (hs.2.map _ ((hv.trans_le hn).trans maxVpn_lt)).trans he
  have hbyte := (filled_holds h hv he).2 (va % PGSIZE) (Nat.mod_lt _ (by decide))
  rw [Nat.div_add_mod'] at hbyte
  rw [Mem.byte, hmap]
  exact congrArg some hbyte

/-! ## Stores -/

theorem Triple.clear_bytes : Triple (.cell a) (op (.clear a)) fun _ => bytesAt a fun _ => 0 := by
  refine Triple.clear.conseq le_rfl fun _ T c h => ⟨h.1, fun o _ => ?_⟩
  rw [h.2]

variable {off : Nat} {bs : List UInt8}

theorem Triple.fill_bytes :
    Triple (bytesAt a d) (op (.fill a off bs)) fun _ => bytesAt a (Bytes.splice d off bs) := by
  refine .setData (fun m => Bytes.splice (m.data a) off bs) (fun _ _ => rfl) fun T m h => ?_
  refine ⟨h.1 ▸ Multiset.mem_singleton_self a, h.1, fun o ho => ?_⟩
  have hd : m.data a o = d o := h.2 o ho
  rw [update_self]
  simp only [Bytes.splice, hd]

variable {F : Pages}

theorem Triple.setData_reading {o : Op} {r : iface.Res o} {Q : Pages} (d : Mem → Nat → UInt8)
    (he : ∀ m kern, step o ⟨m, kern⟩ = .ok (r, ⟨m.setData a (d m), kern⟩))
    (h : ∀ T m, F.holds T m.page → Q.holds {a} (update m.page a ⟨entries (d m), d m⟩)) :
    Triple (.cell a * F) (op o) fun _ => Q * F := by
  refine .of_wp ?_
  rintro m _ R hO ⟨_, T, rfl, rfl, hF⟩
  have hset : (m.setData a (d m)).page = update m.page a ⟨entries (d m), d m⟩ := page_update
  have hout : ∀ b ∈ T + R, (m.setData a (d m)).page b = m.page b := by
    intro b hb
    have hba : b ≠ a := by
      rintro rfl
      rw [add_assoc] at hO
      exact hO.not_mem (Multiset.mem_singleton_self b) hb
    rw [hset, update_of_ne hba]
  refine .call (he m)
    (.ret ⟨fun b hb => hout b (Multiset.mem_add.2 (.inr hb)), _, ⟨hO.above, hO.cover⟩,
    {a}, T, rfl, ?_, F.frame hF fun b hb => hout b (Multiset.mem_add.2 (.inl hb))⟩)
  rw [hset]
  exact h T m hF

theorem Triple.move_page (hb : b ∈ S) (hd : ∀ o < PGSIZE, (c b).bytes o = d o) :
    Triple (.cell a * .exactly S c)
    (op (.move a b PGSIZE)) fun _ => bytesAt a d * .exactly S c := by
  refine .setData_reading (fun m o => if o < PGSIZE then m.data b o else m.data a o)
    (fun _ _ => rfl)
    fun T m hS => ⟨rfl, fun o ho => ?_⟩
  have hpage : m.page b = c b := hS.2 b hb
  rw [update_self, ← hd o ho, ← hpage]
  exact if_pos ho

/-- A store to a user page is a store to user memory. -/
theorem fill_filled (hv : v < n) (he : f v = some e) (hoff : off + bs.length ≤ PGSIZE) :
    Triple (filled f u n)
    (op (.fill e.page off bs)) fun _ => filled f (Bytes.splice u (v * PGSIZE + off) bs) n := by
  rw [filled_split hv he, filled_split hv he]
  refine Triple.fill_bytes.frame.conseq le_rfl fun _ => ?_
  apply le_of_eq
  congr 1
  · refine bytesAt_congr fun o ho => ?_
    simp only [Bytes.splice, show v * PGSIZE + off ≤ v * PGSIZE + o ↔ off ≤ o by omega,
      show v * PGSIZE + o - (v * PGSIZE + off) = o - off by omega]
  · refine prod_congr rfl fun x hx => ?_
    have hne := ne_of_mem_erase hx
    cases f x with
    | none => rfl
    | some e' =>
      refine bytesAt_congr fun o ho => ?_
      rcases Nat.lt_or_gt_of_ne hne with hlt | hgt
      · exact (Bytes.splice_of_lt (by simp only [PGSIZE] at *; omega)).symm
      · exact (Bytes.splice_of_le (by simp only [PGSIZE] at *; omega)).symm

/-! ## `walkaddr` -/

/-- The page to which the user may write at address `va`. -/
def userPage (f : Nat → Option Pte) (va : Nat) : Option Nat :=
  if MAXVA ≤ va then none else (f (va / PGSIZE)).bind fun e => if e.u then some e.page else none

theorem walkaddr_map : Triple (space root f) (walkaddr root va)
    fun r => .given (r = userPage f va) (space root f) := by
  rw [walkaddr]
  unfold userPage
  split
  · exact .ret fun T c h => ⟨rfl, h⟩
  · rename_i hva
    have hvpn : va / PGSIZE < maxVpn := by
      simp only [maxVpn, MAXVA, PGSIZE] at *
      omega
    refine (walk_spec hvpn).bind fun r => ?_
    cases r with
    | none =>
      refine .given fun hnone => .ret fun T c h => ⟨?_, h⟩
      rw [hnone rfl]
      rfl
    | some loc =>
      refine (readPte_spec hvpn).bind fun e => .given fun he => .ret fun T c h =>
        ⟨?_, spaceAt_le T c h⟩
      rw [he.1]
      cases hv : e.v with
      | false => rfl
      | true => rfl

/-! ## `uvmdealloc` and `uvmalloc` -/

theorem uvmunmap_filled (hs : Shape f frame (a + k) t) :
    Triple (space root f * filled f u (a + k)) (uvmunmap root (a * PGSIZE) k true)
      fun _ => space root (without f a (a + k)) * filled f u a := by
  have hle := hs.le
  have hlt : stopPage - kernPage < maxVpn := by decide
  have hmod : ¬a * PGSIZE % PGSIZE ≠ 0 := not_not.2 (Nat.mul_mod_left a PGSIZE)
  rw [uvmunmap, if_neg hmod, Nat.mul_div_cancel a (by decide)]
  have hun : Triple (space root f * ∏ v ∈ Finset.Ico a (a + k), held true (f v))
      (unmapFrom root true k a)
      fun _ => space root (without f a (a + k)) := by
    refine unmapFrom_spec (by omega) fun v _ hv => ?_
    obtain ⟨e, he, -⟩ := hs.user v hv
    exact he ▸ rfl
  have hsplit : space root f * filled f u (a + k) ≤
      (space root f * ∏ v ∈ Finset.Ico a (a + k), held true (f v)) * filled f u a := by
    rw [filled, filled, ← prod_Ico_consecutive _ (Nat.zero_le a) (Nat.le_add_right a k),
      mul_comm (∏ v ∈ Finset.Ico 0 a, _), mul_assoc]
    exact mul_le_mul' le_rfl (mul_le_mul' (prod_le_prod' fun v _ => pageOf_le (f v)) le_rfl)
  exact hun.frame.conseq hsplit fun _ => le_rfl

theorem without_self : without f a a = f := funext fun _ => if_neg fun h => by omega

theorem uvmdealloc_filled (oldsz newsz : Nat) (hs : Shape f frame (pages oldsz) t) :
    Triple (space root f * filled f u (pages oldsz)) (uvmdealloc root oldsz newsz)
      fun r => .given (r = min oldsz newsz)
        (space root (without f (pages r) (pages oldsz)) * filled f u (pages r)) := by
  unfold uvmdealloc
  split
  · refine .ret fun T c h => ⟨by omega, ?_⟩
    rwa [without_self]
  · have hmin : min oldsz newsz = newsz := by omega
    split
    · have hle : pages newsz + (pages oldsz - pages newsz) = pages oldsz := by omega
      rw [← hle] at hs
      have hun : Triple (space root f * filled f u (pages newsz + (pages oldsz - pages newsz)))
          (uvmunmap root (pages newsz * PGSIZE) (pages oldsz - pages newsz) true) _ :=
            uvmunmap_filled hs
      rw [hle] at hun
      exact hun.bind fun _ => .ret fun T c h => ⟨hmin.symm, h⟩
    · have hle : pages oldsz = pages newsz := by
        have := pages_mono (a := newsz) (b := oldsz) (by omega)
        omega
      refine .ret fun T c h => ⟨hmin.symm, ?_⟩
      rwa [← hle, without_self]

/-- `g` is `f` with new user pages from `a` up to `b`. -/
structure Extends (f g : Nat → Option Pte) (a b : Nat) : Prop where
  new : ∀ v, a ≤ v → v < b → ∃ page, g v = some { userPerm with page, v := true }
  old : ∀ v, v < a ∨ b ≤ v → g v = f v

namespace Extends

theorem refl (f : Nat → Option Pte) (a : Nat) : Extends f f a a :=
  ⟨fun v h h' => by omega, fun _ _ => rfl⟩

theorem succ {page : Nat} (h : Extends f g a b) (hab : a ≤ b) :
    Extends f (update g b (some { userPerm with page, v := true })) a (b + 1) := by
  refine ⟨fun v hav hvb => ?_, fun v hv => ?_⟩
  · rcases eq_or_ne v b with rfl | hne
    · exact ⟨page, update_self ..⟩
    · rw [update_of_ne hne]
      exact h.new v hav (by omega)
  · rw [update_of_ne (by omega)]
    exact h.old v (by omega)

theorem shape (h : Extends f g a b) (hs : Shape f frame a t) (hab : a ≤ b)
    (hb : b ≤ stopPage - kernPage) :
    Shape g frame b t := by
  have hfr := memory_lt
  have htr := trapframe_lt
  refine ⟨hb, fun v hv => ?_, ?_, ?_, fun v hv h₁ h₂ => ?_⟩
  · rcases Nat.lt_or_ge v a with hva | hva
    · rw [h.old v (.inl hva)]
      exact hs.user v hva
    · obtain ⟨page, he⟩ := h.new v hva hv
      exact ⟨_, he, fun _ => rfl⟩
  · rw [h.old _ (.inr (by omega))]
    exact hs.frame
  · rw [h.old _ (.inr (by omega))]
    exact hs.tramp
  · rw [h.old v (.inr hv)]
    exact hs.other v (by omega) h₁ h₂

theorem without (h : Extends f g a b) (hs : Shape f frame a t) (hb : b ≤ stopPage - kernPage) :
    Vm.without g a b = f := by
  have hfr := memory_lt
  have htr := trapframe_lt
  funext v
  rw [Vm.without]
  split
  · exact (hs.other v (by omega) (by omega) (by omega)).symm
  · exact h.old v (by omega)

theorem filled_eq (h : Extends f g a b) : filled g u a = filled f u a :=
  filled_congr (fun v hv => by rw [h.old v (.inl hv)]) fun _ _ => rfl

end Extends

theorem filled_image (hs : Shape f frame n t) :
    space root f * filled f u n ≤ image root frame n t :=
  (mul_le_mul' le_rfl filled_le).trans (image_intro hs)

theorem filled_room {mem : Nat} {α : Type} {x : Code α} {Q : α → Pages} (hs : Shape f frame n t)
    (h : n < stopPage - kernPage → Triple (space root f * filled f u n * (.cell mem * F)) x Q) :
    Triple (space root f * filled f u n * (.cell mem * F)) x Q := by
  refine .of_own ?_ h
  rintro m _ R hO ⟨T₁, _, rfl, h, _, T₂, rfl, rfl, -⟩
  have := hO.card_le
  have := card_image (filled_image hs _ _ h)
  simp only [Multiset.card_add, Multiset.card_singleton] at *
  omega

theorem filled_update : filled (update g a (some e)) u (a + 1) =
    filled g u a * bytesAt e.page fun o => u (a * PGSIZE + o) := by
  rw [filled_succ, update_self]
  congr 1
  refine filled_congr (fun v hv => ?_) fun _ _ => rfl
  rw [update_of_ne (by omega)]

variable {old : Nat}

theorem uvmallocFrom_filled (hs : Shape f frame old t) (hle : old ≤ a) (hg : Extends f g old a)
    (ha : a ≤ stopPage - kernPage) (hu : ∀ x, a * PGSIZE ≤ x → u x = 0) :
    Triple (space root g * filled g u a) (uvmallocFrom root old n a)
      fun ok => if ok then .ex fun g' =>
        .given (Extends f g' old (a + n) ∧ a + n ≤ stopPage - kernPage)
          (space root g' * filled g' u (a + n))
        else space root f * filled f u old := by
  induction n generalizing a g with
  | zero => exact .ret fun T c h => ⟨g, ⟨hg, ha⟩, h⟩
  | succ n ih =>
    have hshape := hg.shape hs hle ha
    have hundo : Triple (space root g * filled g u a) (uvmdealloc root (a * PGSIZE) (old * PGSIZE))
        fun _ => space root f * filled f u old := by
      have hd : Triple (space root g * filled g u (pages (a * PGSIZE)))
          (uvmdealloc root (a * PGSIZE) (old * PGSIZE)) _ :=
            uvmdealloc_filled _ _ (by rwa [pages_mul])
      rw [pages_mul] at hd
      refine hd.conseq le_rfl fun r T c ⟨hr, h⟩ => ?_
      rwa [hr, Nat.min_eq_right (Nat.mul_le_mul_right _ hle), pages_mul, hg.without hs ha,
        hg.filled_eq] at h
    refine kalloc_spec.frame_one.bind fun r => ?_
    cases r with
    | none =>
      rw [optCell, one_mul]
      exact hundo.bind fun _ => .ret le_rfl
    | some mem =>
      rw [optCell, mul_comm, ← mul_one (Asrt.cell mem)]
      refine filled_room hshape fun hroom => ?_
      rw [mul_one, mul_comm]
      refine Triple.clear_bytes.frame.bind fun _ => ?_
      rw [mul_comm, mul_assoc]
      refine (mappages_next hshape hroom userPerm_leaf).frame.bind fun ok => ?_
      cases ok with
      | true =>
        have hnext :=
          ih (g := update g a (some { userPerm with page := mem, v := true })) (a := a + 1)
          (by omega) (hg.succ hle) (by omega) fun x hx =>
            hu x (le_trans (Nat.mul_le_mul_right _ (Nat.le_succ a)) hx)
        have hzero : (bytesAt mem fun o => u (a * PGSIZE + o)) = bytesAt mem fun _ => 0 :=
          bytesAt_congr fun o _ => hu _ (Nat.le_add_right ..)
        rw [filled_update, hzero, show a + 1 + n = a + (n + 1) by omega] at hnext
        exact hnext
      | false =>
        rw [if_neg nofun, ← mul_assoc, mul_comm]
        refine (Triple.kfree.frame.conseq (mul_le_mul' bytesAt_le le_rfl) fun _ => le_rfl).bind
          fun _ => ?_
        rw [one_mul]
        exact hundo.bind fun _ => .ret le_rfl

/-- `uvmalloc` adds pages of zeros, or leaves everything as it was. -/
theorem uvmalloc_filled (oldsz newsz : Nat) (hs : Shape f frame (pages oldsz) t)
    (hu : ∀ x, pages oldsz * PGSIZE ≤ x → u x = 0) :
    Triple (space root f * filled f u (pages oldsz)) (uvmalloc root oldsz newsz)
      fun r => if r = 0 then space root f * filled f u (pages oldsz)
        else .ex fun g => .given (r = max oldsz newsz ∧ Extends f g (pages oldsz) (pages r) ∧
            pages r ≤ stopPage - kernPage) (space root g * filled g u (pages r)) := by
  unfold uvmalloc
  split
  · refine .ret ?_
    rw [if_neg (by omega)]
    exact fun T c h => ⟨f, ⟨by omega, .refl f _, hs.le⟩, h⟩
  · have hle : pages oldsz ≤ pages newsz := pages_mono (by omega)
    refine (uvmallocFrom_filled hs le_rfl (.refl f _) hs.le hu).bind fun ok => .ret ?_
    cases ok with
    | false => exact le_rfl
    | true =>
      rw [if_pos rfl, if_pos rfl, show pages oldsz + (pages newsz - pages oldsz) =
        pages newsz by omega]
      rintro T c ⟨g, ⟨hg, hroom⟩, h⟩
      split
      · rename_i h0
        rw [h0] at hg h hle
        have hz : pages oldsz = 0 := by
          have : pages 0 = 0 := by decide
          omega
        have hgf : g = f := by
          have := hg.without hs (by rwa [h0] at hroom)
          rwa [show pages oldsz = pages 0 by rw [hz]; decide, without_self] at this
        rw [hgf] at h
        rwa [show pages oldsz = pages 0 by rw [hz]; decide]
      · exact ⟨g, ⟨by omega, hg, hroom⟩, h⟩

/-! ## `uvmcopy` -/

theorem walk_exactly (hv : v < maxVpn) (hS : (tablePages (tablesOf c) root : Multiset Nat) ≤ S) :
    Triple (.exactly S c) (walk root v false)
      fun r => .given (r = Radix.locate Pte.ptr (tablesOf c) 2 root (px v)) (.exactly S c) := by
  refine .of_wp fun m T R hO hP k => .of_run_ok (walk_run hv) ⟨rfl, fun _ _ => rfl, T, hO, ?_, hP⟩
  refine Radix.locate_congr fun b hb => congrArg Page.entries (hP.2 b ?_)
  exact Multiset.mem_of_le hS (Multiset.mem_coe.2 hb)

/-- The entry of a page that is mapped, and its place. -/
theorem locate_of_map (hs : Space (tablesOf c) root f) (hv : v < maxVpn) (he : f v = some e) :
    ∃ loc, Radix.locate Pte.ptr (tablesOf c) 2 root (px v) = some loc ∧ tablesOf c loc.1 loc.2 = e ∧
      loc.1 ∈ tablePages (tablesOf c) root := by
  have hmap : mapping (tablesOf c) root v = some e := (hs.map v (hv.trans maxVpn_lt)).trans he
  cases hloc : Radix.locate Pte.ptr (tablesOf c) 2 root (px v) with
  | none =>
    rw [mapping, Radix.lookup_of_locate_none hloc] at hmap
    cases hmap
  | some loc =>
    refine ⟨loc, rfl, ?_, Radix.locate_mem hloc⟩
    rw [mapping, Radix.lookup_of_locate hloc] at hmap
    split at hmap
    · exact Option.some.inj hmap
    · cases hmap

/-- The first `i` pages of `g` are copies of those of `f`, with the same flags; the rest is as in
`g₀`. -/
structure Copies (f g₀ g : Nat → Option Pte) (i : Nat) : Prop where
  copy : ∀ v < i, ∃ e page, f v = some e ∧ g v = some { e with page }
  rest : ∀ v, i ≤ v → g v = g₀ v

namespace Copies

variable {g₀ : Nat → Option Pte} {i page : Nat}

theorem succ (h : Copies f g₀ g i) (he : f i = some e) :
    Copies f g₀ (update g i (some { e with page })) (i + 1) := by
  refine ⟨fun v hv => ?_, fun v hv => ?_⟩
  · rcases eq_or_ne v i with rfl | hne
    · exact ⟨e, page, he, update_self ..⟩
    · rw [update_of_ne hne]
      exact h.copy v (by omega)
  · rw [update_of_ne (by omega)]
    exact h.rest v (by omega)

theorem shape (h : Copies f g₀ g i) (hs : Shape g₀ frame 0 t) (hi : i ≤ stopPage - kernPage) :
    Shape g frame i false := by
  have hfr := memory_lt
  have htr := trapframe_lt
  refine ⟨hi, fun v hv => ?_, ?_, ?_, fun v hv h₁ h₂ => ?_⟩
  · obtain ⟨e, page, -, he⟩ := h.copy v hv
    exact ⟨_, he, nofun⟩
  · rw [h.rest _ (by omega)]
    exact hs.frame
  · rw [h.rest _ (by omega)]
    exact hs.tramp
  · rw [h.rest v hv]
    exact hs.other v (Nat.zero_le v) h₁ h₂

theorem without (h : Copies f g₀ g i) (hs : Shape g₀ frame 0 t) (hi : i ≤ stopPage - kernPage) :
    Vm.without g 0 (0 + i) = g₀ := by
  have hfr := memory_lt
  have htr := trapframe_lt
  funext v
  rw [Vm.without]
  split
  · exact (hs.other v (Nat.zero_le v) (by omega) (by omega)).symm
  · exact h.rest v (by omega)

end Copies

/-- What `uvmcopy` leaves of the child. -/
def copyPost (f g₀ : Nat → Option Pte) (u : Nat → UInt8) (new n : Nat) (ok : Bool) : Pages :=
  if ok then .ex fun g => .given (Copies f g₀ g n ∧ n ≤ stopPage - kernPage)
    (space new g * filled g u n)
  else space new g₀

variable {new frame' : Nat} {t' : Bool} {g₀ : Nat → Option Pte}

theorem uvmcopyFrom_filled {i : Nat}
    (hs : Shape f frame n t) (hS : (space old f * filled f u n).holds S c)
    (hs' : Shape g₀ frame' 0 t') (hin : i + k ≤ n) (hg : Copies f g₀ g i) :
    Triple (.exactly S c * (space new g * filled g u i)) (uvmcopyFrom old new k i)
      fun ok => .exactly S c * copyPost f g₀ u new (i + k) ok := by
  induction k generalizing i g with
  | zero => exact .ret (mul_le_mul' le_rfl fun T c h => ⟨g, ⟨hg, hin.trans hs.le⟩, h⟩)
  | succ k ih =>
    have hle := hs.le
    have hlt : stopPage - kernPage < maxVpn := by decide
    have hshape := hg.shape hs' (by omega)
    have hundo : Triple (.exactly S c * (space new g * filled g u i)) (uvmunmap new 0 i true)
        fun _ => .exactly S c * copyPost f g₀ u new (i + (k + 1)) false := by
      have hshape₀ : Shape g frame' (0 + i) false := by rwa [Nat.zero_add]
      have hu : Triple (space new g * filled g u (0 + i)) (uvmunmap new (0 * PGSIZE) i true) _ :=
        uvmunmap_filled hshape₀
      rw [Nat.zero_mul, hg.without hs' (by omega), filled_zero, mul_one, Nat.zero_add] at hu
      exact hu.frame_left
    obtain ⟨e, he, -⟩ := hs.user i (by omega)
    obtain ⟨S₁, S₂, rfl, ⟨rfl, hspace⟩, hfilled⟩ := hS
    obtain ⟨loc, hloc, hentry, hmem⟩ := locate_of_map hspace (by omega) he
    have hleaf := hspace.leaf (show i < 512 ^ 3 by have := maxVpn_lt; omega) he
    refine (walk_exactly (by omega) (Multiset.le_add_right ..)).frame.bind fun r =>
      .given_mul fun hr => ?_
    rw [hloc] at hr
    subst hr
    have hread : Triple (.exactly ((tablePages (tablesOf c) old : Multiset Nat) + S₂) c)
        (op (.pte loc.1 loc.2)) fun e' =>
          .given (e' = e) (.exactly ((tablePages (tablesOf c) old : Multiset Nat) + S₂) c) := by
      refine .read (fun e' => e' = e) fun T c' h => ?_
      rw [← hentry, tablesOf, h.2 loc.1 (Multiset.mem_add.2 (.inl (Multiset.mem_coe.2 hmem))),
        tablesOf]
    refine hread.frame.bind fun e' => .given_mul fun he' => ?_
    subst he'
    show Triple _ (if e'.v = false then _ else _) _
    rw [if_neg (by simp [hleaf.2])]
    refine kalloc_spec.frame_one.bind fun r => ?_
    cases r with
    | none =>
      rw [optCell, one_mul]
      exact hundo.bind fun _ => .ret le_rfl
    | some mem =>
      rw [optCell, ← mul_assoc]
      obtain ⟨hpage, hbytes⟩ := filled_holds hfilled (show i < n by omega) he
      refine (Triple.move_page (Multiset.mem_add.2 (.inr hpage)) hbytes).frame.bind fun _ => ?_
      have hstart : bytesAt mem (fun o => u (i * PGSIZE + o)) * .exactly
          (tablePages (tablesOf c) old + S₂) c *
          (space new g * filled g u i) =
            space new g * (.exactly (tablePages (tablesOf c) old + S₂) c *
            (filled g u i * bytesAt mem fun o => u (i * PGSIZE + o))) := by ac_rfl
      rw [hstart]
      refine (mappages_next hshape (by omega) hleaf.1).frame.bind fun ok => ?_
      cases ok with
      | true =>
        have hnext :=
          ih (g := update g i (some { e' with page := mem })) (i := i + 1) (by omega) (hg.succ he)
        rw [show i + 1 + k = i + (k + 1) by omega, filled_update] at hnext
        refine hnext.conseq ?_ fun _ => le_rfl
        rw [if_pos rfl, mul_left_comm, ← hleaf.2]
      | false =>
        rw [if_neg (by simp)]
        have hback : space new g * (.exactly (tablePages (tablesOf c) old + S₂) c * (filled g u i *
            bytesAt mem fun o => u (i * PGSIZE + o))) ≤ .cell mem *
              (.exactly (tablePages (tablesOf c) old + S₂) c * (space new g * filled g u i)) := by
          calc _ = bytesAt mem (fun o => u (i * PGSIZE + o)) *
                (.exactly (tablePages (tablesOf c) old + S₂) c * (space new g * filled g u i)) := by
                  ac_rfl
            _ ≤ _ := mul_le_mul' bytesAt_le le_rfl
        refine (Triple.kfree.frame.conseq hback fun _ => le_rfl).bind fun _ => ?_
        rw [one_mul]
        exact hundo.bind fun _ => .ret le_rfl

/-- `uvmcopy` gives the child copies of the pages of its parent, or leaves it without memory. -/
theorem uvmcopy_filled {sz : Nat}
    (hs : Shape f frame (pages sz) t) (hS : (space old f * filled f u (pages sz)).holds S c)
    (hs' : Shape g₀ frame' 0 t') :
    Triple (.exactly S c * space new g₀) (uvmcopy old new sz)
      fun ok => .exactly S c * copyPost f g₀ u new (pages sz) ok := by
  have hcopy : Triple (.exactly S c * (space new g₀ * filled g₀ u 0))
      (uvmcopyFrom old new (pages sz) 0) _ :=
    uvmcopyFrom_filled hs hS hs' (Nat.zero_add _).le ⟨nofun, fun _ _ => rfl⟩
  rwa [filled_zero, mul_one, Nat.zero_add] at hcopy

/-! ## `uvmclear` -/

theorem uvmclear_filled (hs : Shape f frame n t) (hv : va / PGSIZE < n) :
    Triple (space root f * filled f u n) (uvmclear root va)
      fun _ => space root (cleared f (va / PGSIZE)) * filled (cleared f (va / PGSIZE)) u n := by
  have hle := hs.le
  have hlt : stopPage - kernPage < maxVpn := by decide
  obtain ⟨e, he, -⟩ := hs.user _ hv
  have hsame : filled (cleared f (va / PGSIZE)) u n = filled f u n := by
    refine filled_congr (fun v _ => ?_) fun _ _ => rfl
    rw [cleared, update_apply]
    split
    · rename_i hv
      rw [hv, he]
      rfl
    · rfl
  rw [hsame]
  refine (uvmclear_clears (fun _ h => h) (.inl ⟨by omega, he ▸ rfl⟩)).frame.conseq le_rfl fun _ =>
    ?_
  exact mul_le_mul' (fun T c h => h.2) le_rfl

theorem cleared_shape (hs : Shape f frame n t) (hv : v < n) :
    Shape (cleared f v) frame n false := by
  obtain ⟨e, he, -⟩ := hs.user v hv
  rw [cleared, he]
  exact hs.clear hv

/-! ## Images -/

/-- To use an image, use its map and what its pages hold. -/
theorem image_filled {α : Type} {x : Code α} {Q : α → Pages} (h : ∀ f u, Shape f frame n t →
    (∀ x, n * PGSIZE ≤ x → u x = 0) → Triple (space root f * filled f u n) x Q) :
    Triple (image root frame n t) x Q := by
  refine .ex fun f => .given fun hs => .of_exactly fun _ c hT => ?_
  obtain ⟨T₁, T₂, rfl, h₁, h₂⟩ := hT
  have hu := filled_of_userPages h₂
  rw [← filled_congr (w := fun x => if x < n * PGSIZE then bytesOf f c x else 0) (fun _ _ => rfl)
    fun x hx => if_pos hx] at hu
  exact (h f _ hs fun x hx => if_neg (by omega)).conseq (Asrt.exactly_le ⟨T₁, T₂, rfl, h₁, hu⟩)
    fun _ => le_rfl

theorem uvmdealloc_spec (oldsz newsz root frame : Nat) (u : Bool) :
    Triple (image root frame (pages oldsz) u) (uvmdealloc root oldsz newsz)
      fun r => .given (r = min oldsz newsz) (image root frame (pages r) u) := by
  refine image_filled fun f w hs _ => (uvmdealloc_filled _ _ hs).conseq le_rfl fun r T c ⟨hr, h⟩ =>
    ⟨hr, ?_⟩
  have hle : pages r ≤ pages oldsz := pages_mono (by omega)
  obtain ⟨k, hk⟩ := Nat.exists_eq_add_of_le hle
  rw [hk] at hs h
  have hsame : filled (without f (pages r) (pages r + k)) w (pages r) = filled f w (pages r) :=
    filled_congr (fun v hv => by rw [without, if_neg (by omega)]) fun _ _ => rfl
  rw [← hsame] at h
  exact filled_image hs.without T c h

theorem uvmalloc_spec (oldsz newsz root frame : Nat) (u : Bool) :
    Triple (image root frame (pages oldsz) u) (uvmalloc root oldsz newsz)
      fun r => .given (r = 0 ∨ r = max oldsz newsz)
        (image root frame (pages (if r = 0 then oldsz else r)) u) := by
  refine image_filled fun f w hs hw => (uvmalloc_filled _ _ hs hw).conseq le_rfl fun r T c h => ?_
  by_cases h0 : r = 0
  · rw [if_pos h0] at h
    rw [if_pos h0]
    exact ⟨.inl h0, filled_image hs T c h⟩
  · rw [if_neg h0] at h
    rw [if_neg h0]
    obtain ⟨g, ⟨hr, hg, hroom⟩, h⟩ := h
    exact ⟨.inr hr, filled_image (hg.shape hs (pages_mono (by omega)) hroom) T c h⟩

theorem uvmcopy_spec {sz : Nat} :
    Triple (image old frame (pages sz) t * image new frame' 0 false) (uvmcopy old new sz)
      fun ok => image old frame (pages sz) t * image new frame' (if ok then pages sz
        else 0) false := by
  refine .of_exactly fun _ c hT => ?_
  obtain ⟨T₁, T₂, rfl, hold, g₀, hs', hnew⟩ := hT
  obtain ⟨f, hs, S₁, S₂, rfl, h₁, h₂⟩ := id hold
  rw [userPages, Finset.Ico_self, prod_empty, mul_one] at hnew
  rw [Asrt.exactly_add]
  refine (uvmcopy_filled hs ⟨S₁, S₂, rfl, h₁, filled_of_userPages h₂⟩ hs').conseq
    (mul_le_mul' le_rfl (Asrt.exactly_le hnew)) fun ok => mul_le_mul' (Asrt.exactly_le hold) ?_
  cases ok with
  | false => exact (mul_one _).ge.trans (image_intro hs' |>.trans image_weaken)
  | true =>
    rintro T c ⟨g, ⟨hg, hroom⟩, h⟩
    exact filled_image (hg.shape hs' hroom) T c h

theorem uvmclear_spec (hn : va / PGSIZE < n) :
    Triple (image root frame n t) (uvmclear root va) fun _ => image root frame n false :=
  image_filled fun _ _ hs _ => (uvmclear_filled hs hn).conseq le_rfl fun _ =>
    filled_image (cleared_shape hs hn)

end

end Xv6.Vm
