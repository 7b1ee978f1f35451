import Xv6.Vm.Processes
import Mathlib.Logic.Relation

/-!
# Pages of a running system

Every run of system calls after boot accounts for every page of RAM, whichever calls of `kalloc`
fail, and keeps the shape of user address spaces, so that none of the panics of `vm.c` is reached.
-/

namespace Xv6.Vm

open Lib List

/-- The kernel's tables before the first process. -/
def Kern.zero : Kern := ⟨fun _ => .zero, fun _ => ⟨0, .none, false⟩, fun _ => ⟨false, false⟩⟩

/-- The state after boot: the pages of `boot` have been taken, the first process has been made. -/
structure Booted (m : Mem) (boot : Multiset Nat) (s : St) : Prop where
  own : Own m boot
  init : userinit.run step ⟨m, .zero⟩ = .ok (true, s)

/-- The pages of user memory, by the page table. -/
def userMemory (pt : Tables) (root n : Nat) : List Nat :=
  (range n).filterMap fun v => (mapping pt root v).map Pte.page

/-- The pages of a process: its trapframe, its page-table pages and the pages of its user memory. -/
def UProc.pages (x : UProc) (pt : Tables) : Multiset Nat :=
  x.trapframe.elim 0 (fun frame => {frame}) + x.pagetable.elim 0 fun root =>
    (tablePages pt root : Multiset Nat) + userMemory pt root (Vm.pages x.sz)

/-- All places of pages: the free list, the processes, the open pipes, and the pages taken at boot.
-/
def St.places (s : St) (boot : Multiset Nat) : Multiset Nat :=
  s.mem.freelist + (∑ q, (s.kern.proc q).pages s.mem.pt + s.kern.openPipes.val + boot)

/-! ## The invariant -/

/-- What holds between system calls. -/
def Inv (boot : Multiset Nat) (s : St) : Prop :=
  ∃ T, Own s.mem (T + boot) ∧ s.kern.all.holds T s.mem.page

section

variable {m : Mem} {boot : Multiset Nat} {s s' : St} {c : Nat → Page} {T : Multiset Nat}

theorem between_zero : Between .zero := by
  have hd : Kern.zero.descriptors = 0 := by
    unfold Kern.descriptors
    exact Finset.sum_eq_zero fun _ _ => rfl
  refine ⟨fun q => .unused rfl rfl rfl rfl fun _ => rfl, ⟨nofun, nofun, nofun⟩, fun f => ?_,
    fun _ _ => rfl⟩
  rw [hd]
  rfl

theorem userinit_spec : Spec .zero (Kern.zero.procs * Kern.zero.pipes) userinit
    fun ok k' => if ok then k'.all else .ex id := by
  have hfail {k : Kern} {P : Pages} : Spec k P (.ret false) fun ok k' => if ok then k'.all
      else .ex id :=
    .ret fun T pt hT => ⟨P, hT⟩
  refine ((allocproc_spec between_zero.settled).frame.conseq (one_mul _).ge fun _ _ => le_rfl).bind
    fun r k₁ => ?_
  cases r with
  | none => exact hfail
  | some q =>
    rw [allocPost, Asrt.ex_mul]
    refine .ex fun frame => ?_
    rw [Asrt.ex_mul]
    refine .ex fun root => .given_mul fun hq => ?_
    obtain ⟨hq, hk₁⟩ := hq
    subst hk₁
    refine .kern ?_
    rw [Kern.proc_setProc_self]
    have hstart : image root frame 0 true * .cell frame * (Kern.zero.procs * Kern.zero.pipes) =
        image root frame 0 true * (.cell frame * (Kern.zero.others q * Kern.zero.pipes)) := by
      rw [procs_free between_zero hq, mul_assoc]
    rw [hstart]
    refine .mem (uvminit_spec (by decide)).frame fun ok => ?_
    cases ok with
    | false => exact hfail
    | true =>
      rw [if_pos rfl, if_pos rfl, mul_left_comm]
      refine .mem Triple.fill_cell.frame fun _ => .mem Triple.fill_cell.frame fun _ =>
        .setProc (.ret ?_)
      have hlive : UProc.Live ⟨.runnable, none, some root, PGSIZE, some frame,
          fun _ => none⟩ root frame :=
        ⟨rfl, rfl, rfl⟩
      have hpages : pages PGSIZE = 1 := by decide
      have hown := hlive.own
      change _ = .cell frame * image root frame (pages PGSIZE) false at hown
      show _ ≤
          (Kern.zero.setProc q ⟨.runnable, none, some root, PGSIZE, some frame, fun _ => none⟩).all
      refine le_trans ?_ (all_setProc between_zero hlive.settled rfl)
      rw [hown, hpages, mul_assoc]
      exact mul_le_mul' le_rfl (mul_le_mul' image_weaken le_rfl)

theorem Booted.inv (h : Booted m boot s) : Inv boot s := by
  have hprocs : Kern.zero.procs = 1 := by
    unfold Kern.procs
    exact Finset.prod_eq_one fun _ _ => mul_one 1
  have hpipes : Kern.zero.pipes = 1 := by
    have : Kern.zero.openPipes = ∅ := Finset.eq_empty_of_forall_notMem fun _ h => by
      obtain ⟨f, hf⟩ := Kern.mem_openPipes.1 h
      cases hf
    rw [Kern.pipes, this]
    rfl
  have hz : Kern.zero.procs * Kern.zero.pipes = 1 := by rw [hprocs, hpipes, mul_one]
  have hO : Own m (0 + boot) := (zero_add boot).symm ▸ h.own
  have hspec := userinit_spec m 0 boot hO (hz ▸ rfl)
  obtain ⟨_, T, hO', hT⟩ := hspec.of_run h.init
  exact ⟨T, hO', hT⟩

theorem Inv.call (h : Inv boot s) {p : Slot} {c : Call} (hp : (s.kern.proc p).state = .runnable) :
    (c.code p).Wp step (fun o => o = some .initExiting) (fun _ => Inv boot) s := by
  obtain ⟨T, hO, hb, hT⟩ := h
  by_cases hinit : c = .exit ∧ p = initproc
  · obtain ⟨rfl, rfl⟩ := hinit
    rw [Call.code, Vm.exit, if_pos rfl]
    exact rfl
  · have hwp := call_spec hb hp (fun hc hi => hinit ⟨hc, hi⟩) s.mem T boot hO hT
    refine (hwp.weaken fun _ h => h.elim).mono fun _ s' hs => ?_
    obtain ⟨-, T', hO', hT'⟩ := hs
    exact ⟨T', hO', hT'⟩

theorem Inv.reach (h : Inv boot s) (hr : Relation.ReflTransGen Step s s') : Inv boot s' := by
  induction hr with
  | refl => exact h
  | tail _ hstep ih =>
    obtain ⟨live, run⟩ := hstep
    exact (ih.call live).of_run run

/-! ## What the invariant says about the tables -/

theorem image_pages {root frame n : Nat} {u : Bool} (h : (image root frame n u).holds T c) :
    T = (tablePages (tablesOf c) root : Multiset Nat) + userMemory (tablesOf c) root n := by
  obtain ⟨f, hs, _, T₂, rfl, ⟨rfl, hspace⟩, h₂⟩ := h
  rw [userPages_eq h₂, userMemory]
  congr 2
  refine filterMap_congr fun v hv => ?_
  have hle := hs.le
  have hlt : stopPage - kernPage < 512 ^ 3 := by decide
  rw [hspace.map v (by have := mem_range.1 hv; omega)]

theorem own_pages {x : UProc} (h : x.own.holds T c) : T = x.pages (tablesOf c) := by
  obtain ⟨T₁, T₂, rfl, h₁, h₂⟩ := h
  rw [UProc.pages]
  congr 1
  · cases hframe : x.trapframe with
    | none => rw [hframe] at h₁; exact h₁
    | some frame => rw [hframe] at h₁; exact h₁
  · cases hroot : x.pagetable with
    | none => rw [hroot] at h₂; exact h₂
    | some root =>
      rw [hroot] at h₂
      exact image_pages h₂

theorem procs_holds {k : Kern} (h : k.procs.holds T c) :
    ∃ f : Slot → Multiset Nat, T = ∑ q, f q ∧ ∀ q, (k.proc q).own.holds (f q) c := by
  have key (s : Finset Slot) (h : (∏ q ∈ s, (k.proc q).own).holds T c) := Asrt.holds_prod.1 h
  unfold Kern.procs at h
  obtain ⟨f, hT, hf⟩ := key Finset.univ h
  exact ⟨f, hT, fun q => hf q (Finset.mem_univ q)⟩

theorem Inv.places (h : Inv boot s) : s.places boot = s.mem.ram := by
  obtain ⟨T, hO, hall⟩ := h
  have hall : (s.kern.procs * s.kern.pipes).holds T s.mem.page := hall.2
  obtain ⟨T₁, T₂, hT, hprocs, hpipes⟩ := Asrt.holds_mul.1 hall
  have hpipes : T₂ = s.kern.openPipes.val := hpipes
  obtain ⟨f, hsum, hf⟩ := procs_holds hprocs
  have hpages : ∑ q, (s.kern.proc q).pages s.mem.pt = T₁ :=
    (Finset.sum_congr rfl fun q _ => (own_pages (hf q)).symm).trans hsum.symm
  rw [St.places, hpages, ← hpipes, ← hT]
  exact hO.cover

/-- What the page table of a process maps. -/
structure AddressSpace (pt : Tables) (root sz : Nat) : Prop where
  mapped : ∀ vpn < 512 ^ 3, (mapping pt root vpn).isSome ↔ vpn < pages sz ∨ vpn = trapframe ∨
    vpn = trampoline
  kernel : ∀ vpn e, vpn = trapframe ∨ vpn = trampoline → mapping pt root vpn = some e → e.u = false

theorem image_addressSpace {root frame sz : Nat} {u : Bool}
    (h : (image root frame (pages sz) u).holds T c) :
    AddressSpace (tablesOf c) root sz := by
  obtain ⟨f, hs, _, T₂, rfl, ⟨rfl, hspace⟩, -⟩ := h
  obtain ⟨page, htramp⟩ := hs.tramp
  have hlt : trapframe < 512 ^ 3 ∧ trampoline < 512 ^ 3 := by decide
  refine ⟨fun vpn hv => ?_, fun vpn e hv he => ?_⟩
  · rw [hspace.map vpn hv]
    constructor
    · intro h
      by_contra hno
      rw [hs.other vpn (by omega) (by omega) (by omega)] at h
      cases h
    · rintro (h | rfl | rfl)
      · obtain ⟨e, he, -⟩ := hs.user vpn h
        rw [he]
        rfl
      · rw [hs.frame]
        rfl
      · rw [htramp]
        rfl
  · rcases hv with rfl | rfl
    · rw [hspace.map _ hlt.1, hs.frame] at he
      cases he
      rfl
    · rw [hspace.map _ hlt.2, htramp] at he
      cases he
      rfl

theorem Inv.addressSpace (h : Inv boot s) {q : Slot} (hq : (s.kern.proc q).state ≠ .unused) :
    ∃ root, (s.kern.proc q).pagetable = some root ∧
    AddressSpace s.mem.pt root (s.kern.proc q).sz := by
  obtain ⟨T, hO, hb, hall⟩ := h
  have hall : (s.kern.procs * s.kern.pipes).holds T s.mem.page := hall
  obtain ⟨T₁, T₂, hT, hprocs, -⟩ := Asrt.holds_mul.1 hall
  obtain ⟨f, -, hf⟩ := procs_holds hprocs
  have hsome : (s.kern.proc q).pagetable.isSome := by
    rcases hb.settled q with ⟨hs, _, _, _, _⟩ | ⟨_, hp, _⟩ | ⟨_, hp, _, _⟩
    · exact absurd hs hq
    · exact hp
    · exact hp
  obtain ⟨root, hroot⟩ := Option.isSome_iff_exists.1 hsome
  obtain ⟨_, _, -, -, h⟩ := Asrt.holds_mul.1 (hf q)
  rw [hroot] at h
  exact ⟨root, hroot, image_addressSpace h⟩

theorem reach_first (hr : Relation.ReflTransGen Step s s') : s'.mem.first = s.mem.first := by
  induction hr with
  | refl => rfl
  | tail _ hstep ih =>
    obtain ⟨_, run⟩ := hstep
    exact (run_first run).trans ih

/-! ## Laws -/

/-- After boot, whatever calls are made and whichever calls of `kalloc` fail, every page of RAM is
in one place, and once. -/
theorem page_ownership (hb : Booted m boot s) (hr : Relation.ReflTransGen Step s s') :
    s'.places boot = (Finset.Ico m.first stopPage).val := by
  have hfirst : s'.mem.first = m.first := (reach_first hr).trans (run_first hb.init)
  rw [(hb.inv.reach hr).places, Mem.ram, hfirst]

/-- A memory of 20 pages, all free. -/
def small : Mem where
  first := stopPage - 20
  tramp := kernPage
  pt _ _ := .zero
  data _ _ := 0
  freelist := range' (stopPage - 20) 20
  fails _ := false
  kallocs := 0

/-- Whether the first process, after boot in a small memory, runs `x` to its end with the outcome
`good`. -/
def firstRuns {α : Type} (x : Code α) (good : St → α → St → Bool) : Bool :=
  match userinit.run step ⟨small, .zero⟩ with
  | .ok (true, s) => decide ((s.kern.proc initproc).state = .runnable) && match x.run step s with
    | .ok (r, s') => good s r s'
    | _ => false
  | _ => false

theorem of_firstRuns {α : Type} {x : Code α} {good : St → α → St → Bool}
    (h : firstRuns x good = true) :
    ∃ s r s', Booted small 0 s ∧ (s.kern.proc initproc).state = .runnable ∧
    x.run step s = .ok (r, s') ∧
      good s r s' = true := by
  unfold firstRuns at h
  split at h
  · rename_i s hinit
    obtain ⟨hlive, h⟩ := Bool.and_eq_true_iff.1 h
    split at h
    · rename_i r s' hrun
      exact ⟨s, r, s', ⟨⟨by decide, rfl⟩, hinit⟩, of_decide_eq_true hlive, hrun, h⟩
    · cases h
  · cases h

theorem firstFork_spec :
    ∃ s s', Booted small 0 s ∧ Step s s' ∧ (s'.kern.proc ⟨1, by decide⟩).state = .runnable := by
  have hfork : firstRuns (Call.fork.code initproc)
      (fun _ _ s' => decide ((s'.kern.proc ⟨1, one_lt_nproc⟩).state = .runnable)) = true := by
        decide +kernel
  obtain ⟨s, _, s', hb, live, run, hchild⟩ := of_firstRuns hfork
  exact ⟨s, s', hb, ⟨live, run⟩, of_decide_eq_true hchild⟩

theorem page_ownership_fork : ∃ s s', Booted small 0 s ∧ Step s s' ∧
    (s'.kern.proc ⟨1, by decide⟩).state = .runnable ∧
    s'.places 0 = (Finset.Ico small.first stopPage).val := by
  obtain ⟨s, s', hb, hs, hchild⟩ := firstFork_spec
  exact ⟨s, s', hb, hs, hchild, page_ownership hb (.single hs)⟩

/-- After boot, whatever calls are made and whichever calls of `kalloc` fail, a process has the user
pages below its size, the trapframe and the trampoline mapped, and no call panics, except that of an
init that exits. -/
theorem address_space_shape (hb : Booted m boot s) (hr : Relation.ReflTransGen Step s s') :
    (∀ q, (s'.kern.proc q).state ≠ .unused → ∃ root, (s'.kern.proc q).pagetable = some root ∧
      AddressSpace s'.mem.pt root (s'.kern.proc q).sz) ∧
    ∀ p c, (s'.kern.proc p).state = .runnable →
      (∃ s'', s'.Calls p c = .ok ((), s'')) ∨ s'.Calls p c = .panic .initExiting := by
  have hi := hb.inv.reach hr
  refine ⟨fun q hq => hi.addressSpace hq, fun p c hp => ?_⟩
  have hrun := Prog.wp_iff_run.1 (hi.call hp (c := c))
  rw [St.Calls]
  split at hrun
  · rename_i s'' h
    exact .inl ⟨s'', h⟩
  · cases hrun
  · rename_i e h
    cases hrun
    exact .inr h

theorem address_space_shape_fork : ∃ s s', Booted small 0 s ∧ Step s s' ∧
    ∃ root, (s'.kern.proc ⟨1, by decide⟩).pagetable = some root ∧
      AddressSpace s'.mem.pt root (s'.kern.proc ⟨1, by decide⟩).sz := by
  obtain ⟨s, s', hb, hs, hchild⟩ := firstFork_spec
  exact ⟨s, s', hb, hs, (address_space_shape hb (.single hs)).1 _ (hchild ▸ nofun)⟩

end

end Xv6.Vm
