import Xv6.Vm.Laws

/-!
# `sbrk` and `fork`

What `growproc` and `fork` do to the memory of processes, in every state between system calls and
whichever calls of `kalloc` fail.
-/

namespace Xv6.Vm

open Lib Function List

/-- The page-table entry of a virtual page of process `p`. -/
def St.entry (s : St) (p : Slot) (vpn : Nat) : Option Pte :=
  (s.kern.proc p).pagetable.bind fun root => mapping s.mem.pt root vpn

/-- The byte of the memory of process `p` at address `va`. -/
def St.byte (s : St) (p : Slot) (va : Nat) : Option UInt8 :=
  (s.kern.proc p).pagetable.bind fun root => s.mem.byte root va

/-- The bytes below `n` pages, and zeros. -/
def cut (u : Nat → UInt8) (n : Nat) : Nat → UInt8 := fun x => if x < n * PGSIZE then u x else 0

section

variable {f g : Nat → Option Pte} {u : Nat → UInt8} {root frame n : Nat} {t : Bool}
  {k : Kern} {p : Slot}
  {m : Mem} {boot : Multiset Nat} {s s' : St}

theorem filled_cut : filled f (cut u n) n = filled f u n :=
  filled_congr (fun _ _ => rfl) fun _ hx => if_pos hx

theorem cut_of_le {x : Nat} (h : n * PGSIZE ≤ x) : cut u n x = 0 := if_neg (Nat.not_lt.2 h)

/-- What a process may use in a state between system calls: a trapframe, and user memory with some
bytes. -/
structure Runs (s : St) (p : Slot) (root frame : Nat) (f : Nat → Option Pte) (u : Nat → UInt8)
    (T R : Multiset Nat) : Prop where
  live : (s.kern.proc p).Live root frame
  own : Own s.mem (T + ({frame} + R))
  shape : Shape f frame (pages (s.kern.proc p).sz) false
  memory : (space root f * filled f u (pages (s.kern.proc p).sz)).holds T s.mem.page

theorem Inv.runs (h : Inv boot s) (live : (s.kern.proc p).state = .runnable) :
    ∃ root frame f u T P R, Runs s p root frame f u T (P + R) ∧
    s.kern.pipes.holds P s.mem.page := by
  obtain ⟨T, hO, hb, hT⟩ := h
  obtain ⟨root, frame, hp⟩ := (hb.settled p).live live
  have hT : (s.kern.procs * s.kern.pipes).holds T s.mem.page := hT
  rw [procs_eq s.kern p, mul_assoc, hp.own] at hT
  obtain ⟨_, _, rfl, ⟨_, _, rfl, rfl, f, hs, S₁, S₂, rfl, hspace, huser⟩, O, P, rfl, -, hpipes⟩ :=
    hT
  refine ⟨root, frame, f, bytesOf f s.mem.page, S₁ + S₂, P, O + boot,
    ⟨hp, ?_, hs, S₁, S₂, rfl, hspace, filled_of_userPages huser⟩, hpipes⟩
  have hsum : S₁ + S₂ + ({frame} + (P + (O + boot))) = {frame} + (S₁ + S₂) + (O + P) + boot := by
    ac_rfl
  rwa [hsum]

namespace Runs

variable {T R : Multiset Nat}

theorem lt_max (h : Runs s p root frame f u T R) {v : Nat} (hv : v < pages (s.kern.proc p).sz) :
    v < maxVpn := by
  have := h.shape.le
  have : stopPage - kernPage < maxVpn := by decide
  omega

theorem sz_le (h : Runs s p root frame f u T R) : (s.kern.proc p).sz ≤ 2 ^ 27 := by
  have := h.shape.le
  have : stopPage - kernPage = 2 ^ 15 := by decide
  simp only [pages, PGSIZE] at *
  omega

theorem byte (h : Runs s p root frame f u T R) {va : Nat}
    (hva : va < pages (s.kern.proc p).sz * PGSIZE) :
    s.byte p va = some (u va) := by
  obtain ⟨S₁, S₂, -, hspace, hfilled⟩ := h.memory
  have hle := h.shape.le
  have hlt : stopPage - kernPage < maxVpn := by decide
  have hv : va / PGSIZE < pages (s.kern.proc p).sz := Nat.div_lt_of_lt_mul (by rwa [Nat.mul_comm])
  obtain ⟨e, he, -⟩ := h.shape.user _ hv
  rw [St.byte, h.live.pagetable]
  exact byte_of_filled hspace hfilled (by omega) hva (he ▸ rfl)

theorem entry (h : Runs s p root frame f u T R) {v : Nat} (hv : v < 512 ^ 3) :
    s.entry p v = f v := by
  obtain ⟨S₁, S₂, -, hspace, -⟩ := h.memory
  rw [St.entry, h.live.pagetable]
  exact hspace.2.map v hv

end Runs

/-! ## `sbrk` -/

/-- The size that `growproc` leaves if it returns 0: a size below 0 is refused silently. -/
def grownSize (sz : Nat) (n : Int) : Nat := if 0 ≤ sz + n then (sz + n).toNat else sz

/-- What `growproc` leaves. -/
def grownPost (p : Slot) (k : Kern) (root frame : Nat) (f : Nat → Option Pte)
    (u : Nat → UInt8) (n : Int) (r : Int) (k' : Kern) : Pages :=
  if r = 0 then .ex fun g =>
    .given (k' = k.setProc p { k.proc p with sz := grownSize (k.proc p).sz n } ∧
      Shape g frame (pages (grownSize (k.proc p).sz n)) false)
    (space root g * filled g u (pages (grownSize (k.proc p).sz n)))
  else .given (r = -1 ∧ 0 < n ∧ k' = k) (space root f * filled f u (pages (k.proc p).sz))

theorem growproc_filled {n : Int} (hp : (k.proc p).Live root frame)
    (hs : Shape f frame (pages (k.proc p).sz) false)
    (hu : ∀ x, pages (k.proc p).sz * PGSIZE ≤ x → u x = 0) (hsz : (k.proc p).sz ≤ 2 ^ 27)
    (hn : -2 ^ 31 ≤ n ∧ n < 2 ^ 31) :
    Spec k (space root f * filled f u (pages (k.proc p).sz)) (growproc p n)
    (grownPost p k root frame f u n) := by
  refine .kern ?_
  rw [hp.pagetable]
  show Spec k _ (if 0 < n then _ else if n < 0 then _ else _) _
  have hmod : (k.proc p).sz % 2 ^ 32 = (k.proc p).sz := Nat.mod_eq_of_lt (by omega)
  rw [hmod]
  generalize hnew : ((((k.proc p).sz : Int) + n) % 2 ^ 32).toNat = newsz
  have hset (sz : Nat) (g : Nat → Option Pte) (hg : Shape g frame (pages sz) false)
      (he : sz = grownSize (k.proc p).sz n) : Spec k (space root g * filled g u (pages sz))
      (do setProc p fun x => { x with sz }; pure (0 : Int)) (grownPost p k root frame f u n) := by
    subst he
    exact .kern (.setKern (.ret fun T c h => ⟨g, ⟨rfl, hg⟩, h⟩))
  split
  · rename_i hpos
    have hsum : newsz = (k.proc p).sz + n.toNat := by omega
    refine .mem (uvmalloc_filled _ _ hs hu) fun r => ?_
    show Spec k _ (if r % 2 ^ 32 = 0 then _ else _) _
    by_cases h0 : r = 0
    · rw [if_pos h0, h0]
      exact .ret fun T c h => ⟨⟨rfl, hpos, rfl⟩, h⟩
    · rw [if_neg h0]
      refine .ex fun g => .given fun hr => ?_
      obtain ⟨hr, hg, hroom⟩ := hr
      have hrmod : r % 2 ^ 32 = r := Nat.mod_eq_of_lt (by omega)
      rw [hrmod, if_neg h0]
      refine hset r g (hg.shape hs (pages_mono (by omega)) hroom) ?_
      rw [grownSize, if_pos (by omega)]
      omega
  · split
    · refine .mem (uvmdealloc_filled _ _ hs) fun r => .given fun hr => ?_
      have hrmod : r % 2 ^ 32 = r := Nat.mod_eq_of_lt (by omega)
      rw [hrmod]
      have hle : pages r + (pages (k.proc p).sz - pages r) = pages (k.proc p).sz := by
        have := pages_mono (a := r) (b := (k.proc p).sz) (by omega)
        omega
      rw [← hle] at hs
      have hg := hs.without
      rw [hle] at hg
      have hsame : filled (without f (pages r) (pages (k.proc p).sz)) u (pages r) =
          filled f u (pages r) :=
        filled_congr (fun v hv => by rw [without, if_neg (by omega)]) fun _ _ => rfl
      rw [← hsame]
      refine hset r _ hg ?_
      rw [grownSize]
      split
      · omega
      · omega
    · refine hset _ f hs ?_
      rw [grownSize]
      split
      · omega
      · rfl

/-- `sbrk` by `n` as it should be: the size changes by `n` and new pages are zero, or nothing
changes. -/
structure Exact (p : Slot) (n : Int) (s : St) (r : Int) (s' : St) : Prop where
  returns : r = 0 ∨ r = -1
  size : r = 0 → ((s'.kern.proc p).sz : Int) = (s.kern.proc p).sz + n
  zero : r = 0 → ∀ va, pages (s.kern.proc p).sz * PGSIZE ≤ va →
    va < pages (s'.kern.proc p).sz * PGSIZE →
    s'.byte p va = some 0
  failed : r = -1 → (s'.kern.proc p).sz = (s.kern.proc p).sz ∧
    ∀ v < 512 ^ 3, s'.entry p v = s.entry p v

/-- `growproc(n)` does not panic; it changes the size by `n` or does nothing if and only if the new
size would not be negative. -/
theorem sbrk_exact_iff {n : Int} (h : Inv boot s) (live : (s.kern.proc p).state = .runnable)
    (hn : -2 ^ 31 ≤ n ∧ n < 2 ^ 31) :
    ∃ r s', (growproc p n).run step s = .ok (r, s') ∧
    (Exact p n s r s' ↔ 0 ≤ (s.kern.proc p).sz + n) := by
  obtain ⟨root, frame, f, u, T, P, R, hr, -⟩ := h.runs live
  have hmem := hr.memory
  rw [← filled_cut] at hmem
  have hwp :=
    growproc_filled hr.live hr.shape (fun x => cut_of_le) hr.sz_le hn s.mem T _ hr.own hmem
  obtain ⟨r, s', hrun, -, T', hO', hpost⟩ := hwp.exists_run
  refine ⟨r, s', hrun, ?_⟩
  unfold grownPost at hpost
  split at hpost
  · rename_i h0
    obtain ⟨g, ⟨hk, hg⟩, hpost⟩ := hpost
    have hproc : s'.kern.proc p = { s.kern.proc p with sz := grownSize (s.kern.proc p).sz n } := by
      rw [hk, Kern.proc_setProc_self]
    have hsz : (s'.kern.proc p).sz = grownSize (s.kern.proc p).sz n := by rw [hproc]
    have hlive : (s'.kern.proc p).Live root frame := by
      rw [hproc]
      exact ⟨hr.live.state, hr.live.pagetable, hr.live.trapframe⟩
    constructor
    · intro hexact
      have := hexact.size h0
      rw [hsz, grownSize] at this
      split at this
      · assumption
      · omega
    · intro hpos
      refine ⟨.inl h0, fun _ => ?_, fun _ va hlo hhi => ?_, fun h1 => ?_⟩
      · rw [hsz, grownSize, if_pos hpos]
        omega
      · rw [← hsz] at hg hpost
        have hruns : Runs s' p root frame g (cut u (pages (s.kern.proc p).sz)) T' (P + R) :=
          ⟨hlive, hO', hg, hpost⟩
        rw [hruns.byte hhi, cut_of_le hlo]
      · rw [h0] at h1
        cases h1
  · rename_i h0
    obtain ⟨⟨h1, hpos, hk⟩, hpost⟩ := hpost
    refine ⟨fun _ => by omega, fun _ => ⟨.inr h1, fun e => absurd e h0, fun e => absurd e h0,
      fun _ => ⟨?_, ?_⟩⟩⟩
    · rw [hk]
    · intro v hv
      obtain ⟨S₁, S₂, -, hspace, -⟩ := hpost
      rw [hr.entry hv, St.entry, hk, hr.live.pagetable]
      exact hspace.2.map v hv

end

/-- A first process that asks for another page. -/
theorem sbrk_exact_first :
    ∃ s r s', Booted small 0 s ∧ (growproc initproc 4096).run step s = .ok (r, s') ∧
    Exact initproc 4096 s r s' := by
  have hfirst : firstRuns (growproc initproc 4096)
      (fun s _ _ => decide ((s.kern.proc initproc).sz = 4096)) = true := by decide +kernel
  obtain ⟨s, -, -, hb, live, -, hsz⟩ := of_firstRuns hfirst
  have hsz := of_decide_eq_true hsz
  obtain ⟨r, s', hrun, hexact⟩ := sbrk_exact_iff hb.inv live (n := 4096) (by decide)
  refine ⟨s, r, s', hb, hrun, hexact.2 ?_⟩
  omega

/-- `sbrk(-8192)` by a process of one page returns 0 and changes nothing. -/
theorem sbrk_below_zero : ∃ s s', Booted small 0 s ∧ (s.kern.proc initproc).state = .runnable ∧
    (growproc initproc (-8192)).run step s = .ok (0, s') ∧ (s.kern.proc initproc).sz = 4096 ∧
    (s'.kern.proc initproc).sz = 4096 := by
  have hfirst : firstRuns (growproc initproc (-8192)) (fun s r s' => decide
      (r = 0 ∧ (s.kern.proc initproc).sz = 4096 ∧ (s'.kern.proc initproc).sz = 4096)) = true := by
    decide +kernel
  obtain ⟨s, r, s', hb, live, hrun, h⟩ := of_firstRuns hfirst
  obtain ⟨rfl, hsz, hsz'⟩ := of_decide_eq_true h
  exact ⟨s, s', hb, live, hrun, hsz, hsz'⟩

/-! ## `fork` -/

section

variable {f : Nat → Option Pte} {u : Nat → UInt8} {root frame : Nat} {k k' : Kern} {p : Slot}
  {boot : Multiset Nat}
  {s : St} {S : Multiset Nat} {c : Nat → Page}

/-- The bytes of the trapframe of a child: those of its parent, with 0 in `a0`. -/
def childFrame (d d₀ : Nat → UInt8) : Nat → UInt8 :=
  Bytes.splice (fun o => if o < Trapframe.size then d o else d₀ o) Trapframe.a0 (Bytes.number 8 0)

theorem copyTrapframe_filled {dst : Nat} (hS : frame ∈ S) :
    Triple (.cell dst * .exactly S c) (copyTrapframe (some frame) (some dst))
      fun _ => (.ex fun d₀ => bytesAt dst (childFrame (c frame).bytes d₀)) * .exactly S c := by
  have hmove : Triple (.cell dst * .exactly S c) (op (.move dst frame Trapframe.size)) fun _ =>
      (.ex fun d₀ : Nat → UInt8 =>
      bytesAt dst fun o => if o < Trapframe.size then (c frame).bytes o else d₀ o) *
        .exactly S c := by
    refine .setData_reading (fun m o => if o < Trapframe.size then m.data frame o else m.data dst o)
      (fun _ _ => rfl) fun T m hm => ⟨m.data dst, rfl, fun o _ => ?_⟩
    have hpage : m.page frame = c frame := hm.2 frame hS
    rw [update_self, ← hpage]
    rfl
  refine hmove.bind fun _ => ?_
  rw [Asrt.ex_mul, Asrt.ex_mul]
  refine .ex fun d₀ => Triple.fill_bytes.frame.conseq le_rfl fun _ T c h => ⟨d₀, h⟩

/-- The process that `fork` has made. -/
structure Child (p np : Slot) (new frame : Nat) (k k' : Kern) : Prop where
  unused : (k.proc np).state = .unused
  live : (k'.proc np).Live new frame
  parent : (k'.proc np).parent = some p
  sz : (k'.proc np).sz = (k.proc p).sz
  other : ∀ q, q ≠ np → k'.proc q = k.proc q

/-- The end of `fork`: the child gets the files of its parent, and may run. -/
theorem forkEnd_spec {np : Slot} {x : UProc} {new frame : Nat} {F : Pages} (h : Between k)
    (hnp : (k.proc np).state = .unused) (hxp : x.pagetable = some new)
    (hxt : x.trapframe = some frame)
    (hxs : x.sz = (k.proc p).sz) (hxo : x.ofile = (k.proc np).ofile) :
    Spec (k.setProc np x) (F * k.pipes) (do
      dupFiles p np (finRange NOFILE)
      setProc np fun x => { x with parent := some p, state := .runnable }
      pure (0 : Int)) fun r k' => .given (r = 0 ∧ Child p np new frame k k') (F * k'.pipes) := by
  have hfree : ∀ fd ∈ finRange NOFILE, ((k.setProc np x).proc np).ofile fd = none := fun fd _ => by
    rw [Kern.proc_setProc_self, hxo]
    exact ((h.settled np).free hnp).2.2.2 fd
  rw [← pipes_setProc (p := np) (x := x), mul_comm]
  refine (dupFiles_spec (files_setProc h.files hxo) hfree (nodup_finRange _)).frame.bind fun _ k₁ =>
    .given_mul fun ⟨hf, hs⟩ => ?_
  obtain ⟨o, ho⟩ := hs.self
  rw [Kern.proc_setProc_self] at ho
  refine .kern (.setKern (.ret fun T c hT => ⟨⟨rfl, ⟨hnp, ?_, ?_, ?_, fun q hq => ?_⟩⟩, ?_⟩))
  · rw [Kern.proc_setProc_self, ho]
    exact ⟨rfl, hxp, hxt⟩
  · rw [Kern.proc_setProc_self]
  · rw [Kern.proc_setProc_self, ho]
    exact hxs
  · rw [Kern.proc_setProc, if_neg hq, hs.other q hq, Kern.proc_setProc, if_neg hq]
  · rw [pipes_setProc, mul_comm]
    exact hT

/-- The memory of a child. -/
def childMemory (p : Slot) (k k' : Kern) (f : Nat → Option Pte) (u d : Nat → UInt8) : Pages :=
  .ex fun np => .ex fun new => .ex fun frame => .ex fun g₀ => .ex fun g => .ex fun d₀ =>
    .given (Child p np new frame k k' ∧ Copies f g₀ g (pages (k.proc p).sz) ∧
        Shape g frame (pages (k.proc p).sz) false)
      (space new g * filled g u (pages (k.proc p).sz) * bytesAt frame (childFrame d d₀))

/-- What `fork` leaves, besides the memory `S` of the parent and the pipes. -/
def forkPost (p : Slot) (k : Kern) (f : Nat → Option Pte) (u d : Nat → UInt8) (r : Int)
    (k' : Kern) : Pages :=
  if r = 0 then childMemory p k k' f u d
  else .given (r = -1 ∧
    (k' = k ∨ ∃ q, (k.proc q).state = .unused ∧ k' = k.setProc q (k.proc q).freed)) 1

theorem fork_filled (h : Between k) (hp : (k.proc p).Live root frame)
    (hs : Shape f frame (pages (k.proc p).sz) false)
    (hS : (space root f * filled f u (pages (k.proc p).sz)).holds S c) :
    Spec k (.exactly ({frame} + S) c * k.pipes) (fork p)
      fun r k' => .exactly ({frame} + S) c * k'.pipes * forkPost p k f u (c frame).bytes r k' := by
  refine ((allocproc_spec h.settled).frame.conseq
    (one_mul _).ge fun _ _ => le_rfl).bind fun r k₁ => ?_
  cases r with
  | none =>
    refine .given_mul fun hk₁ => .ret ?_
    have hpipes : k₁.pipes = k.pipes := by
      rcases hk₁ with rfl | ⟨q, -, rfl⟩
      · rfl
      · exact pipes_setProc
    rw [one_mul, hpipes]
    exact (mul_one _).ge.trans (mul_le_mul' le_rfl fun T c h => ⟨⟨rfl, hk₁⟩, h⟩)
  | some np =>
    rw [allocPost, Asrt.ex_mul]
    refine .ex fun frame' => ?_
    rw [Asrt.ex_mul]
    refine .ex fun new => .given_mul fun hnp => ?_
    obtain ⟨hnp, hk₁⟩ := hnp
    have hne : p ≠ np := fun e => by
      rw [← e, hp.state] at hnp
      cases hnp
    obtain ⟨-, -, hsz, hofile⟩ := (h.settled np).free hnp
    subst hk₁
    -- the new process
    generalize hx : ({ k.proc np with
      state := .used, trapframe := some frame', pagetable := some new } : UProc) = x
    have hxp : x.pagetable = some new := hx ▸ rfl
    have hxt : x.trapframe = some frame' := hx ▸ rfl
    have hxs : x.sz = 0 := hx ▸ hsz
    have hxo : x.ofile = (k.proc np).ofile := hx ▸ rfl
    have hproc : (k.setProc np x).proc p = k.proc p := by rw [Kern.proc_setProc, if_neg hne]
    have hstart : image new frame' 0 true * .cell frame' * (.exactly ({frame} + S) c * k.pipes) ≤
        .ex fun g₀ => .given (Shape g₀ frame' 0 true)
          (.exactly S c * space new g₀ * (.cell frame' * .exactly {frame} c * k.pipes)) := by
      rintro T c' ⟨_, T₃, rfl, ⟨_, T₂, rfl, ⟨g₀, hg₀, himage⟩, hcell⟩, hrest⟩
      refine ⟨g₀, hg₀, ?_⟩
      rw [userPages, Finset.Ico_self, Finset.prod_empty, mul_one] at himage
      have hall : (space new g₀ * .cell frame' * (.exactly ({frame} + S) c * k.pipes)).holds _ c' :=
        ⟨_, _, rfl, ⟨_, _, rfl, himage, hcell⟩, hrest⟩
      rw [Asrt.exactly_add] at hall
      have heq : space new g₀ * .cell frame' * (.exactly {frame} c * .exactly S c * k.pipes) =
          .exactly S c * space new g₀ * (.cell frame' * .exactly {frame} c * k.pipes) := by ac_rfl
      rwa [heq] at hall
    refine .conseq (.ex fun g₀ => .given fun hg₀ => ?_) hstart fun _ _ => le_rfl
    refine .kern ?_
    rw [hproc, Kern.proc_setProc_self, hp.pagetable, hxp, hp.trapframe, hxt]
    refine .mem (x := uvmcopy root new (k.proc p).sz) (uvmcopy_filled hs hS hg₀).frame fun ok => ?_
    cases ok with
    | false =>
      have hown : .cell frame' * space new g₀ ≤ x.own := by
        rw [UProc.own, hxp, hxt, hxs]
        refine mul_le_mul' le_rfl ((mul_one _).ge.trans ((image_intro hg₀).trans image_weaken))
      have hfree : .exactly S c * copyPost f g₀ u new (pages (k.proc p).sz) false *
          (.cell frame' * .exactly {frame} c * k.pipes) ≤
            x.own * (.exactly ({frame} + S) c * k.pipes) := by
        calc _ = .cell frame' * space new g₀ * (.exactly {frame} c * .exactly S c * k.pipes) := by
              rw [copyPost, if_neg (by simp)]
              ac_rfl
          _ ≤ _ := by
              rw [Asrt.exactly_add]
              exact mul_le_mul' hown le_rfl
      refine (freeproc_spec.frame.conseq hfree fun _ _ => le_rfl).bind fun _ k' =>
        .given_mul fun hk' => .ret ?_
      subst hk'
      rw [one_mul, pipes_setProc]
      refine (mul_one _).ge.trans (mul_le_mul' le_rfl fun T c h => ⟨⟨rfl, .inr ⟨np, hnp, ?_⟩⟩, h⟩)
      rw [← hx]
      rfl
    | true =>
      have hcopied : .exactly S c * copyPost f g₀ u new (pages (k.proc p).sz) true *
          (.cell frame' * .exactly {frame} c * k.pipes) ≤ .ex fun g => .given
            (Copies f g₀ g (pages (k.proc p).sz) ∧ pages (k.proc p).sz ≤ stopPage - kernPage)
            (.cell frame' * .exactly ({frame} + S) c *
              (space new g * filled g u (pages (k.proc p).sz) * k.pipes)) := by
        rw [copyPost, if_pos rfl, Asrt.exactly_add]
        rintro T c' ⟨_, T₂, rfl, ⟨T₁, T₃, rfl, hS', g, hg, hmem⟩, hrest⟩
        refine ⟨g, hg, ?_⟩
        have hall : (.exactly S c * (space new g * filled g u (pages (k.proc p).sz)) *
            (.cell frame' * .exactly {frame} c * k.pipes)).holds _ c' := ⟨_, _, rfl,
              ⟨_, _, rfl, hS', hmem⟩, hrest⟩
        have heq : .exactly S c * (space new g * filled g u (pages (k.proc p).sz)) *
            (.cell frame' * .exactly {frame} c * k.pipes) =
              .cell frame' * (.exactly {frame} c * .exactly S c) *
              (space new g * filled g u (pages (k.proc p).sz) * k.pipes) := by ac_rfl
        rwa [heq] at hall
      refine .conseq (.ex fun g => .given fun hg => ?_) hcopied fun _ _ => le_rfl
      obtain ⟨hg, hroom⟩ := hg
      have hframe : frame ∈ ({frame} + S : Multiset Nat) :=
        Multiset.mem_add.2 (.inl (Multiset.mem_singleton_self _))
      rw [if_pos rfl]
      refine .setProc ?_
      refine .mem (x := copyTrapframe (some frame) (some frame'))
        (copyTrapframe_filled hframe).frame fun _ => ?_
      rw [Asrt.ex_mul, Asrt.ex_mul]
      refine .ex fun d₀ => ?_
      rw [← mul_assoc]
      refine (forkEnd_spec (x := { x with sz := (k.proc p).sz }) h hnp hxp hxt rfl hxo).conseq
        le_rfl fun r k' => ?_
      rintro T c' ⟨⟨rfl, hchild⟩, hT⟩
      have heq (n : Nat) : bytesAt frame' (childFrame (c frame).bytes d₀) * .exactly
          ({frame} + S) c *
          (space new g * filled g u n) * k'.pipes = .exactly ({frame} + S) c * k'.pipes *
            (space new g * filled g u n * bytesAt frame' (childFrame (c frame).bytes d₀)) := by
              ac_rfl
      rw [heq] at hT
      obtain ⟨T₁, T₂, rfl, hrest, hmem⟩ := hT
      exact ⟨T₁, T₂, rfl, hrest, np, new, frame', g₀, g, d₀, ⟨hchild, hg, hg.shape hg₀ hroom⟩, hmem⟩

/-- A store of `p` to its memory is invisible to `q`. -/
def Invisible (s : St) (p q : Slot) : Prop :=
  ∀ v < pages (s.kern.proc p).sz, ∀ e off bs s', s.entry p v = some e →
    step (.fill e.page off bs) s = .ok ((), s') →
    ∀ va < pages (s.kern.proc q).sz * PGSIZE,
      s'.entry q (va / PGSIZE) = s.entry q (va / PGSIZE) ∧ s'.byte q va = s.byte q va

/-- `np` is a copy of `p`. -/
structure Forked (p np : Slot) (s s' : St) : Prop where
  unused : (s.kern.proc np).state = .unused
  runnable : (s'.kern.proc np).state = .runnable
  parent : (s'.kern.proc np).parent = some p
  sz : (s'.kern.proc np).sz = (s.kern.proc p).sz
  -- the same permission flags
  flags : ∀ v < pages (s.kern.proc p).sz, ∃ e page, s.entry p v = some e ∧
    s'.entry np v = some { e with page }
  bytes : ∀ va < pages (s.kern.proc p).sz * PGSIZE, s'.byte np va = s.byte p va
  disjoint : ∀ v < pages (s.kern.proc p).sz, ∀ w < pages (s.kern.proc p).sz, ∀ e e',
    s'.entry p v = some e → s'.entry np w = some e' → e.page ≠ e'.page
  invisible : Invisible s' p np ∧ Invisible s' np p
  trapframe : ∃ frame frame', (s.kern.proc p).trapframe = some frame ∧
    (s'.kern.proc np).trapframe = some frame' ∧
    ∀ o < Trapframe.size, s'.mem.data frame' o =
      if Trapframe.a0 ≤ o ∧ o < Trapframe.a0 + 8 then 0 else s.mem.data frame o

/-- Nothing has changed for `p`. -/
structure Same (p : Slot) (s s' : St) : Prop where
  proc : s'.kern.proc p = s.kern.proc p
  entry : ∀ v < 512 ^ 3, s'.entry p v = s.entry p v
  byte : ∀ va < pages (s.kern.proc p).sz * PGSIZE, s'.byte p va = s.byte p va
  trapframe : ∀ frame, (s.kern.proc p).trapframe = some frame → s'.mem.page frame = s.mem.page frame

/-- A `fork` that failed. -/
structure Unforked (p : Slot) (s s' : St) : Prop where
  same : Same p s s'
  slots : ∀ q, s'.kern.proc q = s.kern.proc q ∨
    (s.kern.proc q).state = .unused ∧ (s'.kern.proc q).state = .unused
  free : s'.mem.freelist.Perm s.mem.freelist

theorem Own.perm {m m' : Mem} (h : Own m S) (h' : Own m' S) (hfirst : m'.first = m.first) :
    m'.freelist.Perm m.freelist := by
  have hcover : (m'.freelist : Multiset Nat) + S = (m.freelist : Multiset Nat) + S := by
    rw [h.cover, h'.cover, Mem.ram, Mem.ram, hfirst]
  exact Multiset.coe_eq_coe.1 (add_right_cancel hcover)

section

variable {T T' R R' : Multiset Nat} {s' : St} {q : Slot} {root' frame' : Nat} {g : Nat →
  Option Pte} {w : Nat → UInt8}

theorem Runs.transfer (h : Runs s p root frame f u T R) (hp : s'.kern.proc p = s.kern.proc p)
    (hown : Own s'.mem (T + ({frame} + R'))) (hT : ∀ b ∈ T, s'.mem.page b = s.mem.page b) :
    Runs s' p root frame f u T R' := by
  refine ⟨hp ▸ h.live, hown, hp ▸ h.shape, ?_⟩
  rw [hp]
  exact Asrt.frame _ h.memory hT

theorem Runs.same (h : Runs s p root frame f u T R) (h' : Runs s' p root frame f u T R')
    (hp : s'.kern.proc p = s.kern.proc p) (hframe : s'.mem.page frame = s.mem.page frame) :
    Same p s s' := by
  refine ⟨hp, fun v hv => ?_, fun va hva => ?_, fun frame₁ hf => ?_⟩
  · rw [h.entry hv, h'.entry hv]
  · rw [h.byte hva, h'.byte (by rwa [hp])]
  · rw [h.live.trapframe] at hf
    cases hf
    exact hframe

theorem Runs.mem_page (h : Runs s p root frame f u T R) {v : Nat} {e : Pte}
    (hv : v < pages (s.kern.proc p).sz) (he : s.entry p v = some e) : e.page ∈ T := by
  rw [h.entry ((h.lt_max hv).trans maxVpn_lt)] at he
  obtain ⟨S₁, S₂, rfl, -, hfilled⟩ := h.memory
  exact Multiset.mem_add.2 (.inr (filled_holds hfilled hv he).1)

theorem Runs.invisible (hp : Runs s p root frame f u T R) (hq : Runs s q root' frame' g w T' R')
    (hd : ∀ b ∈ T, b ∉ T') : Invisible s p q := by
  intro v hv e off bs s' he hstep va hva
  have hmem := hp.mem_page hv he
  cases hstep
  have hq' : Runs { s with mem := s.mem.setData e.page (Bytes.splice (s.mem.data e.page) off bs) }
      q root' frame'
      g w T' R' := by
    refine hq.transfer rfl ⟨hq.own.above, hq.own.cover⟩ fun b hb => ?_
    have hne : b ≠ e.page := by
      rintro rfl
      exact hd _ hmem hb
    rw [Mem.setData, page_update, update_of_ne hne]
  have hlt : va / PGSIZE < 512 ^ 3 :=
    (hq.lt_max (Nat.div_lt_of_lt_mul (by rwa [Nat.mul_comm]))).trans maxVpn_lt
  exact ⟨(hq'.entry hlt).trans (hq.entry hlt).symm, (hq'.byte hva).trans (hq.byte hva).symm⟩

theorem childFrame_eq {d d₀ : Nat → UInt8} {o : Nat} (ho : o < Trapframe.size) : childFrame d d₀ o =
    if Trapframe.a0 ≤ o ∧ o < Trapframe.a0 + 8 then 0 else d o := by
  rw [childFrame, Bytes.splice_number, Bytes.write, if_pos ho]
  split
  · rw [Nat.zero_div]
    rfl
  · rfl

/-- A child with copies of the pages of its parent. -/
theorem Runs.forked {np : Slot} {g₀ : Nat → Option Pte} {d₀ : Nat → UInt8} {R₂ : Multiset Nat}
    (h : Runs s p root frame f u T R)
    (hp : Runs s' p root frame f u T R') (hchild : Child p np root' frame' s.kern s'.kern)
    (hc : Runs s' np root' frame' g u T' R₂) (hg : Copies f g₀ g (pages (s.kern.proc p).sz))
    (hd : ∀ b ∈ T, b ∉ T')
    (hframe : ∀ o < PGSIZE, s'.mem.data frame' o = childFrame (s.mem.data frame) d₀ o) :
    Forked p np s s' := by
  have hne : p ≠ np := by
    rintro rfl
    have := hchild.unused
    rw [h.live.state] at this
    cases this
  have hproc := hchild.other p hne
  refine ⟨hchild.unused, hchild.live.state, hchild.parent, hchild.sz, fun v hv => ?_,
    fun va hva => ?_,
    fun v hv x hx e e' he he' heq => ?_,
      ⟨hp.invisible hc hd, hc.invisible hp fun b hb hb' => hd b hb' hb⟩,
    frame, frame', h.live.trapframe, hchild.live.trapframe, fun o ho => ?_⟩
  · have hlt : v < 512 ^ 3 := (h.lt_max hv).trans maxVpn_lt
    rw [h.entry hlt, hc.entry hlt]
    exact hg.copy v hv
  · rw [h.byte hva, hc.byte (by rwa [hchild.sz])]
  · refine hd e.page (hp.mem_page (by rwa [hproc]) he) ?_
    rw [heq]
    exact hc.mem_page (by rwa [hchild.sz]) he'
  · have hsize : Trapframe.size < PGSIZE := by decide
    rw [hframe o (ho.trans hsize), childFrame_eq ho]

end

/-- `fork` returns without a panic. If it succeeds, the child has a copy of the memory of its
parent, on pages of its own, and a copy of its trapframe with 0 in `a0`. If it fails, nothing has
changed for the parent, the entry of the child is free again, and the free list has the same pages
as before. -/
theorem fork_copies (h : Inv boot s) (live : (s.kern.proc p).state = .runnable) :
    ∃ r s', (fork p).run step s = .ok (r, s') ∧
      (r = 0 ∧ Same p s s' ∧ (∃ np, Forked p np s s') ∨ r = -1 ∧ Unforked p s s') := by
  obtain ⟨root, frame, f, u, T, P, R, hr, hpipes⟩ := h.runs live
  obtain ⟨-, -, hb, -⟩ := h
  have hown : Own s.mem ({frame} + T + P + R) := by
    have := hr.own
    rwa [show T + ({frame} + (P + R)) = {frame} + T + P + R by ac_rfl] at this
  have hwp := fork_filled hb hr.live hr.shape hr.memory s.mem ({frame} + T + P) R hown
    ⟨_, _, rfl, ⟨rfl, fun _ _ => rfl⟩, hpipes⟩
  obtain ⟨r, s', hrun, -, T', hO', hpost⟩ := hwp.exists_run
  refine ⟨r, s', hrun, ?_⟩
  obtain ⟨_, T₂, rfl, ⟨_, P', rfl, ⟨rfl, hsame⟩, hpipes'⟩, hpost⟩ := hpost
  have hmem : ∀ b ∈ T, s'.mem.page b = s.mem.page b :=
    fun b hb => hsame b (Multiset.mem_add.2 (.inr hb))
  have hframe : s'.mem.page frame = s.mem.page frame :=
    hsame frame (Multiset.mem_add.2 (.inl (Multiset.mem_singleton_self _)))
  unfold forkPost at hpost
  split at hpost
  · rename_i h0
    obtain ⟨np, new, frame', g₀, g, d₀, ⟨hchild, hg, hshape⟩, T₁, _, rfl, hspace, rfl, hbytes⟩ :=
      hpost
    have hne : p ≠ np := by
      rintro rfl
      have := hchild.unused
      rw [live] at this
      cases this
    have hproc := hchild.other p hne
    have hp : Runs s' p root frame f u T (P' + T₁ + {frame'} + R) := by
      refine hr.transfer hproc ?_ hmem
      rwa [show T + ({frame} + (P' + T₁ + {frame'} + R)) =
        {frame} + T + P' + (T₁ + {frame'}) + R by ac_rfl]
    have hc : Runs s' np new frame' g u T₁ ({frame} + T + P' + R) := by
      refine ⟨hchild.live, ?_, hchild.sz ▸ hshape, hchild.sz ▸ hspace⟩
      rwa [show T₁ + ({frame'} + ({frame} + T + P' + R)) =
        {frame} + T + P' + (T₁ + {frame'}) + R by ac_rfl]
    have hd : ∀ b ∈ T, b ∉ T₁ := by
      intro b hb hb₁
      have hown' : Own s'.mem (T + (T₁ + ({frame} + P' + {frame'} + R))) := by
        rwa [show T + (T₁ + ({frame} + P' + {frame'} + R)) =
          {frame} + T + P' + (T₁ + {frame'}) + R by ac_rfl]
      exact hown'.not_mem hb (Multiset.mem_add.2 (.inl hb₁))
    exact .inl ⟨h0, hr.same hp hproc hframe, np, hr.forked hp hchild hc hg hd hbytes⟩
  · obtain ⟨⟨h1, hk⟩, hT₂⟩ := hpost
    have hproc : s'.kern.proc p = s.kern.proc p := by
      rcases hk with hk | ⟨q, hq, hk⟩
      · rw [hk]
      · have hne : p ≠ q := by
          rintro rfl
          rw [live] at hq
          cases hq
        rw [hk, Kern.proc_setProc, if_neg hne]
    have hpages : P' = P := by
      have hsamePipes : s'.kern.pipes = s.kern.pipes := by
        rcases hk with hk | ⟨q, -, hk⟩
        · rw [hk]
        · rw [hk, pipes_setProc]
      rw [hsamePipes] at hpipes'
      exact hpipes'.trans hpipes.symm
    obtain rfl : T₂ = 0 := hT₂
    rw [hpages, add_zero] at hO'
    have hp : Runs s' p root frame f u T (P + R) := by
      refine hr.transfer hproc ?_ hmem
      rwa [show T + ({frame} + (P + R)) = {frame} + T + P + R by ac_rfl]
    refine .inr ⟨h1, hr.same hp hproc hframe, fun q => ?_, hown.perm hO' (run_first hrun)⟩
    rcases hk with hk | ⟨q', hq', hk⟩
    · exact .inl (by rw [hk])
    · rw [hk, Kern.proc_setProc]
      split
      · rename_i hq
        subst hq
        exact .inr ⟨hq', rfl⟩
      · exact .inl rfl

end

/-- The first process forks. -/
theorem fork_copies_first : ∃ s s', Booted small 0 s ∧ (fork initproc).run step s = .ok (0, s') ∧
    Same initproc s s' ∧ ∃ np, Forked initproc np s s' := by
  have hfirst : firstRuns (fork initproc) (fun _ r _ => decide (r = 0)) = true := by decide +kernel
  obtain ⟨s, r, s', hb, live, hrun, hr⟩ := of_firstRuns hfirst
  obtain rfl := of_decide_eq_true hr
  obtain ⟨r, s'', hrun', h⟩ := fork_copies hb.inv live
  rw [hrun] at hrun'
  cases hrun'
  rcases h with ⟨-, hsame, hforked⟩ | ⟨h, -⟩
  · exact ⟨s, s', hb, hrun, hsame, hforked⟩
  · cases h

end Xv6.Vm
