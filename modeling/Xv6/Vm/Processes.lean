import Xv6.Vm.Load
import Xv6.Vm.Files

/-!
# Processes

What a process owns follows from its entry (`UProc.own`); what all processes own is the product.
Each system call takes the processes and the open pipes to what they own afterwards.
-/

namespace Xv6.Vm

open Lib List Multiset

/-- The page table with `sz` bytes of user memory. -/
def optImage (pagetable : Option Nat) (frame sz : Nat) : Pages :=
  match pagetable with
  | none => 1
  | some root => image root frame (pages sz) false

def UProc.own (x : UProc) : Pages :=
  optCell x.trapframe * optImage x.pagetable (x.trapframe.getD 0) x.sz

@[irreducible]
def Kern.procs (k : Kern) : Pages := ∏ q, (k.proc q).own

/-- What the processes other than `q` own. -/
@[irreducible]
def Kern.others (k : Kern) (q : Slot) : Pages := ∏ r ∈ Finset.univ.erase q, (k.proc r).own

/-- An entry between system calls. -/
inductive UProc.Settled (x : UProc) : Prop
  | unused (state : x.state = .unused) (pagetable : x.pagetable = none)
      (trapframe : x.trapframe = none) (sz : x.sz = 0) (ofile : ∀ fd, x.ofile fd = none)
  | runnable (state : x.state = .runnable) (pagetable : x.pagetable.isSome)
      (trapframe : x.trapframe.isSome)
  | zombie (state : x.state = .zombie) (pagetable : x.pagetable.isSome)
      (trapframe : x.trapframe.isSome) (ofile : ∀ fd, x.ofile fd = none)

section

variable {k k' : Kern} {p q : Slot} {x : UProc}

theorem UProc.Settled.free (h : x.Settled) (hs : x.state = .unused) :
    x.pagetable = none ∧ x.trapframe = none ∧ x.sz = 0 ∧ ∀ fd, x.ofile fd = none := by
  rcases h with ⟨_, hp, ht, hsz, ho⟩ | ⟨hs', _, _⟩ | ⟨hs', _, _, _⟩
  · exact ⟨hp, ht, hsz, ho⟩
  · rw [hs] at hs'; cases hs'
  · rw [hs] at hs'; cases hs'

theorem procs_eq (k : Kern) (q : Slot) : k.procs = (k.proc q).own * k.others q := by
  unfold Kern.procs Kern.others
  exact (Finset.mul_prod_erase Finset.univ (fun r => (k.proc r).own) (Finset.mem_univ q)).symm

theorem others_congr (h : ∀ r, r ≠ q → (k'.proc r).own = (k.proc r).own) :
    k'.others q = k.others q := by
  unfold Kern.others
  exact Finset.prod_congr rfl fun r hr => h r (Finset.ne_of_mem_erase hr)

theorem others_setProc : (k.setProc q x).others q = k.others q :=
  others_congr fun r hr => by rw [Kern.proc_setProc, if_neg hr]

theorem procs_setProc : (k.setProc q x).procs = x.own * k.others q := by
  rw [procs_eq _ q, others_setProc, Kern.proc_setProc_self]

variable {β : Type} {P : Pages} {g : UProc → UProc}

theorem Spec.updateProc {f : Unit → Code β} {Q : β → Kern → Pages}
    (h : Spec (k.setProc q (g (k.proc q))) P (f ()) Q) : Spec k P ((Vm.setProc q g).bind f) Q :=
  .kern (.setKern h)

theorem Spec.setProc {f : Unit → Code β} {Q : β → Kern → Pages}
    (h : Spec (k.setProc q (g x)) P (f ()) Q) :
    Spec (k.setProc q x) P ((Vm.setProc q g).bind f) Q := by
  refine .updateProc ?_
  rw [Kern.proc_setProc_self, Kern.setProc_setProc]
  exact h

theorem Spec.setProc_last {Q : Unit → Kern → Pages}
    (h : P ≤ Q () (k.setProc q (g x))) : Spec (k.setProc q x) P (Vm.setProc q g) Q :=
  Spec.setProc (f := Prog.ret) (.ret h)

theorem Kern.setProc_self (k : Kern) (q : Slot) : k.setProc q (k.proc q) = k := by
  rw [Kern.setProc, Function.update_eq_self]

/-! ## `freeproc` and `allocproc` -/

theorem kfreeOpt_spec {o : Option Nat} : Triple (optCell o) (kfreeOpt o) fun _ => 1 := by
  cases o with
  | none => exact .ret le_rfl
  | some n => exact .kfree

/-- An entry as `freeproc` leaves it. -/
def UProc.freed (x : UProc) : UProc := { UProc.zero with ofile := x.ofile }

theorem freeproc_spec : Spec (k.setProc q x) x.own (freeproc q)
    fun _ k' => .given (k' = k.setProc q x.freed) 1 := by
  refine .kern ?_
  rw [Kern.proc_setProc_self]
  refine .mem (x := kfreeOpt x.trapframe) kfreeOpt_spec.frame fun _ => ?_
  rw [one_mul]
  have hend : Spec (k.setProc q x) 1 (setProc q UProc.freed) fun _ k' =>
      .given (k' = k.setProc q x.freed) 1 :=
    .setProc_last fun T pt h => ⟨rfl, h⟩
  cases hroot : x.pagetable with
  | none => exact hend
  | some root => exact .mem procFreepagetable_spec fun _ => hend

/-- What `allocproc` leaves: a process without user memory, or no change but to a free entry. -/
def allocPost (k : Kern) : Option Slot → Kern → Pages
  | none, k' => .given (k' = k ∨ ∃ q, (k.proc q).state = .unused ∧
      k' = k.setProc q (k.proc q).freed) 1
  | some q, k' => .ex fun frame => .ex fun root => .given ((k.proc q).state = .unused ∧
      k' = k.setProc q { k.proc q with
        state := .used, trapframe := some frame, pagetable := some root })
      (image root frame 0 true * .cell frame)

theorem allocproc_spec (h : ∀ q, (k.proc q).Settled) : Spec k 1 allocproc (allocPost k) := by
  refine .kern ?_
  cases hq : k.unused with
  | none => exact .ret fun T pt h => ⟨.inl rfl, h⟩
  | some q =>
    have hstate : (k.proc q).state = .unused := by simpa [Kern.unused] using find?_some hq
    obtain ⟨hpt, htf, -, -⟩ := (h q).free hstate
    refine .kern (.setKern (.mem (x := kalloc) kalloc_spec fun r => ?_))
    cases r with
    | none =>
      have hown : ({ k.proc q with state := .used } : UProc).own = 1 := by
        rw [UProc.own, htf, hpt]
        exact mul_one 1
      rw [optCell, ← hown]
      exact freeproc_spec.bind fun _ k' => .given
        fun hk' => .ret fun T pt h => ⟨.inr ⟨q, hstate, hk'⟩, h⟩
    | some frame =>
      refine .setProc (.mem (x := procPagetable frame) procPagetable_spec.frame_one fun r => ?_)
      cases r with
      | none =>
        have hown : ({ k.proc q with state := .used, trapframe := some frame } : UProc).own =
            .cell frame := by
          rw [UProc.own, hpt]
          exact mul_one _
        rw [newImage, one_mul, optCell, ← hown]
        exact freeproc_spec.bind fun _ k' => .given
          fun hk' => .ret fun T pt h => ⟨.inr ⟨q, hstate, hk'⟩, h⟩
      | some root => exact .setProc (.ret fun T pt h => ⟨frame, root, ⟨hstate, rfl⟩, h⟩)

/-! ## Between system calls -/

/-- Processes and files between system calls. -/
structure Between (k : Kern) : Prop where
  settled : ∀ q, (k.proc q).Settled
  files : Files k k.descriptors

/-- What processes and pipes own between system calls. -/
def Kern.all (k : Kern) : Pages := .given (Between k) (k.procs * k.pipes)

theorem files_setProc (h : Files k k.descriptors) (ho : x.ofile = (k.proc p).ofile) :
    Files (k.setProc p x) (k.setProc p x).descriptors := by
  have hd : (k.setProc p x).descriptors = k.descriptors := descriptors_of_ofile fun q => by
    rw [Kern.proc_setProc]
    split
    · rename_i hq
      rw [hq, ho]
    · rfl
  rw [hd]
  exact h.congr rfl rfl

theorem Between.setProc (h : Between k) (hx : x.Settled) (ho : x.ofile = (k.proc p).ofile) :
    Between (k.setProc p x) := by
  refine ⟨fun q => ?_, files_setProc h.files ho⟩
  rw [Kern.proc_setProc]
  split
  · exact hx
  · exact h.settled q

theorem pipes_setProc : (k.setProc p x).pipes = k.pipes := pipes_congr fun _ _ => Iff.rfl

theorem all_setProc (h : Between k) (hx : x.Settled) (ho : x.ofile = (k.proc p).ofile) :
    x.own * (k.others p * k.pipes) ≤ (k.setProc p x).all := by
  refine fun T pt hT => ⟨h.setProc hx ho, ?_⟩
  rw [procs_setProc, pipes_setProc, mul_assoc]
  exact hT

theorem own_congr {y : UProc} (hp : y.pagetable = x.pagetable) (ht : y.trapframe = x.trapframe)
    (hs : y.sz = x.sz) : y.own = x.own := by
  rw [UProc.own, UProc.own, hp, ht, hs]

/-- A process that may call. -/
structure UProc.Live (x : UProc) (root frame : Nat) : Prop where
  state : x.state = .runnable
  pagetable : x.pagetable = some root
  trapframe : x.trapframe = some frame

theorem UProc.Settled.live (h : x.Settled) (hs : x.state = .runnable) :
    ∃ root frame, x.Live root frame := by
  rcases h with ⟨hs', _, _, _, _⟩ | ⟨_, hp, ht⟩ | ⟨hs', _, _, _⟩
  · rw [hs] at hs'; cases hs'
  · obtain ⟨root, hroot⟩ := Option.isSome_iff_exists.1 hp
    obtain ⟨frame, hframe⟩ := Option.isSome_iff_exists.1 ht
    exact ⟨root, frame, hs, hroot, hframe⟩
  · rw [hs] at hs'; cases hs'

variable {root frame : Nat}

theorem UProc.Live.own (h : x.Live root frame) :
    x.own = .cell frame * image root frame (pages x.sz) false := by
  rw [UProc.own, h.pagetable, h.trapframe]
  rfl

theorem UProc.Live.settled (h : x.Live root frame) : x.Settled :=
  .runnable h.state (h.pagetable ▸ rfl) (h.trapframe ▸ rfl)

def UProc.withImage (x : UProc) (root sz : Nat) : UProc := { x with pagetable := some root, sz }

variable {new sz : Nat}

theorem UProc.Live.withImage (h : x.Live root frame) : (x.withImage new sz).Live new frame :=
  ⟨h.state, rfl, h.trapframe⟩

theorem UProc.Live.withImage_self (h : x.Live root frame) : x.withImage root x.sz = x := by
  rw [UProc.withImage, ← h.pagetable]

/-- The process `p` has got another page table or size. -/
def imagePost (p : Slot) (k k' : Kern) : Pages := .ex fun root => .ex fun sz =>
  .given (k' = k.setProc p ((k.proc p).withImage root sz)) ((k.proc p).withImage root sz).own

theorem UProc.Live.unchanged (h : (k.proc p).Live root frame) :
    (k.proc p).own ≤ imagePost p k k := by
  refine fun T pt hT => ⟨root, (k.proc p).sz, ?_, ?_⟩
  · rw [h.withImage_self, k.setProc_self]
  · rwa [h.withImage_self]

theorem UProc.Live.changed (h : (k.proc p).Live root frame) :
    .cell frame * image new frame (pages sz) false ≤
      imagePost p k (k.setProc p ((k.proc p).withImage new sz)) := by
  refine fun T pt hT => ⟨new, sz, rfl, ?_⟩
  rw [h.withImage.own]
  exact hT

/-! ## `sbrk` -/

theorem growproc_spec {n : Int} (h : (k.proc p).Live root frame) :
    Spec k (k.proc p).own (growproc p n) fun _ => imagePost p k := by
  have hlt : ∀ m T R, Own m (T + R) → (k.proc p).own.holds T m.page → (k.proc p).sz < 2 ^ 32 := by
    intro m T R _ hT
    rw [h.own] at hT
    obtain ⟨_, _, -, -, f, hs, -⟩ := hT
    have := hs.le
    have : stopPage - kernPage = 2 ^ 15 := by decide
    simp only [pages, PGSIZE] at *
    omega
  refine .of_own hlt fun hsz => .kern ?_
  show Spec k _ (match (k.proc p).pagetable with
    | none => _
    | some root => _) _
  rw [h.pagetable]
  show Spec k _ (if 0 < n then _ else if n < 0 then _ else _) _
  have hnew : (((((k.proc p).sz % 2 ^ 32 : Nat) : Int) + n) % 2 ^ 32).toNat < 2 ^ 32 := by omega
  rw [Nat.mod_eq_of_lt hsz] at *
  generalize ((((k.proc p).sz : Int) + n) % 2 ^ 32).toNat = newsz at *
  have hset (sz : Nat) : Spec k (.cell frame * image root frame (pages sz) false)
      (do setProc p fun x => { x with sz }; pure (0 : Int)) fun _ => imagePost p k := by
    have hx : ({ k.proc p with sz } : UProc) = (k.proc p).withImage root sz := by
      rw [UProc.withImage, ← h.pagetable]
    refine .kern (.setKern (.ret (h.changed.trans_eq ?_)))
    exact congrArg (fun y => imagePost p k (k.setProc p y)) hx.symm
  rw [h.own]
  split
  · refine .mem (uvmalloc_spec _ _ _ _ _).frame_left fun r => .mul_given fun hr => ?_
    show Spec k _ (if r % 2 ^ 32 = 0 then _ else _) _
    have hmod : r % 2 ^ 32 = r := Nat.mod_eq_of_lt (by omega)
    rw [hmod]
    split
    · rw [← h.own]
      exact .ret h.unchanged
    · exact hset r
  · split
    · refine .mem (uvmdealloc_spec _ _ _ _ _).frame_left fun r => .mul_given fun hr => ?_
      have hmod : r % 2 ^ 32 = r := Nat.mod_eq_of_lt (by omega)
      rw [hmod]
      exact hset r
    · exact hset _

/-! ## `exec` -/

variable {args : List Bool} {taken : List Nat}

/-- What `sys_exec` has allocated; if it goes on, it has fetched every argument, and they fit in
`argv`. -/
theorem fetchArgs_all :
    Triple (.cells taken) (fetchArgs args taken) fun r => .given (r.2 = true →
      (∀ fetched ∈ args, fetched = true) ∧ taken.length + args.length < MAXARG) (.cells r.1) := by
  induction args generalizing taken with
  | nil => exact .ret fun T c h => ⟨fun hok => ⟨nofun, of_decide_eq_true hok⟩, h⟩
  | cons fetched args ih =>
    unfold fetchArgs
    split
    · exact .ret fun T c h => ⟨by simp, h⟩
    refine kalloc_spec.frame_one.bind fun r => ?_
    cases r with
    | none =>
      rw [optCell, one_mul]
      exact .ret fun T c h => ⟨by simp, h⟩
    | some n =>
      have hmore : optCell (some n) * .cells taken =
          .cells ((taken ++ [n] : List Nat) : Multiset Nat) := by
        rw [← coe_add, coe_singleton, add_comm, singleton_add, Asrt.cells_cons]
        rfl
      rw [hmore]
      cases fetched with
      | false => exact .ret fun T c h => ⟨by simp, h⟩
      | true =>
        refine ih.conseq le_rfl fun r T c h => ⟨fun hr => ?_, h.2⟩
        obtain ⟨hall, hlen⟩ := h.1 hr
        rw [length_append, length_singleton] at hlen
        refine ⟨forall_mem_cons.2 ⟨rfl, hall⟩, ?_⟩
        rw [length_cons]
        omega

theorem freeArgs_spec : Triple (.cells taken) (freeArgs taken) fun _ => 1 := by
  induction taken with
  | nil => exact .ret fun _ _ h => h
  | cons n taken ih =>
    rw [← cons_coe, Asrt.cells_cons]
    refine Triple.kfree.frame.bind fun _ => ?_
    rw [one_mul]
    exact ih

/-- The process gets the new image, and the old one is freed. -/
theorem commit_spec {new sz entry sp : Nat} (h : (k.proc p).Live root frame) :
    Spec k (image new frame (pages sz) false * (k.proc p).own)
    (commit p frame root (k.proc p).sz new sz entry sp)
      fun _ k' => imagePost p k k' := by
  rw [h.own, ← mul_assoc, mul_comm _ (Asrt.cell frame), mul_assoc]
  refine .mem Triple.fill_cell.frame fun _ => .updateProc ?_
  refine .mem Triple.fill_cell.frame fun _ => .mem Triple.fill_cell.frame fun _ => ?_
  rw [← mul_assoc, mul_comm]
  refine (procFreepagetable_spec.frame _).conseq le_rfl fun _ k' => ?_
  rw [one_mul]
  rintro T c ⟨rfl, hT⟩
  exact h.changed T c hT

/-- What `exec` leaves: all that was there if it gives up, or another image of the process. -/
def execPost (p : Slot) (k : Kern) (P : Pages) (argc : Nat) (r : Int) (k' : Kern) : Pages :=
  if r = -1 then .given (k' = k) P else .given (r = argc) (imagePost p k k')

theorem execPost_failed {argc : Nat} : Spec k P (.ret (-1)) (execPost p k P argc) :=
  .ret fun _ _ hT => ⟨rfl, hT⟩

theorem UProc.Live.execPost {argc : Nat} {r : Int} {k' : Kern} (h : (k.proc p).Live root frame) :
    execPost p k (k.proc p).own argc r k' ≤ .given (r = -1 ∨ r = argc) (imagePost p k k') := by
  intro T c hT
  rw [Vm.execPost] at hT
  split at hT
  · rename_i hr
    obtain ⟨rfl, hT⟩ := hT
    exact ⟨.inl hr, h.unchanged T c hT⟩
  · exact ⟨.inr hT.1, hT.2⟩

theorem exec_spec {file : Option (List UInt8)} {argv : List (List UInt8)}
    (h : (k.proc p).Live root frame) (hargc : argv.length < MAXARG) (hP : P ≤ (k.proc p).own) :
    Spec k P (exec p file argv) (execPost p k P argv.length) := by
  cases file with
  | none => exact execPost_failed
  | some file =>
    rw [exec]
    dsimp only
    split
    · exact execPost_failed
    split
    · exact execPost_failed
    refine .kern ?_
    rw [h.trapframe, h.pagetable]
    refine .mem (x := procPagetable frame) procPagetable_spec.frame_one fun r => ?_
    cases r with
    | none =>
      rw [newImage, one_mul]
      exact execPost_failed
    | some new =>
      refine .mem (x := loadImage new file _ argv) (loadImage_image hargc).frame fun r =>
        .given_mul fun hr => ?_
      obtain ⟨sz, r⟩ := r
      cases r with
      | some x =>
        obtain ⟨argc, sp⟩ := x
        obtain rfl := hr _ rfl
        refine ((commit_spec h).conseq (mul_le_mul_right hP _) fun _ _ => le_rfl).bind
          fun _ _ => .ret ?_
        rw [execPost, if_neg (by omega)]
        exact fun T c hT => ⟨rfl, hT⟩
      | none =>
        refine .mem (x := procFreepagetable new sz) procFreepagetable_spec.frame fun _ => ?_
        rw [one_mul]
        exact execPost_failed

theorem sysExec_spec (file : Option (List UInt8)) (args : List (Option (List UInt8)))
    (h : (k.proc p).Live root frame) (hP : P ≤ (k.proc p).own) :
    Spec k P (sysExec p file args) (execPost p k P (args.filterMap id).length) := by
  refine .mem fetchArgs_all.frame_one fun r => .given_mul fun hr => ?_
  obtain ⟨taken, ok⟩ := r
  cases ok with
  | true =>
    obtain ⟨hall, hlen⟩ := hr rfl
    show Spec k (.cells taken * _) _ _
    rw [mul_comm]
    refine (exec_spec h ?_ hP).frame.bind fun ret k' => ?_
    · rw [length_map, length_nil, Nat.zero_add] at hlen
      exact (length_filterMap_le _ _).trans_lt hlen
    rw [mul_comm]
    refine .mem freeArgs_spec.frame fun _ => .ret ?_
    rw [one_mul]
  | false =>
    refine .mem freeArgs_spec.frame fun _ => ?_
    rw [one_mul]
    exact execPost_failed

/-! ## `fork` -/

theorem UProc.freed_settled (h : ∀ fd, x.ofile fd = none) : x.freed.Settled :=
  .unused rfl rfl rfl rfl h

theorem UProc.freed_own : x.freed.own = 1 := mul_one 1

theorem UProc.Settled.own_free (h : x.Settled) (hs : x.state = .unused) : x.own = 1 := by
  obtain ⟨hp, ht, -, -⟩ := h.free hs
  rw [UProc.own, hp, ht]
  exact mul_one 1

theorem procs_free (h : Between k) (hq : (k.proc q).state = .unused) : k.procs = k.others q := by
  rw [procs_eq k q, (h.settled q).own_free hq, one_mul]

theorem all_freed (h : Between k) (hq : (k.proc q).state = .unused)
    (ho : x.ofile = (k.proc q).ofile) :
    k.procs * k.pipes ≤ (k.setProc q x.freed).all := by
  have hnone := ((h.settled q).free hq).2.2.2
  have := all_setProc (p := q) h (UProc.freed_settled (x := x) (ho ▸ hnone)) ho
  rwa [UProc.freed_own, one_mul, ← procs_free h hq] at this

/-- The end of `fork`: the child gets the files of its parent. -/
theorem forkFiles_spec {np : Slot} (h : Between k) (hnp : (k.proc np).state = .unused)
    (hxp : x.pagetable.isSome) (hxt : x.trapframe.isSome) (hxo : x.ofile = (k.proc np).ofile) :
    Spec (k.setProc np x) (x.own * (k.procs * k.pipes)) (do
      dupFiles p np (finRange NOFILE)
      setProc np fun x => { x with parent := some p, state := .runnable }
      pure (0 : Int)) fun _ => Kern.all := by
  have hfiles := files_setProc h.files hxo
  have hfree : ∀ fd ∈ finRange NOFILE, ((k.setProc np x).proc np).ofile fd = none := fun fd _ => by
    rw [Kern.proc_setProc_self, hxo]
    exact ((h.settled np).free hnp).2.2.2 fd
  rw [← pipes_setProc (p := np) (x := x), ← mul_assoc, mul_comm]
  refine (dupFiles_spec hfiles hfree (nodup_finRange _)).frame.bind fun _ k₁ =>
    .given_mul fun ⟨hf, hs⟩ => ?_
  obtain ⟨o, ho⟩ := hs.self
  rw [Kern.proc_setProc_self] at ho
  have hother : ∀ q, q ≠ np → k₁.proc q = k.proc q := fun q hq => by
    rw [hs.other q hq, Kern.proc_setProc, if_neg hq]
  refine .kern (.setKern (.ret fun T pt hT => ⟨⟨fun q => ?_, files_setProc hf rfl⟩, ?_⟩))
  · rw [Kern.proc_setProc]
    split
    · rw [ho]
      exact .runnable rfl hxp hxt
    · rename_i hq
      rw [hother q hq]
      exact h.settled q
  · have hown : ({ k₁.proc np with parent := some p, state := .runnable } : UProc).own = x.own := by
      rw [ho]
      exact own_congr rfl rfl rfl
    have hrest : k₁.others np = k.others np := others_congr fun r hr => by rw [hother r hr]
    rw [procs_setProc, pipes_setProc, hown, hrest, ← procs_free h hnp, mul_comm]
    exact hT

theorem copyTrapframe_spec {src : Option Nat} {dst : Nat} :
    Triple (.cell dst) (copyTrapframe src (some dst)) fun _ => .cell dst := by
  cases src with
  | none => exact .ret le_rfl
  | some src => exact Triple.move_cell.bind fun _ => .fill_cell

theorem fork_spec (h : Between k) (hp : (k.proc p).Live root frame) :
    Spec k (k.procs * k.pipes) (fork p) fun _ => Kern.all := by
  refine ((allocproc_spec h.settled).frame.conseq
    (one_mul _).ge fun _ _ => le_rfl).bind fun r k₁ => ?_
  cases r with
  | none =>
    refine .given_mul fun hk₁ => .ret ?_
    rw [one_mul]
    rcases hk₁ with rfl | ⟨q, hq, rfl⟩
    · exact fun T pt hT => ⟨h, hT⟩
    · exact all_freed h hq rfl
  | some np =>
    rw [allocPost, Asrt.ex_mul]
    refine .ex fun frame' => ?_
    rw [Asrt.ex_mul]
    refine .ex fun new => .given_mul fun ⟨hnp, hk₁⟩ => ?_
    have hne : p ≠ np := fun e => by
      rw [← e, hp.state] at hnp
      cases hnp
    obtain ⟨-, -, hsz, hofile⟩ := (h.settled np).free hnp
    subst hk₁
    -- the new process
    generalize hx : ({ k.proc np with
      state := .used, trapframe := some frame', pagetable := some new } : UProc) = x
    have hxp : x.pagetable = some new := hx ▸ rfl
    have hxt : x.trapframe = some frame' := hx ▸ rfl
    have hxs : x.sz = 0 := hx ▸ hsz
    have hxo : x.ofile = (k.proc np).ofile := hx ▸ rfl
    have hstart : image new frame' 0 true * .cell frame' * (k.procs * k.pipes) ≤
        (image root frame (pages (k.proc p).sz) false * image new frame' 0 false) *
          (.cell frame * .cell frame' * (k.others p * k.pipes)) := by
      rw [procs_eq k p, hp.own]
      calc _ ≤ image new frame' 0 false * .cell frame' * (.cell frame *
            image root frame (pages (k.proc p).sz) false * k.others p * k.pipes) :=
            mul_le_mul' (mul_le_mul' image_weaken le_rfl) le_rfl
        _ = _ := by ac_rfl
    have hend (n : Nat) :
        (image root frame (pages (k.proc p).sz) false * image new frame' n false) *
        (.cell frame * .cell frame' * (k.others p * k.pipes)) =
          (.cell frame' * image new frame' n false) * (k.procs * k.pipes) := by
      rw [procs_eq k p, hp.own]
      ac_rfl
    have hproc : (k.setProc np x).proc p = k.proc p := by rw [Kern.proc_setProc, if_neg hne]
    refine .kern ?_
    rw [hproc, Kern.proc_setProc_self, hp.pagetable, hxp, hxt]
    refine .mem (x := uvmcopy root new (k.proc p).sz)
      (uvmcopy_spec.frame.conseq hstart fun _ => le_rfl) fun ok => ?_
    rw [hend]
    cases ok with
    | false =>
      have hown : .cell frame' * image new frame' 0 false = x.own := by
        rw [UProc.own, hxp, hxt, hxs]
        rfl
      show Spec _ (.cell frame' * image new frame' 0 false * _) _ _
      rw [hown]
      refine freeproc_spec.frame.bind fun _ k' => .given_mul fun hk' => .ret ?_
      rw [one_mul, hk']
      exact all_freed h hnp hxo
    | true =>
      have hown : .cell frame' * image new frame' (pages (k.proc p).sz) false =
          ({ x with sz := (k.proc p).sz } : UProc).own := by
        rw [UProc.own, hxp, hxt]
        rfl
      rw [if_pos rfl, if_pos rfl]
      refine .setProc
        (.mem (copyTrapframe_spec.frame.conseq (mul_assoc ..).le fun _ => le_rfl) fun _ => ?_)
      rw [← mul_assoc]
      show Spec _ (.cell frame' * _ * _) _ _
      rw [hown]
      exact forkFiles_spec h hnp (hxp ▸ rfl) (hxt ▸ rfl) hxo

/-! ## `exit`, `wait` and the calls of files -/

theorem procs_congr (h : ∀ q, (k'.proc q).own = (k.proc q).own) : k'.procs = k.procs := by
  unfold Kern.procs
  exact Finset.prod_congr rfl fun q _ => h q

theorem FdStep.own (h : FdStep p k k') (q : Slot) : (k'.proc q).own = (k.proc q).own := by
  rcases eq_or_ne q p with rfl | hq
  · obtain ⟨o, ho⟩ := h.self
    rw [ho]
    exact own_congr rfl rfl rfl
  · rw [h.other q hq]

theorem FdStep.live (h : FdStep p k k') (hp : (k.proc p).Live root frame) :
    (k'.proc p).Live root frame := by
  obtain ⟨o, ho⟩ := h.self
  rw [ho]
  exact ⟨hp.state, hp.pagetable, hp.trapframe⟩

theorem Between.fdStep (h : Between k) (hp : (k.proc p).Live root frame)
    (hf : Files k' k'.descriptors) (hs : FdStep p k k') : Between k' := by
  refine ⟨fun q => ?_, hf⟩
  rcases eq_or_ne q p with rfl | hq
  · exact (hs.live hp).settled
  · rw [hs.other q hq]
    exact h.settled q

theorem all_filesPost (h : Between k) (hp : (k.proc p).Live root frame) :
    filesPost p k k' * k.procs ≤ k'.all := by
  rintro T pt ⟨T₁, T₂, rfl, ⟨⟨hf, hs⟩, h₁⟩, h₂⟩
  refine ⟨h.fdStep hp hf hs, T₂, T₁, add_comm .., ?_, h₁⟩
  rwa [procs_congr hs.own]

theorem all_restate (h : Between k) (hx : x.Settled) (ho : x.ofile = (k.proc p).ofile)
    (hown : x.own = (k.proc p).own) : k.procs * k.pipes ≤ (k.setProc p x).all := by
  rw [procs_eq k p, mul_assoc, ← hown]
  exact all_setProc h hx ho

theorem ofile_reparent (q : Slot) : ((k.reparent p).proc q).ofile = (k.proc q).ofile := by
  show (if _ then _ else _ : UProc).ofile = _
  split <;> rfl

theorem own_reparent (q : Slot) : ((k.reparent p).proc q).own = (k.proc q).own := by
  show (if _ then _ else _ : UProc).own = _
  split
  · exact own_congr rfl rfl rfl
  · rfl

theorem settled_reparent (h : (k.proc q).Settled) : ((k.reparent p).proc q).Settled := by
  show (if _ then _ else _ : UProc).Settled
  split
  · rcases h with ⟨hs, hp, ht, hsz, ho⟩ | ⟨hs, hp, ht⟩ | ⟨hs, hp, ht, ho⟩
    · exact .unused hs hp ht hsz ho
    · exact .runnable hs hp ht
    · exact .zombie hs hp ht ho
  · exact h

theorem live_reparent (h : (k.proc q).Live root frame) :
    ((k.reparent p).proc q).Live root frame := by
  show (if _ then _ else _ : UProc).Live root frame
  split
  · exact ⟨h.state, h.pagetable, h.trapframe⟩
  · exact h

theorem exit_spec (h : Between k) (hp : (k.proc p).Live root frame) (hinit : p ≠ initproc) :
    Spec k (k.procs * k.pipes) (exit p) fun _ => Kern.all := by
  unfold Vm.exit
  split
  · exact absurd ‹_› hinit
  · rw [mul_comm]
    refine (closeFiles_spec h.files).frame.bind fun _ k₁ => .given_mul fun hnone => ?_
    refine .given_mul fun ⟨hf, hs⟩ => ?_
    have h₁ := h.fdStep hp hf hs
    have h₂ : Between (k₁.reparent p) := by
      refine ⟨fun q => settled_reparent (h₁.settled q), ?_⟩
      rw [descriptors_of_ofile ofile_reparent]
      exact h₁.files.congr rfl rfl
    have hprocs : (k₁.reparent p).procs = k.procs :=
      procs_congr fun q => (own_reparent q).trans (hs.own q)
    have hpipes : (k₁.reparent p).pipes = k₁.pipes := pipes_congr fun _ _ => Iff.rfl
    have hp₂ := live_reparent (p := p) (hs.live hp)
    refine .kern (.setKern (.kern (.setKern (.ret ?_))))
    rw [← hprocs, ← hpipes, mul_comm]
    refine all_restate h₂ (.zombie rfl (hp₂.pagetable ▸ rfl) (hp₂.trapframe ▸ rfl) fun fd => ?_) rfl
      (own_congr rfl rfl rfl)
    exact (congrFun (ofile_reparent p) fd).trans (hnone fd (.inl (mem_finRange fd)))

theorem wait_spec {copied : Bool} (h : Between k) :
    Spec k (k.procs * k.pipes) (wait p copied) fun _ => Kern.all := by
  refine .kern ?_
  cases hfind : (finRange NPROC).find? fun q => (k.proc q).parent = some p ∧
    (k.proc q).state = .zombie with
  | none => exact .ret fun T pt hT => ⟨h, hT⟩
  | some q =>
    have hq : (k.proc q).parent = some p ∧ (k.proc q).state = .zombie := by
      simpa using find?_some hfind
    cases copied with
    | false => exact .ret fun T pt hT => ⟨h, hT⟩
    | true =>
      have hfree := freeproc_spec (k := k) (q := q) (x := k.proc q)
      rw [k.setProc_self] at hfree
      have hnone : ∀ fd, (k.proc q).ofile fd = none := by
        rcases h.settled q with ⟨_, _, _, _, ho⟩ | ⟨hs, _, _⟩ | ⟨_, _, _, ho⟩
        · exact ho
        · rw [hq.2] at hs
          cases hs
        · exact ho
      rw [procs_eq k q, mul_assoc]
      refine hfree.frame.bind fun _ k' => .given_mul fun hk' => .ret ?_
      have := all_setProc h (UProc.freed_settled hnone) rfl
      rwa [UProc.freed_own, ← hk'] at this

theorem all_imagePost {k' : Kern} (h : Between k) (hp : (k.proc p).Live root frame) :
    imagePost p k k' * (k.others p * k.pipes) ≤ k'.all := by
  rintro _ pt ⟨T₁, T₂, rfl, ⟨root, sz, hk', h₁⟩, h₂⟩
  rw [hk']
  exact all_setProc h hp.withImage.settled rfl _ pt ⟨T₁, T₂, rfl, h₁, h₂⟩

theorem call_spec {c : Call} (h : Between k) (hp : (k.proc p).state = .runnable)
    (hinit : c = .exit → p ≠ initproc) :
    Spec k (k.procs * k.pipes) (c.code p) fun _ => Kern.all := by
  obtain ⟨root, frame, hp⟩ := (h.settled p).live hp
  have himage {α : Type} {x : Code α} (hx : Spec k (k.proc p).own x fun _ => imagePost p k) :
      Spec k (k.procs * k.pipes) (x.bind fun _ => .ret ()) fun _ => Kern.all := by
    rw [procs_eq k p, mul_assoc]
    exact hx.frame.bind fun _ k' => .ret (all_imagePost h hp)
  have hfiles {α : Type} {x : Code α} (hx : Spec k k.pipes x fun _ => filesPost p k) :
      Spec k (k.procs * k.pipes) (x.bind fun _ => .ret ()) fun _ => Kern.all := by
    rw [mul_comm]
    exact hx.frame.bind fun _ k' => .ret (all_filesPost h hp)
  cases c with
  | fork => exact (fork_spec h hp).bind fun _ k' => .ret le_rfl
  | exec file args =>
    exact himage ((sysExec_spec file args hp le_rfl).conseq le_rfl fun _ _ T c hT =>
      (hp.execPost T c hT).2)
  | sbrk n => exact himage (growproc_spec hp)
  | exit => exact exit_spec h hp (hinit rfl)
  | wait copied => exact (wait_spec h).bind fun _ k' => .ret le_rfl
  | pipe copied => exact hfiles (sysPipe_spec h.files)
  | close fd => exact hfiles (sysClose_spec h.files)

end

end Xv6.Vm
