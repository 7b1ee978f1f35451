import Xv6.Vm.Memory

/-!
# `exec` of any file

Whatever the file holds, whatever the arguments are and whichever calls of `kalloc` fail, `exec`
returns, and a call that fails has changed nothing (`exec_all_or_nothing`).
-/

namespace Xv6.Vm

open Lib List

section

variable {p : Slot} {m : Mem} {boot : Multiset Nat} {s s' : St}

/-- `exec` returns -1 or the number of arguments, without a panic: after boot and any calls, for
every file, all arguments, and whichever calls of `kalloc` fail. -/
theorem exec_survives (hb : Booted m boot s) (hr : Relation.ReflTransGen Step s s')
    (live : (s'.kern.proc p).state = .runnable) (file : Option (List UInt8))
    (args : List (Option (List UInt8))) :
    (sysExec p file args).Wp step (fun _ => False)
      (fun r s'' => (r = -1 ∨ r = (args.filterMap id).length) ∧ Inv boot s'') s' := by
  obtain ⟨T, hO, hbetween, hT⟩ := hb.inv.reach hr
  obtain ⟨root, frame, hp⟩ := (hbetween.settled p).live live
  have hT : (s'.kern.procs * s'.kern.pipes).holds T s'.mem.page := hT
  rw [procs_eq s'.kern p, mul_assoc] at hT
  have hspec := (sysExec_spec file args hp le_rfl).conseq le_rfl fun _ _ => hp.execPost
  refine (hspec.frame s'.mem T boot hO hT).mono fun r s'' hs => ?_
  obtain ⟨-, T', hO', hT'⟩ := hs
  dsimp only at hT'
  rw [Asrt.given_mul] at hT'
  exact ⟨hT'.1, T', hO', all_imagePost hbetween hp T' _ hT'.2⟩

/-- A program of one segment, with four bytes at address 0. -/
def oneSegment : List UInt8 :=
  Bytes.number 4 ELF_MAGIC ++ replicate 28 0 ++ Bytes.number 8 Elfhdr.size ++ replicate 16 0 ++
    Bytes.number 8 1 ++
    -- the program header: where the segment is in the file, its address and its sizes
    Bytes.number 8 ELF_PROG_LOAD ++ Bytes.number 8 (Elfhdr.size + Phdr.size) ++ replicate 16 0 ++
    Bytes.number 8 4 ++ Bytes.number 8 4 ++ replicate 8 0 ++ [0x13, 0x05, 0x00, 0x00]

/-- A first process that executes it with one argument. -/
theorem exec_survives_segment :
    ∃ s s', Booted small 0 s ∧ (s.kern.proc initproc).state = .runnable ∧
    (sysExec initproc (some oneSegment) [some [101]]).run step s = .ok (1, s') ∧ Inv 0 s' := by
  have hfirst : firstRuns (sysExec initproc (some oneSegment) [some [101]])
      (fun _ r _ => decide (r = 1)) = true := by decide +kernel
  obtain ⟨s, r, s', hb, live, hrun, hr⟩ := of_firstRuns hfirst
  obtain rfl := of_decide_eq_true hr
  have hwp := Prog.wp_iff_run.1 (exec_survives hb .refl live (some oneSegment) [some [101]])
  rw [hrun] at hwp
  exact ⟨s, s', hb, live, hrun, hwp.2⟩

/-! ## All or nothing -/

/-- What `exec` of the process `p` leaves of the other processes, and of all if it returns -1. -/
structure AllOrNothing (p : Slot) (s : St) (r : Int) (s' : St) : Prop where
  others : ∀ a ∈ s.mem.ram, a ∉ s.mem.freelist → a ∉ (s.kern.proc p).pages s.mem.pt →
    s'.mem.page a = s.mem.page a
  own : r = -1 → ∀ a ∈ (s.kern.proc p).pages s.mem.pt, s'.mem.page a = s.mem.page a
  kern : r = -1 → s'.kern = s.kern
  free : r = -1 → s'.mem.freelist.Perm s.mem.freelist

theorem exec_all_or_nothing (h : Inv boot s) (live : (s.kern.proc p).state = .runnable)
    (file : Option (List UInt8)) (args : List (Option (List UInt8))) :
    ∃ r s', (sysExec p file args).run step s = .ok (r, s') ∧ AllOrNothing p s r s' := by
  obtain ⟨T, hO, hbetween, hT⟩ := h
  obtain ⟨root, frame, hp⟩ := (hbetween.settled p).live live
  have hT : (s.kern.procs * s.kern.pipes).holds T s.mem.page := hT
  rw [procs_eq s.kern p, mul_assoc] at hT
  obtain ⟨S, R, rfl, hS, -⟩ := hT
  have hpages : S = (s.kern.proc p).pages s.mem.pt := own_pages (c := s.mem.page) hS
  rw [add_assoc] at hO
  have hwp := sysExec_spec file args hp (Asrt.exactly_le hS) s.mem S (R + boot) hO
    ⟨rfl, fun _ _ => rfl⟩
  obtain ⟨r, s', run, hR, T', hO', hpost⟩ := hwp.exists_run
  have failed (hr : r = -1) : s'.kern = s.kern ∧ T' = S ∧
      ∀ a ∈ S, s'.mem.page a = s.mem.page a := by
    rwa [execPost, if_pos hr] at hpost
  refine ⟨r, s', run, fun a ha hfree hown => hR a ?_, fun hr a ha => ?_,
    fun hr => (failed hr).1, fun hr => ?_⟩
  · rw [← hO.cover] at ha
    exact (Multiset.mem_add.1 ((Multiset.mem_add.1 ha).resolve_left hfree)).resolve_left
      (hpages ▸ hown)
  · exact (failed hr).2.2 a (hpages ▸ ha)
  · obtain ⟨-, rfl, -⟩ := failed hr
    exact hO.perm hO' (run_first run)

/-- A first process that executes a file whose segment is cut short: it has allocated pages when it
gives up. -/
theorem exec_all_or_nothing_cut : ∃ s s', Inv 0 s ∧ (s.kern.proc initproc).state = .runnable ∧
    (sysExec initproc (some oneSegment.dropLast) []).run step s = .ok (-1, s') ∧
    s.mem.kallocs + 5 < s'.mem.kallocs ∧ AllOrNothing initproc s (-1) s' := by
  have hfirst : firstRuns (sysExec initproc (some oneSegment.dropLast) [])
      (fun s r s' => decide (r = -1 ∧ s.mem.kallocs + 5 < s'.mem.kallocs)) = true := by
        decide +kernel
  obtain ⟨s, r, s', hb, live, hrun, h⟩ := of_firstRuns hfirst
  obtain ⟨rfl, hkallocs⟩ := of_decide_eq_true h
  obtain ⟨r, s'', hrun', hall⟩ := exec_all_or_nothing hb.inv live (some oneSegment.dropLast) []
  rw [hrun] at hrun'
  cases hrun'
  exact ⟨s, s', hb.inv, live, hrun, hkallocs, hall⟩

end

end Xv6.Vm
