import Xv6.Proc.Calls
import Mathlib.Algebra.Group.Int.Defs
import Mathlib.Algebra.Group.Nat.Defs

/-!
# Pids

`allocpid` hands out `nextpid` and increments it, and never looks whether the number is in use. The
pids of the processes in the table, and those `fork` returns, are distinct and positive as long as
the 32-bit counter has not become negative, whether or not the forks that used them up succeeded.
-/

namespace Xv6.Procs

open Lib Function

/-- The processes in the table have distinct positive pids, and a `fork` that returns here returns
-1 or a positive one. -/
structure PidLaw (c : Config iface St Slot) : Prop where
  distinct : ∀ q r, (c.st.proc q).state ≠ .unused → (c.st.proc r).state ≠ .unused →
    (c.st.proc q).pid = (c.st.proc r).pid → q = r
  positive : ∀ q, (c.st.proc q).state ≠ .unused → 0 < (c.st.proc q).pid.toInt
  fork : ∀ c₀ p memory k r, (system fun _ _ _ => True).Reaches boot c₀ →
    (system fun _ _ _ => True).Returns p k (fork p memory) c₀ r c → r = -1 ∨ 0 < r.toInt

/-- A run to `c` in which `allocpid` was called `n` times. -/
inductive Allocates : (n : Nat) → (c : Config iface St Slot) → Prop
  | boot : Allocates 0 boot
  | other {n : Nat} {c c' : Config iface St Slot} (run : Allocates n c)
      (step : (system fun _ _ _ => True).Step c c') (same : c'.st.nextpid = c.st.nextpid) :
      Allocates n c'
  | allocpid {n : Nat} {c c' : Config iface St Slot} (run : Allocates n c)
      (step : (system fun _ _ _ => True).Step c c') (next : c'.st.nextpid = c.st.nextpid + 1) :
      Allocates (n + 1) c'

theorem Allocates.reaches {n : Nat} {c : Config iface St Slot} (h : Allocates n c) :
    (system fun _ _ _ => True).Reaches Procs.boot c := by
  induction h with
  | boot => exact .refl
  | other _ step _ ih => exact ih.tail step
  | allocpid _ step _ ih => exact ih.tail step

theorem Allocates.core {n : Nat} {c : Config iface St Slot} (h : Allocates n c) : Core c.st :=
  (reaches_good h.reaches).inv.core

/-- What `fork` returns is -1 or the pid of a child. -/
theorem fork_returns {c₀ c : Config iface St Slot} {p : Slot} {memory : Bool}
    {k : BitVec 32 → Code Unit} {r : BitVec 32} (hr : (system fun _ _ _ => True).Reaches boot c₀)
    (ret : (system fun _ _ _ => True).Returns p k (fork p memory) c₀ r c) :
    r = -1 ∨ Forked r c.st := by
  have good := reaches_good hr
  have free : c₀.st.waitLock ≠ some p :=
    good.pre (o := .alloc initproc memory) ret.prog_eq trivial
  exact (good.returns (fun hx _ hi => Call.safe hx hi) ret (fork_safe free)).2

/-- Init keeps its pid, and a child that is new gets `nextpid`. -/
structure Numbers (s s' : St) : Prop where
  init : (s'.proc initproc).pid = (s.proc initproc).pid
  fork : ∀ o i pid, .fork o i pid ∈ s'.hist → .fork o i pid ∈ s.hist ∨
    pid = s.nextpid ∧ i = s.nextId ∧ s'.nextpid = s.nextpid + 1

namespace Numbers

variable {s s' : St} {q : Slot} {x : Proc Chan}

theorem refl (s : St) : Numbers s s := ⟨rfl, fun _ _ _ => .inl⟩

theorem setProc (h : q = initproc → x.pid = (s.proc q).pid) : Numbers s (s.setProc q x) := by
  refine ⟨?_, fun _ _ _ => .inl⟩
  apply St.forall_setProc (P := fun r y => r = initproc → y.pid = (s.proc r).pid) h
    (fun _ _ _ => rfl)
  rfl

theorem record (h : Numbers s s') {e : Event} (he : ∀ o i pid, e ≠ .fork o i pid) :
    Numbers s (s'.record e) := by
  refine ⟨h.init, fun o i pid hf => ?_⟩
  rcases List.mem_cons.1 hf with rfl | hf
  · exact absurd rfl (he o i pid)
  · exact h.fork o i pid hf

theorem relock (h : Numbers s s') (lock : Option Slot) : Numbers s { s' with waitLock := lock } :=
  ⟨h.init, h.fork⟩

/-- What every operation does to the pids. Init is never freed. -/
theorem of_exec {p : Slot} {o : Op} {r : iface.Res o} (hc : Core s)
    (he : exec p o s = .ok (r, s')) :
    Numbers s s' := by
  obtain ⟨_, he⟩ := exec_ok he
  cases o with
  | acquire =>
    simp only [Procs.step] at he
    split at he
    · cases he; exact (refl s).relock _
    · split at he <;> cases he
  | release =>
    simp only [Procs.step] at he
    split at he <;> cases he
    exact (refl s).relock _
  | alloc q memory =>
    simp only [Procs.step] at he
    split at he
    · rename_i hq
      have hq : q ≠ initproc := hc.ne_init (by rw [hq]; rfl)
      split at he <;> cases he
      · refine ⟨by simp [St.allocate, hq.symm], fun o i pid hf => ?_⟩
        rcases List.mem_cons.1 hf with hf | hf
        · cases hf
          exact .inr ⟨rfl, rfl, rfl⟩
        · exact .inl hf
      · exact ⟨(setProc fun h => absurd h hq).init, fun _ _ _ => .inl⟩
    · cases he; exact refl s
  | parent | killed => cases he; exact refl s
  | setParent | setRunnable | sleep | awake => cases he; exact setProc fun _ => rfl
  | wakeup q chan =>
    cases he
    show Numbers s (if q = p then s else _)
    split
    · exact refl s
    · refine setProc fun _ => ?_
      unfold Proc.wakeup
      split <;> rfl
  | zombie status =>
    simp only [Procs.step] at he
    split at he <;> cases he
    exact ((setProc fun _ => by rfl).record (e := .exit _ _ status) (by simp)).relock none
  | reap q addr =>
    simp only [Procs.step] at he
    split at he
    · rename_i hq
      split at he <;> cases he
      · exact refl s
      · have hz : Numbers s (s.setProc q .zero) :=
          setProc fun h => absurd h (hc.ne_init (by rw [hq]; rfl))
        have hr :=
          hz.record (e := .reap (s.id p) (s.id q) (s.proc q).pid (s.proc q).xstate) (by simp)
        exact ⟨hr.init, hr.fork⟩
    · cases he; exact refl s
  | waitFailed addr =>
    simp only [Procs.step] at he
    split at he <;> cases he
    exact ((refl s).record (e := .waitFailed _ addr _ _) (by simp)).relock none
  | sleepWait =>
    simp only [Procs.step] at he
    split at he <;> cases he
    exact (setProc fun _ => by rfl).relock none
  | kill q pid =>
    simp only [Procs.step] at he
    split at he <;> cases he
    · exact (setProc fun _ => by rfl).record (by simp)
    · exact refl s
  | fault => cases he; exact (setProc fun _ => by rfl).record (by simp)
  | panicInit | stop => cases he

theorem of_step {c c' : Config iface St Slot} (hc : Core c.st)
    (h : (system fun _ _ _ => True).Step c c') : Numbers c.st c'.st := by
  cases h with
  | op _ _ he => exact of_exec hc he
  | start => exact refl _
  | env he =>
    obtain ⟨q, x, hx, rfl⟩ := he
    cases hx <;> exact setProc fun _ => rfl

end Numbers

/-- After `n` calls of `allocpid` the pids below `n + 2` are used up, each by one process at most.
-/
structure Numbered (n : Nat) (s : St) : Prop where
  nextpid : s.nextpid = BitVec.ofNat 32 (n + 2)
  init : (s.proc initproc).pid = 1
  fork : ∀ o i pid, .fork o i pid ∈ s.hist → ∃ k, 1 < k ∧ k < n + 2 ∧ pid = BitVec.ofNat 32 k
  inj : ∀ o i pid o' i', .fork o i pid ∈ s.hist → .fork o' i' pid ∈ s.hist → i = i'

namespace Numbered

variable {n : Nat} {s s' : St}

theorem other (h : Numbered n s) (hs : Numbers s s') (same : s'.nextpid = s.nextpid) :
    Numbered n s' := by
  have old : ∀ o i pid, .fork o i pid ∈ s'.hist → .fork o i pid ∈ s.hist := by
    intro o i pid hf
    rcases hs.fork o i pid hf with hf | ⟨_, _, hn⟩
    · exact hf
    · have := same.symm.trans hn
      grind
  exact ⟨same.trans h.nextpid, hs.init.trans h.init,
    fun o i pid hf => h.fork o i pid (old o i pid hf),
    fun o i pid o' i' hf hf' => h.inj o i pid o' i' (old _ _ _ hf) (old _ _ _ hf')⟩

theorem allocpid (h : Numbered n s) (hs : Numbers s s') (next : s'.nextpid = s.nextpid + 1)
    (hn : n + 2 < 2 ^ 32) : Numbered (n + 1) s' := by
  -- the number that is new differs from those used before
  have fresh : ∀ {o i}, .fork o i s.nextpid ∉ s.hist := by
    intro o i hf
    obtain ⟨k, _, hk, he⟩ := h.fork o i _ hf
    have := congrArg BitVec.toNat (h.nextpid.symm.trans he)
    simp only [BitVec.toNat_ofNat] at this
    omega
  refine ⟨?_, hs.init.trans h.init, fun o i pid hf => ?_, fun o i pid o' i' hf hf' => ?_⟩
  · rw [next, h.nextpid]
    exact (BitVec.ofNat_add ..).symm
  · rcases hs.fork o i pid hf with hf | ⟨rfl, _, _⟩
    · obtain ⟨k, hk, hkn, rfl⟩ := h.fork o i pid hf
      exact ⟨k, hk, by omega, rfl⟩
    · exact ⟨n + 2, by omega, by omega, h.nextpid⟩
  · rcases hs.fork o i pid hf with hf | ⟨rfl, rfl, _⟩
    · rcases hs.fork o' i' pid hf' with hf' | ⟨rfl, _, _⟩
      · exact h.inj o i pid o' i' hf hf'
      · exact absurd hf fresh
    · rcases hs.fork o' i' _ hf' with hf' | ⟨_, rfl, _⟩
      · exact absurd hf' fresh
      · rfl

theorem of_run {c : Config iface St Slot} (h : Allocates n c) (hn : n < 2 ^ 31 - 1) :
    Numbered n c.st := by
  induction h with
  | boot => exact ⟨rfl, rfl, nofun, nofun⟩
  | other run step same ih => exact (ih hn).other (.of_step run.core step) same
  | allocpid run step next ih =>
    exact (ih (by omega)).allocpid (.of_step run.core step) next (by omega)

theorem positive {k : Nat} (hk : 0 < k) (hn : k < 2 ^ 31) : 0 < (BitVec.ofNat 32 k).toInt := by
  rw [BitVec.toInt_eq_toNat_of_lt] <;> simp only [BitVec.toNat_ofNat] <;> omega

/-- Each process in the table but init was forked. -/
theorem pidLaw {c : Config iface St Slot} (run : Allocates n c) (hn : n < 2 ^ 31 - 1) :
    PidLaw c := by
  have h := of_run run hn
  have hc := run.core
  have born : ∀ q, (c.st.proc q).state ≠ .unused →
      (q = initproc ∧ (c.st.proc q).pid = 1) ∨
      ∃ o k, .fork o (c.st.id q) (c.st.proc q).pid ∈ c.st.hist ∧ 1 < k ∧ k < n + 2 ∧
        (c.st.proc q).pid = BitVec.ofNat 32 k := by
    intro q hq
    rcases eq_or_ne q initproc with rfl | hi
    · exact .inl ⟨rfl, h.init⟩
    · obtain ⟨o, hf⟩ := (hc.entry q).born hi hq
      obtain ⟨k, hk⟩ := h.fork _ _ _ hf
      exact .inr ⟨o, k, hf, hk⟩
  have one : ∀ {k}, 1 < k → k < n + 2 → BitVec.ofNat 32 k ≠ 1 := by
    intro k hk hkn he
    have := congrArg BitVec.toNat he
    rw [BitVec.toNat_ofNat, show (1 : BitVec 32).toNat = 1 from rfl] at this
    omega
  refine ⟨fun q r hq hr hp => ?_, fun q hq => ?_, fun c₀ p memory k r hr ret => ?_⟩
  · rcases born q hq with ⟨rfl, hq1⟩ | ⟨o, k, hf, hk, hkn, hpk⟩
    · rcases born r hr with ⟨rfl, _⟩ | ⟨o, k, _, hk, hkn, hpk⟩
      · rfl
      · exact absurd (hpk.symm.trans (hp.symm.trans hq1)) (one hk hkn)
    · rcases born r hr with ⟨rfl, hr1⟩ | ⟨o', k', hf', _, _, _⟩
      · exact absurd (hpk.symm.trans (hp.trans hr1)) (one hk hkn)
      · rw [hp] at hf
        exact hc.inj q r hq hr (h.inj _ _ _ _ _ hf hf')
  · rcases born q hq with ⟨rfl, hq1⟩ | ⟨o, k, _, hk, hkn, hpk⟩
    · rw [hq1]
      decide
    · rw [hpk]
      exact positive (by omega) (by omega)
  · refine (fork_returns hr ret).imp_right ?_
    rintro ⟨o, i, hf⟩
    obtain ⟨k, hk, hkn, rfl⟩ := h.fork o i r hf
    exact positive (by omega) (by omega)

end Numbered

section

variable {n : Nat} {c : Config iface St Slot}

/-- Init, running, calls `fork`, which finds entry 0 taken and entry 1 free. -/
theorem Allocates.fork (h : Allocates n c) (idle : c.prog initproc = .ret ())
    (running : (c.st.proc initproc).state = .running) (free : (c.st.proc slot1).state = .unused)
    (memory : Bool) :
    ∃ k : Alloc → Code Unit, k .failed = .ret () ∧
      ∀ r s', Procs.step initproc (.alloc slot1 memory) c.st = .ok (r, s') →
        Allocates (n + 1) ⟨s', update c.prog initproc (k r)⟩ := by
  have run : ∀ o, exec initproc o c.st = Procs.step initproc o c.st := fun _ => if_pos running
  obtain ⟨k₁, k₂, hk₁, hk₂, hk⟩ : ∃ (k₁ k₂ : Alloc → Code Unit),
      (do let _ ← Procs.fork initproc memory) = .call (.alloc initproc memory) k₁ ∧
        k₁ .busy = .call (.alloc slot1 memory) k₂ ∧ k₂ .failed = .ret () := ⟨_, _, rfl, rfl, rfl⟩
  have called := h.other (.start idle (.fork memory)) rfl
  have busy : exec initproc (.alloc initproc memory) c.st = .ok (.busy, c.st) := by
    rw [run]
    exact if_neg (by rw [running]; nofun)
  rw [hk₁] at called
  have second := called.other (.op (update_self ..) trivial busy) rfl
  rw [update_idem, hk₂] at second
  refine ⟨k₂, hk, fun r s' hs => ?_⟩
  have hnext : s'.nextpid = c.st.nextpid + 1 := by
    simp only [Procs.step, if_pos free] at hs
    split at hs <;> cases hs <;> rfl
  have third := second.allocpid (.op (update_self ..) trivial ((run _).trans hs)) hnext
  rw [update_idem] at third
  exact third

theorem exists_allocates (n : Nat) :
    ∃ c, Allocates n c ∧ c.prog initproc = .ret () ∧ (c.st.proc initproc).state = .running ∧
      (c.st.proc slot1).state = .unused ∧ c.st.nextpid = BitVec.ofNat 32 (n + 2) := by
  induction n with
  | zero => exact ⟨_, .other .boot (.env ⟨initproc, _, .run rfl, rfl⟩) rfl, rfl, rfl, rfl, rfl⟩
  | succ n ih =>
    obtain ⟨c, h, idle, running, free, hn⟩ := ih
    obtain ⟨k, hk, step⟩ := h.fork idle running free false
    refine ⟨_, step .failed _ (if_pos free), ?_, running, rfl, ?_⟩
    · simpa using hk
    · show c.st.nextpid + 1 = _
      rw [hn]
      exact (BitVec.ofNat_add ..).symm

theorem exists_child (n : Nat) :
    ∃ c, Allocates (n + 1) c ∧ (c.st.proc slot1).state = .used ∧
      (c.st.proc slot1).pid = BitVec.ofNat 32 (n + 2) := by
  obtain ⟨c, h, idle, running, free, hn⟩ := exists_allocates n
  obtain ⟨k, -, step⟩ := h.fork idle running free true
  exact ⟨_, step (.done _) _ (if_pos free), rfl, hn⟩

end

/-- The pids in the table are distinct and positive in every run with at most `n` calls of
`allocpid` if and only if `n` is less than `2 ^ 31 - 1`. -/
theorem pids_iff (n : Nat) :
    (∀ m, m ≤ n → ∀ c, Allocates m c → PidLaw c) ↔ n < 2 ^ 31 - 1 := by
  constructor
  · intro h
    by_contra hn
    obtain ⟨c, hc, hused, hpid⟩ := exists_child (2 ^ 31 - 2)
    have := (h _ (by omega) c hc).positive slot1 (by rw [hused]; nofun)
    rw [hpid] at this
    exact absurd this (by decide)
  · intro hn m hm c hc
    exact Numbered.pidLaw hc (by omega)

/-- The child that gets the pid `INT_MIN`. -/
theorem pid_negative :
    ∃ c, Allocates (2 ^ 31 - 1) c ∧ (c.st.proc slot1).state = .used ∧
      (c.st.proc slot1).pid.toInt = -2 ^ 31 ∧ ¬PidLaw c := by
  obtain ⟨c, hc, hused, hpid⟩ := exists_child (2 ^ 31 - 2)
  have hneg : (c.st.proc slot1).pid.toInt = -2 ^ 31 := by
    rw [hpid]
    decide
  refine ⟨c, hc, hused, hneg, fun h => ?_⟩
  have := h.positive slot1 (by rw [hused]; nofun)
  omega

end Xv6.Procs
