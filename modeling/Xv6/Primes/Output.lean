import Xv6.Primes.Chain

/-!
# `primes` prints the primes

The chain of processes ends, and when it ends it has printed the primes up to `N`.
-/

namespace Xv6.Primes

open Lib User List

/-! ## The chain does not block -/

section

variable {N k : Nat} {s : State Label} {loc : Nat → Local} {left : Nat → Nat} {x : User.Proc Label}

/-- Process `k` waits for input, and the pipe is still open. -/
def Starved (s : State Label) (k : Nat) : Prop :=
  ∃ i x fd m c pi, i + 1 = k ∧ s.Runs k x (.call (Sys.read fd m) c) ∧ s.pipes[i]? = some pi ∧
    pi.data = [] ∧
    s.Held (.writeEnd i)

/-- Process `k` waits until there is room in its pipe. -/
def Jammed (s : State Label) (loc : Nat → Local) (k : Nat) : Prop :=
  (loc k).forked = true ∧ ∃ pi, s.pipes[k]? = some pi ∧ PIPESIZE < 4 + pi.data.length

/-- Process `k` waits for the one it has forked. -/
def Joins (s : State Label) (loc : Nat → Local) (k : Nat) : Prop :=
  ¬Holds (loc k).fds (.writeEnd k) ∧ ∃ y, s.procs[k + 1]? = some y ∧ y.run ≠ .zombie ∧ y.run ≠ .gone

theorem Chain.input (h : Chain N s loc left) {i : Nat} (hk : s.procs[i + 1]? = some x) :
    ∃ pi, s.pipes[i]? = some pi := by
  have hlt := lt_of_getElem? hk
  obtain ⟨y, hy⟩ : ∃ y, s.procs[i]? = some y := ⟨_, getElem?_eq_getElem (by omega)⟩
  have hmade := (h.fits hy).wf.made ((h.forked (lt_of_getElem? hy)).mpr hlt)
  exact ⟨_, getElem?_eq_getElem ((h.pipes i).mpr ⟨lt_of_getElem? hy, hmade⟩)⟩

theorem Chain.output (h : Chain N s loc left) (hk : s.procs[k]? = some x)
    (hforked : (loc k).forked = true) :
    ∃ pi, s.pipes[k]? = some pi :=
  ⟨_, getElem?_eq_getElem ((h.pipes k).mpr ⟨lt_of_getElem? hk, (h.fits hk).wf.made hforked⟩)⟩

theorem exit_steps {status : Int} {c : Empty → Code Label}
    (here : s.Runs k x (.call (Sys.exit status) c)) :
    ∃ s', Step (prog N) true s s' := by
  by_cases hclosed : ∀ fd, x.fds fd = none
  · exact ⟨_, .exit here hclosed⟩
  · have hopen : ∃ fd, x.fds fd ≠ none := not_forall.mp hclosed
    classical
    refine ⟨_, .exitClose here (Option.isSome_iff_ne_none.mpr (Nat.find_spec hopen)) fun i hi => ?_⟩
    exact not_not.mp (Nat.find_min hopen hi)

section

variable (h : Chain N s loc left) (hstuck : ∀ s', ¬Step (prog N) true s s')

include h hstuck

theorem Chain.joins {c : Int → Code Label} (here : s.Runs k x (.call Sys.wait c)) :
    Joins s loc k := by
  obtain ⟨hpre, -⟩ := (h.fits here.1).call here.2
  refine ⟨hpre, ?_⟩
  by_contra hnone
  refine hstuck _ (.waitNone here fun y hy hparent => ?_)
  obtain ⟨q, hq⟩ := mem_iff_getElem?.mp hy
  have hqk : q = k + 1 := by
    have hp := (h.fits hq).parent
    rw [hparent] at hp
    split at hp
    · cases hp
    · have := Option.some.inj hp
      omega
  subst hqk
  by_contra hgone
  by_cases hzombie : y.run = .zombie
  · exact hstuck _ (.wait here hq hparent hzombie)
  · exact hnone ⟨y, hq, hzombie, hgone⟩

theorem Chain.starved {c : Option (List UInt8) → Code Label} {fd m : Nat}
    (here : s.Runs k x (.call (Sys.read fd m) c)) :
    Starved s k := by
  have hx := h.fits here.1
  obtain ⟨⟨-, i, rfl, hi⟩, -⟩ := hx.call here.2
  obtain ⟨pi, hpi⟩ := h.input here.1
  by_contra hnot
  refine hstuck _ (.read here (by rw [hx.fds, hi]) hpi ?_)
  by_contra hready
  obtain ⟨hdata, hheld⟩ := not_or.mp hready
  exact hnot ⟨i, x, fd, m, c, pi, rfl, here, hpi, not_not.mp hdata, not_not.mp hheld⟩

theorem Chain.jammed {c : Int → Code Label} {fd : Nat} {bs : List UInt8}
    (here : s.Runs k x (.call (Sys.write fd bs) c)) : Jammed s loc k := by
  have hx := h.fits here.1
  obtain ⟨⟨hend, hforked, m, hm, rfl⟩ | ⟨hconsole, -⟩, -⟩ := hx.call here.2
  · obtain ⟨pi, hpi⟩ := h.output here.1 hforked
    refine ⟨hforked, pi, hpi, ?_⟩
    by_contra hroom
    refine hstuck _
      (.write here (by rw [hx.fds, hend]) hpi (fun _ => h.reader here.1 hforked hm) ?_)
    rw [hx.sent, length_toBytes]
    omega
  · exact absurd (.writeConsole here (by rw [hx.fds, hconsole])) (hstuck _)

/-- What a process waits for when no process can go on. -/
theorem Chain.blocked {c : Code Label} (here : s.Runs k x c) :
    Starved s k ∨ Jammed s loc k ∨ Joins s loc k := by
  have hx := h.fits here.1
  cases c with
  | ret l => exact absurd (.jump here) (hstuck _)
  | call o c =>
    cases o with
    | fork => exact absurd (.fork here) (hstuck _)
    | exit status =>
      obtain ⟨s', hs'⟩ := exit_steps here
      exact absurd hs' (hstuck s')
    | wait => exact .inr (.inr (h.joins hstuck here))
    | pipe =>
      obtain ⟨⟨hmade, fd₀, fd₁, hread, hwrite⟩, -⟩ := hx.call here.2
      obtain ⟨-, hlen⟩ := h.unmade here.1 hmade
      rw [← hx.fds] at hread
      rw [← hx.fds, ← hlen] at hwrite
      exact absurd (.pipe here hread hwrite) (hstuck _)
    | close fd =>
      cases hopen : x.fds.get fd with
      | none => exact absurd (.closeFail here hopen) (hstuck _)
      | some o => exact absurd (.close here hopen) (hstuck _)
    | read fd m => exact .inl (h.starved hstuck here)
    | write fd bs => exact .inr (.inl (h.jammed hstuck here))
    | dup fd | «open» path mode | exec argv => exact absurd (hx.call here.2).1 not_false

/-- A process that waits for input has a left neighbour that waits for input. -/
theorem Chain.not_starved : ¬Starved s k := by
  induction k with
  | zero =>
    intro ⟨i, x, fd, m, c, pi, hi, hrest⟩
    cases hi
  | succ k ih =>
    intro ⟨i, x, fd, m, c, pi, hi, here, hpi, hdata, y, hy, fd', hfd'⟩
    cases Nat.succ.inj hi
    obtain ⟨q, hq⟩ := mem_iff_getElem?.mp hy
    have hheld : Holds (loc q).fds (.writeEnd k) := ⟨fd', by rw [← (h.fits hq).fds, hfd']⟩
    obtain ⟨rfl, -⟩ | hnext := (h.fits hq).wf.writer k hheld
    · obtain ⟨c', hc', -⟩ | ⟨-, hclosed, -⟩ := (h.fits hq).run
      · obtain hstarved | ⟨-, pj, hpj, hfull⟩ | ⟨hnot, -⟩ := h.blocked hstuck ⟨hq, hc'⟩
        · exact ih hstarved
        · rw [hpi] at hpj
          cases hpj
          rw [hdata, PIPESIZE] at hfull
          exact absurd hfull (by decide)
        · exact hnot hheld
      · obtain ⟨fd'', hfd''⟩ := hheld
        rw [hclosed] at hfd''
        cases hfd''
    · subst hnext
      rw [here.1] at hq
      cases hq
      obtain ⟨-, hdrops, -⟩ := (h.fits here.1).call here.2
      obtain ⟨_, hclose, -⟩ := hdrops k rfl hheld
      cases hclose

theorem Chain.exited (hk : s.procs[k]? = some x) : x.run = .zombie ∨ x.run = .gone := by
  -- a process that has not exited waits for one further to the right
  have hright : ∀ d k x, s.procs.length ≤ k + d → s.procs[k]? = some x → x.run = .zombie ∨
      x.run = .gone := by
    intro d
    induction d with
    | zero =>
      intro k x hle hk
      exact absurd (lt_of_getElem? hk) (by omega)
    | succ d ih =>
      intro k x hle hk
      obtain ⟨c, hc, -⟩ | ⟨hexit, -⟩ := (h.fits hk).run
      · obtain hstarved | ⟨hforked, pi, hpi, hfull⟩ | ⟨-, y, hy, hzombie, hgone⟩ :=
          h.blocked hstuck ⟨hk, hc⟩
        · exact absurd hstarved (h.not_starved hstuck)
        · have hmore := (h.forked (lt_of_getElem? hk)).mp hforked
          obtain ⟨y, hy⟩ : ∃ y, s.procs[k + 1]? = some y := ⟨_, getElem?_eq_getElem hmore⟩
          have hy' := h.fits hy
          obtain ⟨c', hc', -⟩ | ⟨-, hclosed, -⟩ := hy'.run
          · have hexit := ih (k + 1) y (by omega) hy
            rw [hc'] at hexit
            obtain hexit | hexit := hexit <;> cases hexit
          · have hall := hy'.wf.takes k rfl fun ⟨fd, hfd⟩ => by
              rw [hclosed] at hfd
              cases hfd
            have hle := (h.fits hk).wf.given_le
            rw [h.length_data hpi, PIPESIZE] at hfull
            omega
        · obtain hexit | hexit := ih (k + 1) y (by omega) hy
          · exact absurd hexit hzombie
          · exact absurd hexit hgone
      · exact hexit
  exact hright s.procs.length k x (by omega) hk

end

end

/-! ## The output -/

/-- `prime p` for every prime up to `N`. -/
def lines (N : Nat) : List UInt8 :=
  (primesUpTo N).flatMap fun p => bytes "prime " ++ decimal p ++ bytes "\n"

section

variable {N k : Nat} {s : State Label} {loc : Nat → Local} {left : Nat → Nat} {x : User.Proc Label}

theorem said_flatMap (N m : Nat) :
    (range (m + 1)).flatMap (said N) = ((primesUpTo N).take m).flatMap fun p : Nat => line p := by
  induction m with
  | zero => rfl
  | succ m ih =>
    rw [range_succ, flatMap_append, ih, take_add_one, flatMap_append, flatMap_singleton, said,
      head_stream]
    cases (primesUpTo N)[m]? <;> simp

theorem flatMap_line (hN : N < 2 ^ 31) :
    ((primesUpTo N).flatMap fun p : Nat => line p) = lines N := by
  refine flatMap_congr fun p hp => ?_
  obtain ⟨hprime, hle⟩ := mem_primesUpTo.mp hp
  rw [line, printint_pos hprime.pos (by omega)]

/-- All processes but the last one have printed all they will print. -/
theorem Chain.out_eq (h : Chain N s loc left) {m : Nat} (hlen : s.procs.length = m + 1) :
    s.out = (range m).flatMap (said N) ++ (loc m).said := by
  have hold : ∀ j ∈ range m, (loc j).said = said N j := by
    intro j hj
    have hj := mem_range.mp hj
    obtain ⟨y, hy⟩ : ∃ y, s.procs[j]? = some y := ⟨_, getElem?_eq_getElem (by omega)⟩
    exact ((h.fits hy).wf.forked ((h.forked (lt_of_getElem? hy)).mpr (by omega))).1
  rw [h.out, hlen, range_succ, flatMap_append, flatMap_congr hold, flatMap_singleton]

theorem Chain.out_prefix (hN : N < 2 ^ 31) (h : Chain N s loc left) : s.out <+: lines N := by
  cases hlen : s.procs.length with
  | zero =>
    rw [h.out, hlen]
    exact nil_prefix
  | succ m =>
    obtain ⟨y, hy⟩ : ∃ y, s.procs[m]? = some y := ⟨_, getElem?_eq_getElem (by omega)⟩
    have hlast := (h.fits hy).wf.said
    have hsaid : s.out <+: (range (m + 1)).flatMap (said N) := by
      rw [h.out_eq hlen, range_succ, flatMap_append, flatMap_singleton]
      exact prefix_append_right_inj _ |>.mpr hlast
    rw [← flatMap_line hN]
    refine hsaid.trans ?_
    rw [said_flatMap]
    conv_rhs => rw [← take_append_drop m (primesUpTo N), flatMap_append]
    exact prefix_append ..

/-- When all processes have exited, the last one has got no numbers. -/
theorem Chain.out_all (hN : N < 2 ^ 31) (h : Chain N s loc left) (hzero : s.procs ≠ [])
    (hstuck : ∀ s', ¬Step (prog N) true s s') : s.out = lines N := by
  obtain ⟨m, hlen⟩ := Nat.exists_eq_succ_of_ne_zero (mt length_eq_zero_iff.mp hzero)
  obtain ⟨y, hy⟩ : ∃ y, s.procs[m]? = some y := ⟨_, getElem?_eq_getElem (by omega)⟩
  have hdone : (loc m).forked = true ∨ Last N m := by
    obtain ⟨c, hc, -⟩ | ⟨-, -, hdone⟩ := (h.fits hy).run
    · obtain hexit | hexit := h.exited hstuck hy
      all_goals rw [hc] at hexit; cases hexit
    · exact hdone
  obtain ⟨i, rfl, hnil⟩ := hdone.resolve_left fun hforked => by
    have := (h.forked (lt_of_getElem? hy)).mp hforked
    omega
  have hprimes : (primesUpTo N).length ≤ i := by
    rw [← getElem?_eq_none_iff, ← head_stream, hnil]
    rfl
  have hlast : (loc (i + 1)).said = [] := by
    have hsaid := (h.fits hy).wf.said
    rw [said, hnil] at hsaid
    exact prefix_nil.mp hsaid
  rw [h.out_eq hlen, hlast, append_nil, said_flatMap, take_of_length_le hprimes, flatMap_line hN]

end

/-! ## Runs -/

/-- `main` on the console. -/
def start : State Label := ⟨[⟨.code main, consoleTable, none, [], 0⟩], [], []⟩

/-- What holds at any moment of a run. -/
structure Sieves (N : Nat) (s : State Label) : Prop where
  /-- A process reads the pipe of its parent, which holds whole numbers. -/
  reads : ∀ {k x fd m c}, s.Runs k x (.call (Sys.read fd m) c) → m = 4 ∧ ∃ i pi, k = i + 1 ∧
    x.parent = some i ∧
    x.fds.get fd = some (.readEnd i) ∧ s.pipes[i]? = some pi ∧
    (pi.data = [] ∨ ∃ n : Nat, 2 ≤ n ∧ n ≤ N ∧ pi.data.take m = toBytes n)
  /-- Once a process reads, nobody else than its parent has or gets the write end. -/
  writers : ∀ {i x fd m c s' q y}, s.Runs (i + 1) x (.call (Sys.read fd m) c) →
    Relation.ReflTransGen (Step (prog N) true) s s' → s'.procs[q]? = some y →
      Holds y.fds (.writeEnd i) → q = i
  /-- When its parent has closed it and the pipe is drained, the process reads the end of the file.
  -/
  eof : ∀ {i x fd m c pi}, s.Runs (i + 1) x (.call (Sys.read fd m) c) → s.pipes[i]? = some pi →
    pi.data = [] →
    (∀ y, s.procs[i]? = some y → ¬Holds y.fds (.writeEnd i)) →
    Step (prog N) true s ((s.setPipe i []).resume (i + 1) x (c (some [])))
  printed : s.out <+: lines N
  /-- When no process can go on, all have exited and everything is printed. -/
  ends : (∀ s', ¬Step (prog N) true s s') → (∀ x ∈ s.procs, x.run = .zombie ∨ x.run = .gone) ∧
    s.out = lines N

section

variable {N : Nat} {s s' : State Label} {loc : Nat → Local} {left : Nat → Nat}

theorem chain_start (hN : 2 ≤ N) : Chain N start (fun _ => ⟨consoleTable, 0, 0, [], false, false⟩)
    fun _ => 2 * N + cost (stream N 0) + 20 where
  fits := by
    intro k x hk
    cases k with
    | succ k => cases hk
    | zero =>
      cases hk
      have hnone : ∀ o, o ≠ .console → ¬Holds consoleTable o :=
        fun o ho => opens_consoleTable.not_holds nofun ho
      refine ⟨rfl, rfl, rfl, ⟨nofun, Nat.zero_le _, fun i hi => ?_, nofun, nofun, nofun,
        fun _ => rfl, nil_prefix, nofun,
        fun fd hfd => opens_consoleTable.support hfd⟩, .inl ⟨_, rfl, main_ok hN⟩⟩
      exact absurd hi (hnone _ nofun)
  forked := by
    intro k hk
    have hk : k = 0 := Nat.lt_one_iff.mp hk
    subst hk
    exact ⟨nofun, nofun⟩
  unborn _ := rfl
  pipes i := ⟨nofun, nofun⟩
  flow := nofun
  out := rfl

theorem Chain.reaches (hN : N < 2 ^ 31) (h : Chain N s loc left)
    (hr : Relation.ReflTransGen (Step (prog N) true) s s') :
    ∃ loc' left', Chain N s' loc' left' := by
  induction hr with
  | refl => exact ⟨loc, left, h⟩
  | tail _ hs ih =>
    obtain ⟨loc₁, left₁, h₁⟩ := ih
    obtain ⟨loc₂, left₂, h₂, -⟩ := h₁.step hN hs
    exact ⟨loc₂, left₂, h₂⟩

theorem Chain.acc (hN : N < 2 ^ 31) (h : Chain N s loc left) :
    Acc (fun s' s => Step (prog N) true s s') s := by
  -- the induction is on the steps that are left
  induction hn : total s left using Nat.strong_induction_on generalizing s loc left with
  | _ n ih =>
    subst hn
    refine ⟨s, fun s' hs => ?_⟩
    obtain ⟨loc', left', h', hlt⟩ := h.step hN hs
    exact ih _ hlt h' rfl

/-- A process that has no write end of an old pipe never gets one. -/
theorem not_holds_reaches {i q : Nat} {y : User.Proc Label} (hq : s.procs[q]? = some y)
    (hi : i < s.pipes.length)
    (hnot : ¬Holds y.fds (.writeEnd i)) (hr : Relation.ReflTransGen (Step (prog N) true) s s') :
    ∃ y', s'.procs[q]? = some y' ∧ i < s'.pipes.length ∧ ¬Holds y'.fds (.writeEnd i) := by
  induction hr with
  | refl => exact ⟨y, hq, hi, hnot⟩
  | tail _ hs ih =>
    obtain ⟨y₁, hy₁, hi₁, hnot₁⟩ := ih
    obtain ⟨y₂, hy₂, hkept⟩ := hs.kept hy₁
    exact ⟨y₂, hy₂, hi₁.trans_le hs.length_pipes, fun hheld => hnot₁ (hkept i hi₁ hheld)⟩

theorem Chain.whole {i : Nat} {pi : User.Pipe Label} (h : Chain N s loc left)
    (hpi : s.pipes[i]? = some pi) :
    pi.data = [] ∨ ∃ n : Nat, 2 ≤ n ∧ n ≤ N ∧ pi.data.take 4 = toBytes n := by
  have hflow := h.flow hpi
  obtain ⟨⟨y, hy⟩, -⟩ := h.ends hpi
  rcases Nat.lt_or_eq_of_le hflow.le with hlt | heq
  · have hm := getElem?_eq_getElem (hlt.trans_le (h.fits hy).wf.given_le)
    obtain ⟨htwo, hle⟩ := mem_stream (mem_of_getElem? hm)
    refine .inr ⟨_, htwo, hle, ?_⟩
    rw [hflow.data, flow_take hlt hm, take_left' (length_toBytes _)]
  · rw [hflow.data, heq, flow_self]
    exact .inl rfl

theorem Chain.sieves (hN : N < 2 ^ 31) (hsome : s.procs ≠ []) (h : Chain N s loc left) :
    Sieves N s where
  reads := by
    intro k x fd m c here
    have hx := h.fits here.1
    obtain ⟨⟨rfl, i, rfl, hi⟩, -⟩ := hx.call here.2
    obtain ⟨pi, hpi⟩ := h.input here.1
    exact ⟨rfl, i, pi, rfl, hx.parent, by rw [hx.fds, hi], hpi, h.whole hpi⟩
  writers := by
    intro i x fd m c s' q y here hr hq hheld
    have hx := h.fits here.1
    obtain ⟨-, hdrops, -⟩ := hx.call here.2
    have hnot : ¬Holds x.fds (.writeEnd i) := by
      rw [hx.fds]
      intro hheld
      obtain ⟨_, hclose, -⟩ := hdrops i rfl hheld
      cases hclose
    obtain ⟨pi, hpi⟩ := h.input here.1
    obtain ⟨x', hx', -, hnot'⟩ :=
      not_holds_reaches here.1 (List.getElem?_eq_some_iff.mp hpi).1 hnot hr
    obtain ⟨loc', left', h'⟩ := h.reaches hN hr
    obtain ⟨rfl, -⟩ | rfl := (h'.fits hq).wf.writer i (by rwa [← (h'.fits hq).fds])
    · rfl
    · rw [hx'] at hq
      cases hq
      exact absurd hheld hnot'
  eof := by
    intro i x fd m c pi here hpi hdata hclosed
    have hx := h.fits here.1
    obtain ⟨⟨rfl, j, hj, hget⟩, hdrops, -⟩ := hx.call here.2
    cases Nat.succ.inj hj
    have hheld : ¬s.Held (.writeEnd i) := by
      intro ⟨y, hy, fd', hfd'⟩
      obtain ⟨q, hq⟩ := mem_iff_getElem?.mp hy
      obtain ⟨rfl, -⟩ | rfl := (h.fits hq).wf.writer i ⟨fd', by rw [← (h.fits hq).fds, hfd']⟩
      · exact hclosed y hq ⟨fd', hfd'⟩
      · rw [here.1] at hq
        cases hq
        obtain ⟨_, hclose, -⟩ := hdrops i rfl ⟨fd', by rw [← hx.fds, hfd']⟩
        cases hclose
    have hstep :
        Step (prog N) true s
          ((s.setPipe i (pi.data.drop 4)).resume (i + 1) x (c (some (pi.data.take 4)))) :=
      .read here (by rw [hx.fds, hget]) hpi (.inr hheld)
    rwa [hdata] at hstep
  printed := h.out_prefix hN
  ends hstuck := by
    refine ⟨fun x hx => ?_, h.out_all hN hsome hstuck⟩
    obtain ⟨k, hk⟩ := mem_iff_getElem?.mp hx
    exact h.exited hstuck hk

end

/-- Every run of `primes` ends, and what it prints are the primes up to `N`. -/
theorem primes_sieve {N : Nat} (hN : 2 ≤ N) (hlt : N < 2 ^ 31) :
    Acc (fun s' s => Step (prog N) true s s') start ∧
      ∀ s, Relation.ReflTransGen (Step (prog N) true) start s → Sieves N s := by
  refine ⟨(chain_start hN).acc hlt, fun s hr => ?_⟩
  obtain ⟨loc, left, h⟩ := (chain_start hN).reaches hlt hr
  obtain ⟨y, hy⟩ := procs_reaches (s := start) (q := 0) rfl hr
  exact h.sieves hlt (ne_nil_of_mem (mem_of_getElem? hy))

/-- The program as it is. -/
theorem primes_sieve_source : 35 < 2 ^ 31 ∧ Acc (fun s' s => Step (prog 35) true s s') start ∧
    ∀ s, Relation.ReflTransGen (Step (prog 35) true) start s → Sieves 35 s :=
  ⟨by norm_num, primes_sieve (by norm_num) (by norm_num)⟩

end Xv6.Primes
