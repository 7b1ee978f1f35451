import Xv6.Primes.Stage
import Xv6.User.Lineage
import Mathlib.Algebra.BigOperators.Group.Finset.Basic
import Mathlib.Algebra.Order.BigOperators.Group.Finset

/-!
# The chain of processes

The processes of `primes` together: what one process has written and the next has not read is in the
pipe between them, and the output is what the processes have printed, in their order. From this it
follows that the chain never blocks as a whole, that every run ends, and that the primes up to `N`
are printed then.
-/

namespace Xv6.Primes

open Lib User Function Finset

/-! ## What a process keeps -/

structure Local.Wf (N k : Nat) (ℓ : Local) : Prop where
  taken_le : ∀ i, i + 1 = k → ℓ.taken ≤ (stream N i).length
  given_le : ℓ.given ≤ (stream N k).length
  writer : ∀ i, Holds ℓ.fds (.writeEnd i) → i = k ∧ ℓ.made = true ∨ i + 1 = k
  gives : ℓ.made = true → ¬Holds ℓ.fds (.writeEnd k) → ℓ.given = (stream N k).length
  takes : ∀ i, i + 1 = k → ¬Holds ℓ.fds (.readEnd i) → ℓ.taken = (stream N i).length
  made : ℓ.forked = true → ℓ.made = true
  unforked : ℓ.forked = false → ℓ.given = 0
  said : ℓ.said <+: Primes.said N k
  forked : ℓ.forked = true → ℓ.said = Primes.said N k ∧ ¬Last N k
  support : ∀ fd, NOFILE ≤ fd → ℓ.fds fd = none

section

variable {N k n : Nat} {ℓ ℓ' : Local}

variable {t : Table} {fd : Nat} {o : Obj}

theorem holds_close_of_ne {o' : Obj} (hopen : t fd = some o') (hne : o' ≠ o)
    (h : Holds t o) : Holds (update t fd none) o := by
  obtain ⟨k, hk⟩ := h
  have hkfd : k ≠ fd := by
    intro heq
    rw [heq, hopen] at hk
    exact hne (Option.some.inj hk)
  exact ⟨k, by rwa [update_of_ne hkfd]⟩

variable {fd₀ fd₁ : Nat}

theorem holds_addPipe {i : Nat} (h : Holds (t.addPipe i fd₀ fd₁) o) :
    Holds t o ∨ o = .readEnd i ∨ o = .writeEnd i := by
  obtain h | h := holds_update h
  · obtain h | h := holds_update h
    · exact .inl h
    · exact .inr (.inl (Option.some.inj h).symm)
  · exact .inr (.inr (Option.some.inj h).symm)

/-- Closing an end of a pipe when the whole stream has passed, or one that does not matter. -/
theorem Local.Wf.close (h : ℓ.Wf N k) (hopen : ℓ.fds fd = some o) (hcloses : Closes N k ℓ o) :
    Local.Wf N k { ℓ with fds := update ℓ.fds fd none } where
  __ := h
  writer i hi := h.writer i (holds_close hi)
  gives hmade hnot := by
    by_cases heq : o = .writeEnd k
    · rw [heq] at hcloses
      exact hcloses rfl
    · exact h.gives hmade fun hheld => hnot (holds_close_of_ne hopen heq hheld)
  takes i hi hnot := by
    by_cases heq : o = .readEnd i
    · rw [heq] at hcloses
      exact hcloses hi
    · exact h.takes i hi fun hheld => hnot (holds_close_of_ne hopen heq hheld)
  support k hk := by
    dsimp only
    by_cases heq : k = fd
    · rw [heq, update_self]
    · rw [update_of_ne heq, h.support k hk]

theorem Local.Wf.pipe (h : ℓ.Wf N k) (hmade : ℓ.made = false) (hread : fdalloc ℓ.fds = some fd₀)
    (hwrite : fdalloc (update ℓ.fds fd₀ (some (.readEnd k))) = some fd₁) :
    Local.Wf N k { ℓ with fds := ℓ.fds.addPipe k fd₀ fd₁, made := true } where
  __ := h
  writer i hi := by
    obtain hi | hi | hi := holds_addPipe hi
    · obtain ⟨-, hi⟩ | hi := h.writer i hi
      · rw [hmade] at hi
        cases hi
      · exact .inr hi
    · cases hi
    · exact .inl ⟨Obj.writeEnd.inj hi, rfl⟩
  gives _ hnot := absurd ⟨fd₁, update_self ..⟩ hnot
  takes i hi hnot := by
    refine h.takes i hi fun ⟨fd, hfd⟩ => hnot ⟨fd, ?_⟩
    have hne₀ : fd ≠ fd₀ := by
      intro heq
      rw [heq, (fdalloc_spec hread).1] at hfd
      cases hfd
    have hne₁ : fd ≠ fd₁ := by
      intro heq
      have hfree := (fdalloc_spec hwrite).1
      rw [← heq, update_of_ne hne₀, hfd] at hfree
      cases hfree
    dsimp only
    rw [Table.addPipe, update_of_ne hne₁, update_of_ne hne₀, hfd]
  made _ := rfl
  support fd hfd := by
    have hlt₀ := (fdalloc_spec hread).2.1
    have hlt₁ := (fdalloc_spec hwrite).2.1
    dsimp only
    rw [Table.addPipe, update_of_ne (by omega), update_of_ne (by omega), h.support fd hfd]

/-- A system call of a process that keeps to the protocol. -/
theorem Effect.wf {o : Sys} {r : iface.Res o} (he : Effect N k o ℓ r ℓ') (h : ℓ.Wf N k)
    (hpre : Pre N k ℓ n o) :
    ℓ'.Wf N k := by
  cases he with
  | fork hne =>
    obtain ⟨hmade, hforked, -, hsaid, hlast⟩ := hpre
    exact { h with made := fun _ => hmade, unforked := nofun, forked := fun _ => ⟨hsaid, hlast⟩ }
  | wait => exact h
  | pipe hread hwrite => exact h.pipe hpre.1 hread hwrite
  | close hopen => exact h.close (of_get hopen) (hpre _ hopen)
  | closeFail => exact h
  | @take _ _ i m hi hm =>
    obtain ⟨hlt, -⟩ := List.getElem?_eq_some_iff.mp hm
    refine { h with taken_le := fun j hj => ?_, takes := fun j hj hnot => ?_ }
    · cases Nat.succ.inj (hi.trans hj.symm)
      exact hlt
    · cases Nat.succ.inj (hi.trans hj.symm)
      exact absurd (h.takes i hi hnot) (by omega)
  | eof => exact h
  | give hopen r =>
    obtain ⟨-, hforked, m, hm, -⟩ | ⟨hconsole, -⟩ := hpre
    · obtain ⟨hlt, -⟩ := List.getElem?_eq_some_iff.mp hm
      refine { h with given_le := hlt, gives := fun hmade hnot => ?_, unforked := fun hnot => ?_ }
      · exact absurd ⟨_, of_get hopen⟩ hnot
      · rw [hforked] at hnot
        cases hnot
    · rw [hopen] at hconsole
      cases hconsole
  | say hopen r =>
    obtain ⟨hend, -⟩ | ⟨-, hforked, hsaid⟩ := hpre
    · rw [hopen] at hend
      cases hend
    · refine { h with said := hsaid, forked := fun hf => ?_ }
      rw [hforked] at hf
      cases hf

/-- The process forked by one that keeps to the protocol. -/
theorem Local.Wf.child (h : ℓ.Wf N k) (hpre : Pre N k ℓ n .fork) (hdrops : Drops k ℓ .fork) :
    ℓ.child.Wf N (k + 1) where
  taken_le := fun _ _ => Nat.zero_le _
  given_le := Nat.zero_le _
  writer i hi := by
    obtain ⟨rfl, -⟩ | hk := h.writer i hi
    · exact .inr rfl
    · obtain ⟨fd, hfd, -⟩ := hdrops i hk hi
      cases hfd
  gives := nofun
  takes i hi hnot := by
    cases Nat.succ.inj hi
    exact absurd hpre.2.2.1 hnot
  made := nofun
  unforked := fun _ => rfl
  said := List.nil_prefix
  forked := nofun
  support := h.support

end

/-! ## All processes -/

/-- The bytes of the numbers that have been written and not been read. -/
def flow (N i taken given : Nat) : List UInt8 :=
  (((stream N i).take given).drop taken).flatMap fun n : Nat => toBytes n

/-- What pipe `i` holds: never more than 128 numbers. -/
structure Flow (N i : Nat) (data : List UInt8) (taken given : Nat) : Prop where
  le : taken ≤ given
  room : given ≤ taken + 128
  data : data = flow N i taken given

/-- Process `k`, with `n` steps left. -/
structure Fits (N k : Nat) (x : User.Proc Label) (ℓ : Local) (n : Nat) : Prop where
  fds : x.fds = ℓ.fds
  sent : x.sent = 0
  parent : x.parent = if k = 0 then none else some (k - 1)
  wf : ℓ.Wf N k
  run : (∃ c, x.run = .code c ∧ Ok N k c ℓ n) ∨
    (x.run = .zombie ∨ x.run = .gone) ∧ (∀ fd, ℓ.fds fd = none) ∧ (ℓ.forked = true ∨ Last N k)

structure Chain (N : Nat) (s : State Label) (loc : Nat → Local) (left : Nat → Nat) : Prop where
  fits : ∀ {k x}, s.procs[k]? = some x → Fits N k x (loc k) (left k)
  forked : ∀ {k}, k < s.procs.length → ((loc k).forked = true ↔ k + 1 < s.procs.length)
  unborn : ∀ {k}, s.procs.length ≤ k → (loc k).taken = 0
  pipes : ∀ i, i < s.pipes.length ↔ i < s.procs.length ∧ (loc i).made = true
  flow : ∀ {i pi}, s.pipes[i]? = some pi → Flow N i pi.data (loc (i + 1)).taken (loc i).given
  out : s.out = (List.range s.procs.length).flatMap fun k => (loc k).said

/-- The steps that all processes have left. -/
def total (s : State Label) (left : Nat → Nat) : Nat := ∑ k ∈ range s.procs.length, left k

/-- The chain in `s'`, with fewer than `steps` steps left. -/
def Advances (N steps : Nat) (s' : State Label) : Prop :=
  ∃ loc left, Chain N s' loc left ∧ total s' left < steps

section

variable {N k n : Nat} {s s' : State Label} {loc : Nat → Local} {left : Nat →
  Nat} {x x' : User.Proc Label} {ℓ ℓ' : Local}

theorem field_update {β : Type} (f : Local → β) (h : f ℓ' = f (loc k)) (j : Nat) :
    f (update loc k ℓ' j) = f (loc j) := by
  by_cases heq : j = k
  · rw [heq, update_self, h]
  · rw [update_of_ne heq]

theorem total_update (hk : k < s.procs.length) (hlen : s'.procs.length = s.procs.length)
    (hn : n < left k) :
    total s' (update left k n) < total s left := by
  rw [total, hlen]
  apply sum_lt_sum
  · intro j _
    by_cases heq : j = k
    · rw [heq, update_self]
      exact hn.le
    · rw [update_of_ne heq]
  · exact ⟨k, mem_range.mpr hk, by rwa [update_self]⟩

/-- The steps left are shared between a process and the one it forks. -/
theorem total_fork {n₁ n₂ : Nat} (hlast : s.procs.length = k + 1)
    (hlen : s'.procs.length = s.procs.length + 1) (hlt : n₁ + n₂ < left k) :
    total s' (update (update left k n₁) (k + 1) n₂) < total s left := by
  have hold : ∑ j ∈ range k, update (update left k n₁) (k + 1) n₂ j =
      ∑ j ∈ range k, left j := by
    refine sum_congr rfl fun j hj => ?_
    have hj := mem_range.mp hj
    rw [update_of_ne (by omega), update_of_ne (by omega)]
  rw [total, total, hlen, hlast, sum_range_succ, sum_range_succ, sum_range_succ, hold,
    update_self, update_of_ne (by omega), update_self]
  omega

variable {o : Sys}

/-- What the rest of a process says about its next system call. -/
theorem Fits.call {c : iface.Res o → Code Label} (h : Fits N k x ℓ n)
    (hrun : x.run = .code (.call o c)) :
    Pre N k ℓ n o ∧ Drops k ℓ o ∧ ∃ n₁ n₂, n₁ + n₂ < n ∧
    (∀ r ℓ', Effect N k o ℓ r ℓ' → Ok N k (c r) ℓ' n₁) ∧
      ∀ r, Forks o r → Ok N (k + 1) (c r) ℓ.child n₂ := by
  obtain ⟨c', hc', hok⟩ | ⟨hexit, -⟩ := h.run
  · rw [hrun] at hc'
    cases hc'
    exact hok
  · rw [hrun] at hexit
    obtain hexit | hexit := hexit <;> cases hexit

theorem Fits.effect {c : iface.Res o → Code Label} {r : iface.Res o} (h : Fits N k x ℓ n)
    (hrun : x.run = .code (.call o c)) (he : Effect N k o ℓ r ℓ') (hrun' : x'.run = .code (c r))
    (hfds : x'.fds = ℓ'.fds) (hsent : x'.sent = 0) (hparent : x'.parent = x.parent) :
    ∃ n' < n, Fits N k x' ℓ' n' := by
  obtain ⟨hpre, -, n₁, n₂, hlt, hok, -⟩ := h.call hrun
  exact ⟨n₁, by omega, hfds, hsent, hparent.trans h.parent, he.wf h.wf hpre, .inl ⟨_,
    hrun', hok r _ he⟩⟩

theorem lt_of_getElem? (hk : s.procs[k]? = some x) : k < s.procs.length :=
  (List.getElem?_eq_some_iff.mp hk).1

/-! ## Pipes -/

variable {i taken given : Nat}

theorem length_flow (h : given ≤ (stream N i).length) :
    (flow N i taken given).length = 4 * (given - taken) := by
  have hsum : ∀ ns : List Nat, (ns.flatMap fun n : Nat => toBytes n).length = 4 * ns.length := by
    intro ns
    induction ns with
    | nil => rfl
    | cons n ns ih =>
      rw [List.flatMap_cons, List.length_append, length_toBytes, ih, List.length_cons]
      omega
  rw [flow, hsum, List.length_drop, List.length_take, Nat.min_eq_left h]

theorem flow_self (N i t : Nat) : flow N i t t = [] := by
  rw [flow, List.drop_take_self]
  rfl

variable {m : Nat}

theorem flow_take (hlt : taken < given) (hm : (stream N i)[taken]? = some m) :
    flow N i taken given = toBytes m ++ flow N i (taken + 1) given := by
  have hm' : ((stream N i).take given)[taken]? = some m := by rw [List.getElem?_take_of_lt hlt, hm]
  obtain ⟨hlt', hget⟩ := List.getElem?_eq_some_iff.mp hm'
  rw [flow, flow, List.drop_eq_getElem_cons hlt', List.flatMap_cons, hget]

theorem flow_give (hle : taken ≤ given) (hm : (stream N i)[given]? = some m) :
    flow N i taken (given + 1) = flow N i taken given ++ toBytes m := by
  obtain ⟨hlt, hget⟩ := List.getElem?_eq_some_iff.mp hm
  have hlen : taken ≤ ((stream N i).take given).length := by rw [List.length_take]; omega
  rw [flow, flow, List.take_succ_eq_append_getElem hlt, List.drop_append_of_le_length hlen,
    List.flatMap_append, hget, List.flatMap_singleton]

variable {pi : User.Pipe Label}

theorem setPipe_cases {j : Nat} {data : List UInt8} (h : (s.setPipe i data).pipes[j]? = some pi) :
    j = i ∧ pi.data = data ∨ j ≠ i ∧ s.pipes[j]? = some pi := by
  rw [State.setPipe, List.getElem?_modify] at h
  obtain ⟨pj, hpj, rfl⟩ := Option.map_eq_some_iff.mp h
  by_cases heq : i = j
  · rw [if_pos heq]
    exact .inl ⟨heq.symm, rfl⟩
  · rw [if_neg heq]
    exact .inr ⟨Ne.symm heq, hpj⟩

theorem length_setPipe (s : State Label) (i : Nat) (data : List UInt8) :
    (s.setPipe i data).pipes.length = s.pipes.length := List.length_modify ..

namespace Chain

variable (h : Chain N s loc left)

include h

theorem set (hk : k < s.procs.length) (hfits : Fits N k x' ℓ' n)
    (hforked : ℓ'.forked = (loc k).forked) (hprocs : s'.procs = s.procs.set k x')
    (hpipes : ∀ i, i < s'.pipes.length ↔ i < s.procs.length ∧ (update loc k ℓ' i).made = true)
    (hflow : ∀ {i pi}, s'.pipes[i]? = some pi →
      Flow N i pi.data (update loc k ℓ' (i + 1)).taken (update loc k ℓ' i).given)
    (hout : s'.out = (List.range s.procs.length).flatMap fun j => (update loc k ℓ' j).said) :
    Chain N s' (update loc k ℓ') (update left k n) := by
  have hlen : s'.procs.length = s.procs.length := by rw [hprocs, List.length_set]
  refine ⟨fun {j y} hj => ?_, fun {j} hj => ?_, fun {j} hj => ?_, fun i => ?_, hflow, ?_⟩
  · rw [hprocs] at hj
    by_cases heq : j = k
    · subst heq
      rw [List.getElem?_set_self hk] at hj
      cases hj
      simpa using hfits
    · rw [List.getElem?_set_ne (Ne.symm heq)] at hj
      simpa [update_of_ne heq] using h.fits hj
  · rw [field_update Local.forked hforked, hlen]
    exact h.forked (hlen ▸ hj)
  · rw [update_of_ne (by omega)]
    exact h.unborn (by omega)
  · rw [hlen]
    exact hpipes i
  · rw [hlen]
    exact hout

theorem out_update (hsaid : ℓ'.said = (loc k).said) :
    s.out = (List.range s.procs.length).flatMap fun j => (update loc k ℓ' j).said := by
  simp only [field_update Local.said hsaid]
  exact h.out

theorem pipes_update (hmade : ℓ'.made = (loc k).made) (i : Nat) :
    i < s.pipes.length ↔ i < s.procs.length ∧ (update loc k ℓ' i).made = true := by
  rw [field_update Local.made hmade]
  exact h.pipes i

/-- A step of one process that changes its descriptors at most. -/
theorem keep (hk : k < s.procs.length) (hfits : Fits N k x' ℓ' n)
    (hsame : ℓ' = { loc k with fds := ℓ'.fds }) :
    Chain N (s.set k x') (update loc k ℓ') (update left k n) := by
  have htaken : ∀ j, (update loc k ℓ' j).taken = (loc j).taken :=
    field_update Local.taken (by rw [hsame])
  have hgiven : ∀ j, (update loc k ℓ' j).given = (loc j).given :=
    field_update Local.given (by rw [hsame])
  refine h.set hk hfits (by rw [hsame]) rfl (h.pipes_update (by rw [hsame])) (fun {i pi} hi => ?_)
    (h.out_update (by rw [hsame]))
  rw [htaken, hgiven]
  exact h.flow hi

/-! ## Steps -/

theorem advance {c : iface.Res o → Code Label} {r : iface.Res o} (here : s.Runs k x (.call o c))
    (he : Effect N k o (loc k) r ℓ')
    (hprocs : s'.procs = s.procs.set k x') (hrun : x'.run = .code (c r)) (hfds : x'.fds = ℓ'.fds)
    (hsent : x'.sent = 0)
    (hparent : x'.parent = x.parent)
    (next : ∀ n, Fits N k x' ℓ' n → Chain N s' (update loc k ℓ') (update left k n)) :
    Advances N (total s left) s' := by
  obtain ⟨n', hlt, hfits⟩ := (h.fits here.1).effect here.2 he hrun hfds hsent hparent
  exact ⟨_, _, next n' hfits,
    total_update (lt_of_getElem? here.1) (by rw [hprocs, List.length_set]) hlt⟩

/-- A step of process `k`: what it can do is known from its own rest. -/
theorem effect {c : iface.Res o → Code Label} {r : iface.Res o}
    (here : s.Runs k x (.call o c)) (he : Effect N k o (loc k) r ℓ')
    (hsame : ℓ' = { loc k with fds := ℓ'.fds })
    (hrun : x'.run = .code (c r)) (hfds : x'.fds = ℓ'.fds) (hsent : x'.sent = 0)
    (hparent : x'.parent = x.parent) :
    Advances N (total s left) (s.set k x') := by
  exact h.advance here he rfl hrun hfds hsent hparent fun _ hfits =>
    h.keep (lt_of_getElem? here.1) hfits hsame

theorem jump {l : Label} (hN : N < 2 ^ 31) (here : s.Runs k x (.ret l)) :
    Advances N (total s left)
    (s.set k { x with run := .code (prog N l), trail := l :: x.trail }) := by
  have hk := lt_of_getElem? here.1
  have hx := h.fits here.1
  obtain ⟨c, hc, hok⟩ | ⟨hexit, -⟩ := hx.run
  · rw [here.2] at hc
    cases hc
    obtain ⟨-, hpos, hentry⟩ := hok
    have hfits : Fits N k { x with run := .code (prog N l), trail := l :: x.trail } (loc k)
        (left k - 1) :=
      ⟨hx.fds, hx.sent, hx.parent, hx.wf, .inl ⟨_, rfl, prog_ok hN hentry⟩⟩
    exact ⟨_, _, h.keep hk hfits rfl, total_update hk (List.length_set ..) (by omega)⟩
  · rw [here.2] at hexit
    obtain hexit | hexit := hexit <;> cases hexit

variable {status : Int} {fd : Nat}

theorem exitClose {c : Empty → Code Label}
    (here : s.Runs k x (.call (Sys.exit status) c)) (hopen : (x.fds fd).isSome) :
    Advances N (total s left) (s.set k { x with fds := update x.fds fd none }) := by
  have hk := lt_of_getElem? here.1
  have hx := h.fits here.1
  obtain ⟨⟨hconsole, hdone, hopened⟩, hdrops, -⟩ := hx.call here.2
  rw [hx.fds] at hopen
  obtain ⟨o, ho⟩ := Option.isSome_iff_exists.mp hopen
  have hfd : fd < NOFILE := by
    by_contra hge
    rw [hx.wf.support fd (by omega)] at ho
    cases ho
  have hless := opened_close hfd hopen
  have hcloses : Closes N k (loc k) o := by
    rw [hconsole o ⟨fd, ho⟩]
    trivial
  have hok : Ok N k (.call (Sys.exit status) c) { loc k with fds := update (loc k).fds fd none }
      (left k - 1) :=
    ok_call ⟨fun o ho => hconsole o (holds_close ho), hdone, by simp only; omega⟩
      (fun i hi hheld => absurd (hconsole _ (holds_close hheld)) nofun) (by omega) fun r => r.elim
  have hfits : Fits N k { x with fds := update x.fds fd none }
      { loc k with fds := update (loc k).fds fd none } (left k - 1) :=
    ⟨by rw [hx.fds], hx.sent, hx.parent, hx.wf.close ho hcloses, .inl ⟨_, here.2, hok⟩⟩
  exact ⟨_, _, h.keep hk hfits rfl, total_update hk (List.length_set ..) (by omega)⟩

theorem exit {c : Empty → Code Label}
    (here : s.Runs k x (.call (Sys.exit status) c)) (hclosed : ∀ fd, x.fds fd = none) :
    Advances N (total s left) (s.set k { x with run := .zombie }) := by
  have hk := lt_of_getElem? here.1
  have hx := h.fits here.1
  obtain ⟨⟨-, hdone, hopened⟩, -⟩ := hx.call here.2
  rw [hx.fds] at hclosed
  have hfits : Fits N k { x with run := .zombie } (loc k) 0 :=
    ⟨hx.fds, hx.sent, hx.parent, hx.wf, .inr ⟨.inl rfl, hclosed, hdone⟩⟩
  exact ⟨_, _, h.keep hk hfits rfl, total_update hk (List.length_set ..) (by omega)⟩

theorem reap (hk : s.procs[k]? = some x) (hzombie : x.run = .zombie) :
    Chain N (s.set k { x with run := .gone }) loc left := by
  have hx := h.fits hk
  have hfits : Fits N k { x with run := .gone } (loc k) (left k) := by
    refine ⟨hx.fds, hx.sent, hx.parent, hx.wf, .inr ⟨.inr rfl, ?_⟩⟩
    obtain ⟨c, hc, -⟩ | ⟨-, hdone⟩ := hx.run
    · rw [hzombie] at hc
      cases hc
    · exact hdone
  have hkeep := h.keep (lt_of_getElem? hk) hfits rfl
  rwa [update_eq_self, update_eq_self] at hkeep

variable {c : Int → Code Label}

theorem wait {q : Nat} {y : User.Proc Label}
    (here : s.Runs k x (.call Sys.wait c)) (hq : s.procs[q]? = some y) (hzombie : y.run = .zombie) :
    Advances N (total s left) ((s.set q { y with run := .gone }).resume k x (c (q : Int))) := by
  have hne : q ≠ k := by
    rintro rfl
    rw [here.1] at hq
    cases hq
    rw [here.2] at hzombie
    cases hzombie
  have hreap := h.reap hq hzombie
  have here' : (s.set q { y with run := .gone }).Runs k x (.call Sys.wait c) :=
    ⟨by rw [State.set, List.getElem?_set_ne hne]; exact here.1, here.2⟩
  have htotal : total (s.set q { y with run := .gone }) left = total s left := by
    rw [total, State.set, List.length_set, total]
  rw [← htotal]
  exact hreap.effect here' (.wait (q : Int)) rfl rfl (h.fits here.1).fds rfl rfl

/-- Only the last process has not made its pipe, and its pipe will be the next one. -/
theorem unmade (hk : s.procs[k]? = some x) (hmade : (loc k).made = false) :
    k + 1 = s.procs.length ∧ s.pipes.length = k := by
  have hlt := lt_of_getElem? hk
  have hlast : ¬k + 1 < s.procs.length := by
    intro hmore
    have hforked := (h.fits hk).wf.made ((h.forked hlt).mpr hmore)
    rw [hmade] at hforked
    cases hforked
  refine ⟨by omega, Nat.le_antisymm (Nat.le_of_not_lt fun hmore => ?_) (Nat.le_of_not_lt
    fun hless => ?_)⟩
  · have hk' := ((h.pipes k).mp hmore).2
    rw [hmade] at hk'
    cases hk'
  · obtain ⟨y, hy⟩ : ∃ y, s.procs[s.pipes.length]? = some y :=
      ⟨_, List.getElem?_eq_getElem (hless.trans hlt)⟩
    have hforked := (h.forked (lt_of_getElem? hy)).mpr (by omega)
    exact lt_irrefl _ ((h.pipes _).mpr ⟨lt_of_getElem? hy, (h.fits hy).wf.made hforked⟩)

theorem pipe {c : Option (Nat × Nat) → Code Label} {fd₀ fd₁ : Nat}
    (here : s.Runs k x (.call Sys.pipe c)) (hread : fdalloc x.fds = some fd₀)
    (hwrite : fdalloc (update x.fds fd₀ (some (.readEnd s.pipes.length))) = some fd₁) :
    Advances N (total s left)
    ((s.addPipe x.trail).resume k { x with fds := x.fds.addPipe s.pipes.length fd₀ fd₁ }
        (c (some (fd₀, fd₁)))) := by
  have hk := lt_of_getElem? here.1
  have hx := h.fits here.1
  obtain ⟨⟨hmade, -⟩, -⟩ := hx.call here.2
  obtain ⟨hlast, hlen⟩ := h.unmade here.1 hmade
  rw [hx.fds] at hread hwrite
  rw [hlen] at hwrite
  have hforked : (loc k).forked = false := by
    by_contra hf
    have := (h.forked hk).mp (by simpa using hf)
    omega
  refine h.advance here (.pipe hread hwrite) rfl rfl (by simp only [hlen, hx.fds]) rfl rfl
    fun _ hfits =>
    h.set hk hfits rfl rfl (fun i => ?_) (fun {i pi} hi => ?_) (h.out_update rfl)
  · have hnew : ((s.addPipe x.trail).resume k { x with fds := x.fds.addPipe s.pipes.length fd₀ fd₁ }
        (c (some (fd₀, fd₁)))).pipes.length = s.pipes.length + 1 := List.length_append
    rw [hnew]
    by_cases heq : i = k
    · rw [heq, update_self]
      exact ⟨fun _ => ⟨hk, rfl⟩, fun _ => by omega⟩
    · rw [update_of_ne heq, ← h.pipes i]
      omega
  · replace hi : (s.pipes ++ [⟨[], some x.trail⟩])[i]? = some pi := hi
    by_cases heq : i = k
    · subst heq
      rw [← hlen, List.getElem?_concat_length] at hi
      cases hi
      have hgiven := hx.wf.unforked hforked
      rw [update_of_ne (by omega), h.unborn (by omega), update_self]
      simp only [hgiven]
      exact ⟨Nat.le_refl _, by omega, (flow_self ..).symm⟩
    · have hi : s.pipes[i]? = some pi := by
        rw [← hi, List.getElem?_append]
        split
        · rfl
        · have hgt : i - s.pipes.length ≠ 0 := by omega
          rw [List.getElem?_eq_none (by omega), List.getElem?_eq_none (by simp; omega)]
      rw [field_update Local.given (by rfl), field_update Local.taken (by rfl)]
      exact h.flow hi

theorem unforked (hk : s.procs[k]? = some x) (hforked : (loc k).forked = false) :
    k + 1 = s.procs.length := by
  have hlt := lt_of_getElem? hk
  by_contra hne
  have hf := (h.forked hlt).mpr (by omega)
  rw [hforked] at hf
  cases hf

theorem fork (here : s.Runs k x (.call Sys.fork c)) :
    Advances N (total s left) ((s.resume k x (c (s.procs.length : Int))).spawn
        { x with run := .code (c (0 : Int)), parent := some k }) := by
  have hk := lt_of_getElem? here.1
  have hx := h.fits here.1
  obtain ⟨hpre, hdrops, n₁, n₂, hlt, hok, hchild⟩ := hx.call here.2
  have hlast := h.unforked here.1 hpre.2.1
  have hne : (s.procs.length : Int) ≠ 0 := by omega
  have heffect : Effect N k Sys.fork (loc k) (s.procs.length : Int) { loc k with forked := true } :=
    .fork hne
  have hparent : Fits N k { x with run := .code (c (s.procs.length : Int)), sent := 0 }
      { loc k with forked := true } n₁ :=
    ⟨hx.fds, rfl, hx.parent, heffect.wf hx.wf hpre, .inl ⟨_, rfl, hok _ _ heffect⟩⟩
  have hnew : Fits N (k + 1) { x with run := .code (c (0 : Int)), parent := some k }
      (loc k).child n₂ :=
    ⟨hx.fds, hx.sent, rfl, hx.wf.child hpre hdrops, .inl ⟨_, rfl, hchild _ .fork⟩⟩
  refine ⟨update (update loc k { loc k with forked := true }) (k + 1) (loc k).child,
    update (update left k n₁) (k + 1) n₂, ?_, ?_⟩
  · have hlen : ((s.resume k x (c (s.procs.length : Int))).spawn
        { x with run := .code (c (0 : Int)), parent := some k }).procs.length = k + 2 := by
      rw [State.spawn, List.length_append, State.resume, State.set, List.length_set, ← hlast]
      rfl
    refine ⟨fun {j y} hj => ?_, fun {j} hj => ?_, fun {j} hj => ?_, fun i => ?_,
      fun {i pi} hi => ?_, ?_⟩
    · obtain ⟨rfl, rfl⟩ | hj := spawn_cases hj
      · have hlen : (s.resume k x (c (s.procs.length : Int))).procs.length = k + 1 := by
          rw [State.resume, State.set, List.length_set, hlast]
        rw [hlen, update_self, update_self]
        exact hnew
      · obtain ⟨rfl, rfl⟩ | ⟨hne, hj⟩ := set_cases hj
        · rw [update_of_ne (by omega), update_self, update_of_ne (by omega),
            update_self]
          exact hparent
        · have hjk := lt_of_getElem? hj
          rw [update_of_ne (by omega), update_of_ne hne, update_of_ne (by omega),
            update_of_ne hne]
          exact h.fits hj
    · rw [hlen] at hj ⊢
      rcases Nat.lt_trichotomy j k with hjk | rfl | hjk
      · rw [update_of_ne (by omega), update_of_ne (by omega), h.forked (by omega)]
        omega
      · rw [update_of_ne (by omega), update_self]
        exact ⟨fun _ => by omega, fun _ => rfl⟩
      · have hjk : j = k + 1 := by omega
        rw [hjk, update_self]
        exact ⟨by simp [Local.child], fun _ => by omega⟩
    · rw [hlen] at hj
      rw [update_of_ne (by omega), update_of_ne (by omega)]
      exact h.unborn (by omega)
    · rw [hlen]
      refine (h.pipes i).trans ?_
      by_cases heq : i = k + 1
      · rw [heq, update_self]
        exact ⟨fun hi => by omega, fun hi => absurd hi.2 (by simp [Local.child])⟩
      · rw [update_of_ne heq, field_update Local.made (by rfl)]
        exact and_congr_left' (by omega)
    · have hi' : i < s.pipes.length := (List.getElem?_eq_some_iff.mp hi).1
      have hik := ((h.pipes i).mp hi').1
      have htaken : (update (update loc k { loc k with forked := true }) (k + 1) (loc k).child
          (i + 1)).taken = (loc (i + 1)).taken := by
        by_cases heq : i = k
        · rw [heq, update_self, h.unborn (by omega)]
          rfl
        · rw [update_of_ne (by omega), field_update Local.taken (by rfl)]
      rw [htaken, update_of_ne (by omega), field_update Local.given (by rfl)]
      exact h.flow hi
    · rw [hlen, List.range_succ, List.flatMap_append, hlast]
      have hold : ∀ j ∈ List.range s.procs.length,
          (update (update loc k { loc k with forked := true })
          s.procs.length (loc k).child j).said = (loc j).said := by
        intro j hj
        rw [update_of_ne (List.mem_range.mp hj).ne, field_update Local.said (by rfl)]
      rw [List.flatMap_congr hold, ← h.out]
      simp [Local.child, State.spawn, State.resume, State.set]
  · refine total_fork hlast.symm ?_ hlt
    rw [State.spawn, List.length_append, State.resume, State.set, List.length_set]
    rfl

/-- Both processes at a pipe, and who can write to it. -/
theorem ends (hpi : s.pipes[i]? = some pi) :
    (∃ y, s.procs[i]? = some y) ∧ (loc i).made = true := by
  obtain ⟨hlt, hmade⟩ := (h.pipes i).mp (List.getElem?_eq_some_iff.mp hpi).1
  exact ⟨⟨_, List.getElem?_eq_getElem hlt⟩, hmade⟩

/-- A process reads the next number, or it has read them all. -/
theorem read_effect
    (hpi : s.pipes[i]? = some pi) (hready : pi.data ≠ [] ∨ ¬s.Held (.writeEnd i)) :
    ∃ ℓ', Effect N (i + 1) (Sys.read fd 4) (loc (i + 1))
    (some (pi.data.take 4) : Option (List UInt8)) ℓ' ∧
      Flow N i (pi.data.drop 4) ℓ'.taken (loc i).given ∧
      ∃ t, ℓ' = { loc (i + 1) with taken := t } := by
  have hflow := h.flow hpi
  obtain ⟨⟨y, hy⟩, hmade⟩ := h.ends hpi
  have hwf := (h.fits hy).wf
  rcases Nat.lt_or_eq_of_le hflow.le with hlt | heq
  · obtain ⟨m, hm⟩ : ∃ m, (stream N i)[(loc (i + 1)).taken]? = some m :=
      ⟨_, List.getElem?_eq_getElem (hlt.trans_le hwf.given_le)⟩
    have hdata := hflow.data.trans (flow_take hlt hm)
    refine ⟨{ loc (i + 1) with taken := (loc (i + 1)).taken + 1 }, ?_, ⟨hlt, ?_, ?_⟩, _, rfl⟩
    · rw [hdata, List.take_left' (length_toBytes _)]
      exact .take rfl hm
    · have := hflow.room
      simp only
      omega
    · rw [hdata, List.drop_left' (length_toBytes _)]
  · have hdata : pi.data = [] := by rw [hflow.data, heq, flow_self]
    have hclosed : ¬Holds (loc i).fds (.writeEnd i) := by
      intro ⟨fd, hfd⟩
      refine hready.resolve_left (not_not.mpr hdata) ⟨y, List.mem_of_getElem? hy, fd, ?_⟩
      rw [(h.fits hy).fds, hfd]
    have hall := hwf.gives hmade hclosed
    refine ⟨loc (i + 1), ?_, ⟨hflow.le, hflow.room, ?_⟩, _, rfl⟩
    · rw [hdata]
      exact .eof rfl (heq.trans hall)
    · rw [hdata, heq, flow_self]
      rfl

theorem read {c : Option (List UInt8) → Code Label}
    (here : s.Runs k x (.call (Sys.read fd m) c)) (hopen : x.fds.get fd = some (.readEnd i))
    (hpi : s.pipes[i]? = some pi) (hready : pi.data ≠ [] ∨ ¬s.Held (.writeEnd i)) :
    Advances N (total s left)
    ((s.setPipe i (pi.data.drop m)).resume k x (c (some (pi.data.take m)))) := by
  have hx := h.fits here.1
  obtain ⟨⟨rfl, j, rfl, hj⟩, -⟩ := hx.call here.2
  rw [hx.fds, hj] at hopen
  cases hopen
  obtain ⟨ℓ', heffect, hflow, t, rfl⟩ := h.read_effect hpi hready
  refine h.advance here heffect rfl rfl hx.fds rfl rfl fun _ hfits =>
    h.set (lt_of_getElem? here.1) hfits rfl rfl (fun i' => ?_) (fun {i' pi'} hi' => ?_)
      (h.out_update rfl)
  · exact (iff_of_eq (congrArg (i' < ·) (length_setPipe ..))).trans (h.pipes_update (by rfl) i')
  · rw [field_update Local.given (by rfl)]
    obtain ⟨rfl, hdata⟩ | ⟨hne, hi'⟩ := setPipe_cases hi'
    · rw [update_self, hdata]
      exact hflow
    · rw [update_of_ne (by omega)]
      exact h.flow hi'

/-- The reader is there as long as there is a number to be written. -/
theorem reader (hk : s.procs[k]? = some x) (hforked : (loc k).forked = true)
    (hm : (stream N k)[(loc k).given]? = some m) : s.Held (.readEnd k) := by
  have hmore := (h.forked (lt_of_getElem? hk)).mp hforked
  obtain ⟨y, hy⟩ : ∃ y, s.procs[k + 1]? = some y := ⟨_, List.getElem?_eq_getElem hmore⟩
  have hmade := (h.fits hk).wf.made hforked
  obtain ⟨pi, hpi⟩ : ∃ pi, s.pipes[k]? = some pi :=
    ⟨_, List.getElem?_eq_getElem ((h.pipes k).mpr ⟨lt_of_getElem? hk, hmade⟩)⟩
  have hle := (h.flow hpi).le
  obtain ⟨hlt, -⟩ := List.getElem?_eq_some_iff.mp hm
  by_contra hnot
  have hall := (h.fits hy).wf.takes k rfl fun ⟨fd, hfd⟩ => hnot ⟨y, List.mem_of_getElem? hy, fd, by
    rw [(h.fits hy).fds, hfd]⟩
  omega

theorem length_data (hpi : s.pipes[i]? = some pi) :
    pi.data.length = 4 * ((loc i).given - (loc (i + 1)).taken) := by
  obtain ⟨⟨y, hy⟩, -⟩ := h.ends hpi
  rw [(h.flow hpi).data, length_flow (h.fits hy).wf.given_le]

variable {bs : List UInt8}

theorem writer
    (here : s.Runs k x (.call (Sys.write fd bs) c)) (hopen : x.fds.get fd = some (.writeEnd i)) :
    i = k ∧ (loc k).forked = true ∧ ∃ m : Nat, (stream N k)[(loc k).given]? = some m ∧
    bs = toBytes m := by
  have hx := h.fits here.1
  rw [hx.fds] at hopen
  obtain ⟨⟨hend, hforked, hm⟩ | ⟨hconsole, -⟩, -⟩ := hx.call here.2
  · rw [hopen] at hend
    cases hend
    exact ⟨rfl, hforked, hm⟩
  · rw [hopen] at hconsole
    cases hconsole

theorem write (here : s.Runs k x (.call (Sys.write fd bs) c))
    (hopen : x.fds.get fd = some (.writeEnd i)) (hpi : s.pipes[i]? = some pi)
    (hfits : bs.length - x.sent + pi.data.length ≤ PIPESIZE) :
    Advances N (total s left)
    ((s.setPipe i (pi.data ++ bs.drop x.sent)).resume k x (c (bs.length : Int))) := by
  have hx := h.fits here.1
  obtain ⟨rfl, hforked, m, hm, rfl⟩ := h.writer here hopen
  have hflow := h.flow hpi
  rw [hx.sent, length_toBytes, h.length_data hpi, PIPESIZE] at hfits
  rw [hx.sent, List.drop_zero]
  rw [hx.fds] at hopen
  refine h.advance here (.give hopen ((toBytes m).length : Int)) rfl rfl hx.fds rfl rfl
    fun _ hfits =>
    h.set (lt_of_getElem? here.1) hfits rfl rfl (fun j => ?_) (fun {j pj} hj => ?_)
      (h.out_update rfl)
  · exact (iff_of_eq (congrArg (j < ·) (length_setPipe ..))).trans (h.pipes_update (by rfl) j)
  · rw [field_update Local.taken (by rfl)]
    obtain ⟨rfl, hdata⟩ | ⟨hne, hj⟩ := setPipe_cases hj
    · rw [update_self, hdata]
      refine ⟨hflow.le.trans (Nat.le_succ _), ?_, ?_⟩
      · simp only
        omega
      · rw [hflow.data, flow_give hflow.le hm]
    · rw [update_of_ne hne]
      exact h.flow hj

theorem say
    (here : s.Runs k x (.call (Sys.write fd bs) c)) (hopen : x.fds.get fd = some .console) :
    Advances N (total s left) ((s.print bs).resume k x (c (bs.length : Int))) := by
  have hx := h.fits here.1
  rw [hx.fds] at hopen
  obtain ⟨⟨hend, -⟩ | ⟨-, hforked, -⟩, -⟩ := hx.call here.2
  · rw [hopen] at hend
    cases hend
  refine h.advance here (.say hopen (bs.length : Int)) rfl rfl hx.fds rfl rfl fun _ hfits =>
    h.set (lt_of_getElem? here.1) hfits rfl rfl (h.pipes_update rfl) (fun {i pi} hi => ?_) ?_
  · rw [field_update Local.taken (by rfl), field_update Local.given (by rfl)]
    exact h.flow hi
  · have hold : ∀ j ∈ List.range k,
        (update loc k { loc k with said := (loc k).said ++ bs } j).said =
        (loc j).said := by
      intro j hj
      rw [update_of_ne (List.mem_range.mp hj).ne]
    change s.out ++ bs = _
    rw [h.out, ← h.unforked here.1 hforked, List.range_succ, List.flatMap_append,
      List.flatMap_append,
      List.flatMap_congr hold, List.flatMap_singleton, List.flatMap_singleton, update_self,
        List.append_assoc]

/-- Every step of the chain takes one of the steps left. -/
theorem step (hN : N < 2 ^ 31) (hs : Step (prog N) true s s') :
    ∃ loc' left', Chain N s' loc' left' ∧ total s' left' < total s left := by
  cases hs with
  | jump here => exact h.jump hN here
  | fork here => exact h.fork here
  | exitClose here hopen => exact h.exitClose here hopen
  | exit here hclosed => exact h.exit here hclosed
  | wait here hq _ hzombie => exact h.wait here hq hzombie
  | waitNone here => exact h.effect here (.wait (-1 : Int)) rfl rfl (h.fits here.1).fds rfl rfl
  | pipe here hread hwrite => exact h.pipe here hread hwrite
  | close here hopen =>
    have hfds := (h.fits here.1).fds
    rw [hfds] at hopen
    exact h.effect here (.close hopen) rfl rfl (by simp only [hfds]) rfl rfl
  | closeFail here hclosed =>
    have hfds := (h.fits here.1).fds
    rw [hfds] at hclosed
    exact h.effect here (.closeFail hclosed) rfl rfl hfds rfl rfl
  | dup here | dupFail here | openFile here | exec here =>
    exact absurd ((h.fits here.1).call here.2).1 not_false
  | imageClose here hrun | imageExit here hrun =>
    obtain ⟨c, hc, -⟩ | ⟨hexit | hexit, -⟩ := (h.fits here).run
    all_goals simp_all
  | read here hopen hpi hready => exact h.read here hopen hpi hready
  | readOther here hopen hother =>
    obtain ⟨⟨-, i, -, hi⟩, -⟩ := (h.fits here.1).call here.2
    rw [(h.fits here.1).fds, hi] at hopen
    cases hopen
    exact absurd rfl (hother i).1
  | readFail here hclosed =>
    obtain ⟨⟨-, i, -, hi⟩, -⟩ := (h.fits here.1).call here.2
    rw [(h.fits here.1).fds, hi] at hclosed
    obtain hclosed | ⟨j, hclosed⟩ := hclosed <;> cases hclosed
  | write here hopen hpi _ hfits => exact h.write here hopen hpi hfits
  | writePart here hopen hpi _ hroom hfull =>
    -- numbers do not cross the end of the pipe
    obtain ⟨rfl, -, m, -, rfl⟩ := h.writer here hopen
    rw [h.length_data hpi, PIPESIZE] at hroom
    rw [h.length_data hpi, length_toBytes, PIPESIZE] at hfull
    omega
  | writeBroken here hopen _ hreader =>
    obtain ⟨rfl, hforked, m, hm, -⟩ := h.writer here hopen
    exact absurd (h.reader here.1 hforked hm) hreader
  | writeConsole here hopen => exact h.say here hopen
  | writeFile here hopen =>
    have hx := h.fits here.1
    rw [hx.fds] at hopen
    obtain ⟨⟨hend, -⟩ | ⟨hend, -⟩, -⟩ := hx.call here.2
    all_goals rw [hopen] at hend; cases hend
  | writeFail here hclosed =>
    have hx := h.fits here.1
    rw [hx.fds] at hclosed
    obtain ⟨⟨hend, -⟩ | ⟨hend, -⟩, -⟩ := hx.call here.2
    all_goals rw [hend] at hclosed; obtain hclosed | ⟨j, hclosed⟩ := hclosed <;> cases hclosed

end Chain

end

end Xv6.Primes
