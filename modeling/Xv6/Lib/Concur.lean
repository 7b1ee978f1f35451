import Xv6.Lib.Prog

/-!
# Interleaved programs and rely-guarantee reasoning

Several processes run programs over one shared state, one operation at a time, in any order.
A process that is idle may start a new program; the environment may change the state between
any two operations. A rely-guarantee proof has two halves. `RelyGuarantee` fixes an invariant and
a precondition for each operation, under which the operation keeps the invariant and respects the
*rely* of the other processes. `Safe` is the thread-modular judgment about one program: it meets
these preconditions whatever the rely lets the others do. `Config.Good.reaches` puts them
together: in every reachable configuration the invariant holds and so does the precondition of
every operation that comes next.

A guard restricts the runs under consideration to those whose operations all meet it.
-/

namespace Xv6.Lib

open Function

variable {E : Iface} {σ ε P α β : Type}

/-- Shared state together with what each process still has to do. -/
structure Config (E : Iface) (σ P : Type) where
  st : σ
  prog : P → Prog E Unit

/-- The parts of an interleaved system: the machine, the guard on its operations, the programs
an idle process may start, and the steps of the environment. -/
structure System (E : Iface) (σ ε P : Type) where
  exec : P → (o : E.Op) → σ → Outcome ε (E.Res o × σ)
  guard : P → E.Op → σ → Prop
  calls : P → σ → Prog E Unit → Prop
  env : σ → σ → Prop

namespace System

variable (S : System E σ ε P) [DecidableEq P]

inductive Step : Config E σ P → Config E σ P → Prop
  | op {c : Config E σ P} {p : P} {o : E.Op} {k : E.Res o → Prog E Unit} {r : E.Res o} {s' : σ}
      (next : c.prog p = .call o k) (allowed : S.guard p o c.st)
      (exec : S.exec p o c.st = .ok (r, s')) :
      Step c ⟨s', update c.prog p (k r)⟩
  | start {c : Config E σ P} {p : P} {x : Prog E Unit}
      (idle : c.prog p = .ret ()) (call : S.calls p c.st x) :
      Step c ⟨c.st, update c.prog p x⟩
  | env {c : Config E σ P} {s' : σ} (step : S.env c.st s') : Step c ⟨s', c.prog⟩

/-- A step of the others than `p`. -/
inductive Others (p : P) : Config E σ P → Config E σ P → Prop
  | op {c : Config E σ P} {q : P} {o : E.Op} {k : E.Res o → Prog E Unit} {r : E.Res o} {s' : σ}
      (other : q ≠ p)
      (next : c.prog q = .call o k) (allowed : S.guard q o c.st)
      (exec : S.exec q o c.st = .ok (r, s')) :
      Others p c ⟨s', update c.prog q (k r)⟩
  | start {c : Config E σ P} {q : P} {x : Prog E Unit} (other : q ≠ p)
      (idle : c.prog q = .ret ()) (call : S.calls q c.st x) :
      Others p c ⟨c.st, update c.prog q x⟩
  | env {c : Config E σ P} {s' : σ} (step : S.env c.st s') : Others p c ⟨s', c.prog⟩

/-- Process `p` runs `x` to its result `a`, with `k` to be done afterwards, from `c` to `c'`; the
others may make steps before each of its operations. -/
inductive Returns (p : P) (k : α → Prog E Unit) : Prog E α → Config E σ P → α → Config E σ P → Prop
  | ret {c : Config E σ P} {a : α} (here : c.prog p = k a) : Returns p k (.ret a) c a c
  | call {c c' : Config E σ P} {o : E.Op} {f : E.Res o → Prog E α} {r : E.Res o} {s' : σ} {a : α}
      (here : c.prog p = .call o fun r => (f r).bind k) (allowed : S.guard p o c.st)
      (exec : S.exec p o c.st = .ok (r, s'))
      (rest : Returns p k (f r) ⟨s', update c.prog p ((f r).bind k)⟩ a c') :
      Returns p k (.call o f) c a c'
  | other {c c₁ c' : Config E σ P} {o : E.Op} {f : E.Res o → Prog E α} {a : α}
      (step : S.Others p c c₁)
      (rest : Returns p k (.call o f) c₁ a c') : Returns p k (.call o f) c a c'

/-- Configurations reachable from `c`. -/
def Reaches : Config E σ P → Config E σ P → Prop := Relation.ReflTransGen S.Step

/-- In `c`, the next operation of some process panics with `e`. -/
def Panics (c : Config E σ P) (e : ε) : Prop :=
  ∃ p o k, c.prog p = .call o k ∧ S.guard p o c.st ∧ S.exec p o c.st = .panic e

variable {S} {p : P} {c c' : Config E σ P}

theorem Others.step (h : S.Others p c c') : S.Step c c' := by
  cases h with
  | op other next allowed exec => exact .op next allowed exec
  | start other idle call => exact .start idle call
  | env step => exact .env step

theorem Others.prog_eq (h : S.Others p c c') : c'.prog p = c.prog p := by
  cases h with
  | op other => exact update_of_ne other.symm ..
  | start other => exact update_of_ne other.symm ..
  | env => rfl

variable {k : α → Prog E Unit} {x : Prog E α} {a : α}

theorem Returns.prog_eq (h : S.Returns p k x c a c') :
    c.prog p = x.bind k := by
  induction h with
  | ret here => exact here
  | call here => exact here
  | other step rest ih => exact step.prog_eq.symm.trans ih

theorem Returns.reaches (h : S.Returns p k x c a c') :
    S.Reaches c c' := by
  induction h with
  | ret => exact .refl
  | call here allowed exec rest ih => exact .head (.op here allowed exec) ih
  | other step rest ih => exact .head step.step ih

/-- A run without interference is one in which the others make no steps. -/
theorem Returns.of_run {s' : σ} (allowed : ∀ o s, S.guard p o s)
    (here : c.prog p = x.bind k) (h : x.run (S.exec p) c.st = .ok (a, s')) :
    S.Returns p k x c a ⟨s', update c.prog p (k a)⟩ := by
  induction x generalizing c with
  | ret b =>
    cases h
    have hc : (⟨c.st, update c.prog p (k a)⟩ : Config E σ P) = c := by
      rw [show k a = c.prog p from here.symm, update_eq_self]
    rw [hc]
    exact .ret here
  | call o f ih =>
    simp only [Prog.run] at h
    split at h
    · rename_i r s₁ he
      have rest := ih r (c := ⟨s₁, update c.prog p ((f r).bind k)⟩)
        (update_self ..) h
      rw [update_idem] at rest
      exact .call here (allowed o c.st) he rest
    · cases h
    · cases h

end System

/-! ## Replaying a schedule -/

/-- Process `p` is in no call. -/
def Config.isIdle (c : Config E σ P) (p : P) : Bool :=
  match c.prog p with
  | .ret _ => true
  | .call .. => false

theorem Config.prog_of_isIdle {c : Config E σ P} {p : P} (h : c.isIdle p = true) :
    c.prog p = .ret () := by
  unfold isIdle at h
  split at h
  · assumption
  · cases h

/-- One entry of a schedule: an operation of a process, a call, or a step of the environment. -/
inductive Move (E : Iface) (σ P : Type) where
  | op (p : P)
  | start (p : P) (x : Prog E Unit)
  -- a call that is made only in some states
  | startIf (b : σ → Bool) (p : P) (x : Prog E Unit)
  | env (f : σ → Option σ)

namespace Move

variable [DecidableEq P]

/-- Make one move, if the operation is one that `allow` admits. -/
def play (exec : P → (o : E.Op) → σ → Outcome ε (E.Res o × σ)) (allow : P → E.Op → σ → Bool)
    (c : Config E σ P) : Move E σ P → Option (Config E σ P)
  | .op p =>
    match c.prog p with
    | .ret _ => none
    | .call o k =>
      if allow p o c.st then
        match exec p o c.st with
        | .ok (r, s') => some ⟨s', update c.prog p (k r)⟩
        | _ => none
      else none
  | .start p x =>
    match c.prog p with
    | .ret _ => some ⟨c.st, update c.prog p x⟩
    | .call .. => none
  | .startIf b p x =>
    match c.prog p with
    | .ret _ => if b c.st then some ⟨c.st, update c.prog p x⟩ else none
    | .call .. => none
  | .env f => (f c.st).map fun s' => ⟨s', c.prog⟩

/-- The system has the call, or the step of the environment wherever it is possible. -/
def Legal (S : System E σ ε P) : Move E σ P → Prop
  | .op _ => True
  | .start p x => ∀ s, S.calls p s x
  | .startIf b p x => ∀ s, b s = true → S.calls p s x
  | .env f => ∀ s s', f s = some s' → S.env s s'

variable {S : System E σ ε P} {allow : P → E.Op → σ → Bool} {c c' : Config E σ P}

theorem Legal.step {m : Move E σ P} (hm : m.Legal S)
    (hallow : ∀ p o s, allow p o s = true → S.guard p o s)
    (h : m.play S.exec allow c = some c') : S.Step c c' := by
  cases m with
  | op p =>
    simp only [play] at h
    split at h
    · cases h
    · split at h
      · split at h
        · cases h
          exact .op ‹_› (hallow _ _ _ ‹_›) ‹_›
        · cases h
      · cases h
  | start p x =>
    simp only [play] at h
    split at h
    · cases h
      exact .start ‹_› (hm _)
    · cases h
  | startIf b p x =>
    simp only [play] at h
    split at h
    · split at h
      · cases h
        exact .start ‹_› (hm _ ‹_›)
      · cases h
    · cases h
  | env f =>
    obtain ⟨s', hs', rfl⟩ := Option.map_eq_some_iff.1 h
    exact .env (hm _ _ hs')

/-- A schedule that can be replayed is a run. -/
theorem Legal.reaches {ms : List (Move E σ P)} (hms : ∀ m ∈ ms, m.Legal S)
    (hallow : ∀ p o s, allow p o s = true → S.guard p o s)
    (h : ms.foldlM (play S.exec allow) c = some c') : S.Reaches c c' := by
  induction ms generalizing c with
  | nil =>
    cases h
    exact .refl
  | cons m ms ih =>
    rw [List.foldlM_cons, Option.bind_eq_bind, Option.bind_eq_some_iff] at h
    obtain ⟨c₁, h₁, h⟩ := h
    exact .head ((hms m List.mem_cons_self).step hallow h₁)
      (ih (fun m' hm' => hms m' (.tail _ hm')) h)

end Move

/-- A rely-guarantee proof outline: a global invariant, the rely of each process, the condition
under which a process is idle, the precondition of every operation, and the panics that are
tolerated; with the proof that an operation executed under its precondition keeps the invariant
and guarantees every other process its rely. -/
structure RelyGuarantee (S : System E σ ε P) where
  Inv : σ → Prop
  Rely : P → σ → σ → Prop
  Idle : P → σ → Prop
  Pre : P → E.Op → σ → Prop
  Tol : ε → Prop
  rely_refl : ∀ p s, Rely p s s
  rely_trans : ∀ {p s₁ s₂ s₃}, Rely p s₁ s₂ → Rely p s₂ s₃ → Rely p s₁ s₃
  idle_stable : ∀ {p s s'}, Rely p s s' → Idle p s → Idle p s'
  op_ok : ∀ {p o s r s'}, Inv s → S.guard p o s → Pre p o s → S.exec p o s = .ok (r, s') →
    Inv s' ∧ ∀ q, q ≠ p → Rely q s s'
  op_panic : ∀ {p o s e}, Inv s → S.guard p o s → Pre p o s → S.exec p o s = .panic e → Tol e
  env_ok : ∀ {s s'}, S.env s s' → Inv s → Inv s' ∧ ∀ p, Rely p s s'

variable {S : System E σ ε P} (G : RelyGuarantee S)

/-- Process `p`, about to run `x` in state `s`, meets the precondition of each of its operations
whatever the others do in between, and ends with `Q`. -/
def Safe (p : P) (Q : α → σ → Prop) : Prog E α → σ → Prop
  | .ret a, s => Q a s
  | .call o k, s => ∀ s', G.Rely p s s' → G.Inv s' → S.guard p o s' →
    G.Pre p o s' ∧ ∀ r s'', S.exec p o s' = .ok (r, s'') → Safe p Q (k r) s''

namespace Safe

variable {G} {p : P} {Q : α → σ → Prop} {Q' : β → σ → Prop} {s s' : σ}

variable {x : Prog E α}

theorem mono {Q' : α → σ → Prop} (h : Safe G p Q x s)
    (hQ : ∀ a s', Q a s' → Q' a s') : Safe G p Q' x s := by
  induction x generalizing s with
  | ret a => exact hQ _ _ h
  | call o k ih =>
    intro s' hR hI hg
    obtain ⟨hp, hk⟩ := h s' hR hI hg
    exact ⟨hp, fun r s'' he => ih r (hk r s'' he)⟩

theorem bind {f : α → Prog E β} (h : Safe G p Q x s)
    (hf : ∀ a s', Q a s' → Safe G p Q' (f a) s') : Safe G p Q' (x.bind f) s := by
  induction x generalizing s with
  | ret a => exact hf _ _ h
  | call o k ih =>
    intro s' hR hI hg
    obtain ⟨hp, hk⟩ := h s' hR hI hg
    exact ⟨hp, fun r s'' he => ih r (hk r s'' he)⟩

theorem stable (hQ : ∀ a s s', G.Rely p s s' → Q a s → Q a s')
    (hR : G.Rely p s s') (h : Safe G p Q x s) : Safe G p Q x s' := by
  cases x with
  | ret a => exact hQ _ _ _ hR h
  | call o k => exact fun s'' hR' => h s'' (G.rely_trans hR hR')

/-- The rule of one operation. The assertion `A` before it must survive the steps of the others. -/
theorem call {A : σ → Prop} {o : E.Op} {k : E.Res o → Prog E α} (hA : A s)
    (stableA : ∀ s s', G.Rely p s s' → A s → A s')
    (pre : ∀ s, G.Inv s → S.guard p o s → A s → G.Pre p o s)
    (next : ∀ s r s', G.Inv s → G.Inv s' → S.guard p o s → A s → S.exec p o s = .ok (r, s') →
      Safe G p Q (k r) s') :
    Safe G p Q (.call o k) s := by
  intro s' hR hI hg
  have hA' := stableA _ _ hR hA
  have hp := pre s' hI hg hA'
  exact ⟨hp, fun r s'' he => next s' r s'' hI (G.op_ok hI hg hp he).1 hg hA' he⟩

/-- A safe program run alone, with whatever else (`J`) its operations keep. -/
theorem wp {P : E.Op → Prop} {J : σ → Prop} {tol : Option ε → Prop}
    (h : Safe G p Q x s) (hI : G.Inv s) (hJ : J s) (hx : x.All P)
    (allowed : ∀ o s, P o → S.guard p o s)
    (step : ∀ o s r s', P o → G.Inv s → G.Inv s' → J s → G.Pre p o s →
      S.exec p o s = .ok (r, s') → J s')
    (blocked : tol none) (panic : ∀ o s e, P o → S.exec p o s = .panic e → tol (some e)) :
    x.Wp (S.exec p) tol (fun a s' => Q a s' ∧ G.Inv s' ∧ J s') s := by
  induction x generalizing s with
  | ret a => exact ⟨h, hI, hJ⟩
  | call o k ih =>
    have hg := allowed o s hx.1
    obtain ⟨hp, hk⟩ := h s (G.rely_refl p s) hI hg
    unfold Prog.Wp
    split
    · rename_i r s' he
      have hI' := (G.op_ok hI hg hp he).1
      exact ih r (hk r s' he) hI' (step o s r s' hx.1 hI hI' hJ hp he) (hx.2 r)
    · exact blocked
    · rename_i e he
      exact panic o s e hx.1 he

end Safe

/-! ## Uninterrupted runs -/

/-- Process `p` runs `x` from `s` to `s'` with result `a` while the others wait, each of its
operations in a state with `I`. -/
inductive Solo (S : System E σ ε P) (p : P) (I : σ → Prop) : Prog E α → σ → α → σ → Prop
  | ret (a : α) (s : σ) : Solo S p I (.ret a) s a s
  | call {o : E.Op} {k : E.Res o → Prog E α} {s s₁ s' : σ} {r : E.Res o} {a : α} (here : I s)
      (allowed : S.guard p o s) (exec : S.exec p o s = .ok (r, s₁))
      (rest : Solo S p I (k r) s₁ a s') :
      Solo S p I (.call o k) s a s'

namespace Solo

variable {p : P} {I : σ → Prop} {a : α} {s s' s'' : σ}

variable {x : Prog E α}

theorem bind {f : α → Prog E β} {b : β} (h : Solo S p I x s a s')
    (hf : Solo S p I (f a) s' b s'') : Solo S p I (x.bind f) s b s'' := by
  induction h with
  | ret => exact hf
  | call here allowed exec _ ih => exact .call here allowed exec (ih hf)

/-- A run of one process is a run of the system. -/
theorem reaches [DecidableEq P] {c : Config E σ P} {x : Prog E Unit} {a : Unit}
    (h : Solo S p I x s a s') (prog : c.prog p = x) (st : c.st = s) :
    Relation.ReflTransGen (fun c c' => I c.st ∧ S.Step c c') c
      ⟨s', update c.prog p (.ret a)⟩ := by
  induction h generalizing c with
  | ret =>
    rw [← st, ← prog, update_eq_self]
  | @call o k s s₁ s' r a here allowed exec _ ih =>
    subst st
    have := @ih ⟨s₁, update c.prog p (k r)⟩ (update_self ..) rfl
    rw [update_idem] at this
    exact .head ⟨here, .op prog allowed exec⟩ this

theorem safe {Q : α → σ → Prop} (h : Solo S p I x s a s') (hI : G.Inv s)
    (hx : Safe G p Q x s) : Q a s' ∧ G.Inv s' := by
  induction h with
  | ret => exact ⟨hx, hI⟩
  | call _ allowed exec _ ih =>
    obtain ⟨hp, hk⟩ := hx _ (G.rely_refl ..) hI allowed
    exact ih (G.op_ok hI allowed hp exec).1 (hk _ _ exec)

end Solo

variable [DecidableEq P]

/-- What a rely-guarantee proof establishes in every reachable configuration. -/
structure Config.Good (c : Config E σ P) : Prop where
  inv : G.Inv c.st
  safe : ∀ p, Safe G p (fun _ => G.Idle p) (c.prog p) c.st

namespace Config.Good

variable {G} {c c' : Config E σ P}

omit [DecidableEq P] in
/-- In a good configuration every operation that may be executed next meets its precondition. -/
theorem pre (h : c.Good G) {o : E.Op} {k : E.Res o → Prog E Unit} (next : c.prog p = .call o k)
    (allowed : S.guard p o c.st) : G.Pre p o c.st := by
  have hp := h.safe p
  rw [next] at hp
  exact (hp _ (G.rely_refl ..) h.inv allowed).1

theorem step
    (calls : ∀ {p s x}, S.calls p s x → G.Inv s → G.Idle p s → Safe G p (fun _ => G.Idle p) x s)
    (h : c.Good G) (hs : S.Step c c') : c'.Good G := by
  have keep : ∀ {q s'}, G.Rely q c.st s' → Safe G q (fun _ => G.Idle q) (c.prog q) s' :=
    fun hR => (h.safe _).stable (fun _ _ _ => G.idle_stable) hR
  cases hs with
  | @op p o k r s' next allowed exec =>
    obtain ⟨hI, hG⟩ := G.op_ok h.inv allowed (h.pre next allowed) exec
    refine ⟨hI, fun q => ?_⟩
    by_cases hq : q = p
    · subst hq
      have hp := h.safe q
      rw [next] at hp
      simpa using (hp _ (G.rely_refl ..) h.inv allowed).2 r s' exec
    · simpa [update_of_ne hq] using keep (hG q hq)
  | @start p x idle call =>
    have hp := h.safe p
    rw [idle] at hp
    refine ⟨h.inv, fun q => ?_⟩
    by_cases hq : q = p
    · subst hq; simpa using calls call h.inv hp
    · simpa [update_of_ne hq] using h.safe q
  | env hstep =>
    obtain ⟨hI, hR⟩ := G.env_ok hstep h.inv
    exact ⟨hI, fun q => keep (hR q)⟩

/-- Soundness: every reachable configuration is good. -/
theorem reaches
    (calls : ∀ {p s x}, S.calls p s x → G.Inv s → G.Idle p s → Safe G p (fun _ => G.Idle p) x s)
    (h : c.Good G) (hr : S.Reaches c c') : c'.Good G := by
  induction hr with
  | refl => exact h
  | tail _ hs ih => exact ih.step calls hs

/-- A process returns from a safe program with the postcondition, whatever the others did. -/
theorem returns
    (calls : ∀ {p s x}, S.calls p s x → G.Inv s → G.Idle p s → Safe G p (fun _ => G.Idle p) x s)
    (h : c.Good G) {Q : α → σ → Prop} {k : α → Prog E Unit} {x : Prog E α} {a : α}
    (hr : S.Returns p k x c a c') (hx : Safe G p Q x c.st) : Q a c'.st := by
  induction hr with
  | ret => exact hx
  | call here allowed exec rest ih =>
    have hk := (hx _ (G.rely_refl ..) h.inv allowed).2 _ _ exec
    exact ih (h.step calls (.op here allowed exec)) hk
  | @other c c₁ c' o f a step rest ih =>
    have hR : G.Rely p c.st c₁.st := by
      cases step with
      | op other next allowed exec =>
        exact (G.op_ok h.inv allowed (h.pre next allowed) exec).2 p other.symm
      | start => exact G.rely_refl ..
      | env step => exact (G.env_ok step h.inv).2 p
    exact ih (h.step calls step.step) fun s' hR' => hx s' (G.rely_trans hR hR')

end Config.Good

end Xv6.Lib
