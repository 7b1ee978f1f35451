import Xv6.User.Machine
import Mathlib.Data.List.Infix

/-!
# Every block is run once

In a program whose blocks make at most one pipe, before they fork, and whose forks part the blocks
that come after (`Linear`), no two processes come through the same labels: whatever one process may
still reach, no other is at or may reach. So a pipe is determined by the labels of its maker.
-/

namespace Xv6.User

open Lib List

variable {L : Type}

/-! ## Blocks -/

/-- The labels at which the rest of a block may end. -/
def EndsAt : Code L → L → Prop
  | .ret l, l' => l' = l
  | .call _ k, l' => ∃ r, EndsAt (k r) l'

/-- The rest of the block may still make a pipe. -/
def MayPipe : Code L → Prop
  | .ret _ => False
  | .call o k => o = Sys.pipe ∨ ∃ r, MayPipe (k r)

/-- Parent and child end at different labels; no pipe is made after a fork or after another pipe. -/
def Linear : Code L → Prop
  | .ret _ => True
  | .call o k => (∀ r, Linear (k r)) ∧ (o = Sys.fork ∨ o = Sys.pipe → ∀ r, ¬MayPipe (k r)) ∧
    match o, k with
    | Sys.fork, k => ∀ l (r : Int), EndsAt (k (0 : Int)) l → r ≠ 0 → ¬EndsAt (k r) l
    | _, _ => True

/-- What a process may still come to. -/
def Proc.Ahead (x : Proc L) (σ : List L) : Prop :=
  ∃ c, x.run = .code c ∧ (MayPipe c ∧ σ = x.trail ∨ ∃ l, EndsAt c l ∧ l :: x.trail <:+ σ)

def State.makers (s : State L) : List (Option (List L)) := s.pipes.map Pipe.maker

/-- Pipe `i` was made by a process that came through `σ`. -/
def State.Made (s : State L) (i : Nat) (σ : List L) : Prop := s.makers[i]? = some (some σ)

structure Lineage (s : State L) : Prop where
  linear : ∀ {p x c}, s.Runs p x c → Linear c
  apart : ∀ {p q : Nat} {x y : Proc L} {σ}, s.procs[p]? = some x → s.procs[q]? = some y → p ≠ q →
    x.Ahead σ → ¬y.Ahead σ ∧ y.trail ≠ σ
  made : ∀ {i p : Nat} {x : Proc L} {σ}, s.Made i σ → s.procs[p]? = some x → ¬x.Ahead σ
  unique : ∀ {i j σ}, s.Made i σ → s.Made j σ → i = j

/-! ## Steps -/

section

variable {s : State L} {p : Nat} {x x' : Proc L}

variable {q : Nat} {y : Proc L}

theorem set_cases (h : (s.set p x).procs[q]? = some y) :
    q = p ∧ y = x ∨ q ≠ p ∧ s.procs[q]? = some y := by
  rw [State.set, getElem?_set] at h
  split at h
  · rename_i he
    split at h
    · cases h
      exact .inl ⟨he.symm, rfl⟩
    · cases h
  · rename_i hne
    exact .inr ⟨Ne.symm hne, h⟩

theorem spawn_cases (h : (s.spawn x).procs[q]? = some y) :
    q = s.procs.length ∧ y = x ∨ s.procs[q]? = some y := by
  rw [State.spawn, getElem?_append] at h
  split at h
  · exact .inr h
  · rw [getElem?_singleton] at h
    split at h
    · cases h
      exact .inl ⟨by omega, rfl⟩
    · cases h

variable {i : Nat} {data : List UInt8}

theorem makers_setPipe : (s.setPipe i data).makers = s.makers := by
  rw [State.makers, State.setPipe, State.makers]
  refine ext_getElem? fun j => ?_
  rw [getElem?_map, getElem?_map, getElem?_modify]
  cases s.pipes[j]? with
  | none => rfl
  | some pi =>
    by_cases h : i = j <;> simp [h]

variable {o : Sys} {σ : List L}

theorem ahead_resume {k : iface.Res o → Code L} {r : iface.Res o} {fds : Table} {sent : Nat}
    (hx : x.run = .code (.call o k))
    (h : ({ x with run := .code (k r), fds := fds, sent := sent } : Proc L).Ahead σ) :
    x.Ahead σ := by
  obtain ⟨c, hc, h⟩ := h
  cases hc
  refine ⟨_, hx, ?_⟩
  obtain ⟨hpipe, rfl⟩ | ⟨l, hl, hsuffix⟩ := h
  · exact .inl ⟨.inr ⟨r, hpipe⟩, rfl⟩
  · exact .inr ⟨l, ⟨r, hl⟩, hsuffix⟩

theorem Linear.resume {k : iface.Res o → Code L} (h : Linear (.call o k)) (r : iface.Res o) :
    Linear (k r) := h.1 r

theorem Lineage.set (h : Lineage s) (hp : s.procs[p]? = some x)
    (hlinear : ∀ c, x'.run = .code c → Linear c)
    (hahead : ∀ σ, x'.Ahead σ → x.Ahead σ) (htrail : x'.trail = x.trail ∨ x.Ahead x'.trail) :
    Lineage (s.set p x') where
  linear {q y c} hq := by
    obtain ⟨hq, hrun⟩ := hq
    obtain ⟨-, rfl⟩ | ⟨-, hq⟩ := set_cases hq
    · exact hlinear c hrun
    · exact h.linear ⟨hq, hrun⟩
  apart {q q' y y' σ} hq hq' hne hy := by
    obtain ⟨rfl, rfl⟩ | ⟨-, hq₁⟩ := set_cases hq
    · obtain ⟨rfl, -⟩ | ⟨-, hq₁'⟩ := set_cases hq'
      · exact absurd rfl hne
      · exact h.apart hp hq₁' hne (hahead σ hy)
    · obtain ⟨rfl, rfl⟩ | ⟨-, hq₁'⟩ := set_cases hq'
      · obtain ⟨hnot, hat⟩ := h.apart hq₁ hp hne hy
        refine ⟨fun hx => hnot (hahead σ hx), fun he => ?_⟩
        obtain htrail | htrail := htrail
        · exact hat (htrail.symm.trans he)
        · rw [he] at htrail
          exact hnot htrail
      · exact h.apart hq₁ hq₁' hne hy
  made {i q y σ} hi hq hy := by
    obtain ⟨-, rfl⟩ | ⟨-, hq⟩ := set_cases hq
    · exact h.made hi hp (hahead σ hy)
    · exact h.made hi hq hy
  unique := h.unique

theorem Lineage.resume {k : iface.Res o → Code L} (h : Lineage s) (hp : s.Runs p x (.call o k))
    (r : iface.Res o) (fds : Table) : Lineage (s.resume p { x with fds := fds } (k r)) := by
  refine h.set hp.1 ?_ (fun σ => ahead_resume hp.2) (.inl rfl)
  rintro c ⟨⟩
  exact (h.linear hp).resume r

theorem Lineage.stop (h : Lineage s) (hp : s.procs[p]? = some x) (htrail : x'.trail = x.trail)
    (hstop : ∀ c, x'.run ≠ .code c) : Lineage (s.set p x') := by
  refine h.set hp (fun c hc => absurd hc (hstop c)) ?_ (.inl htrail)
  rintro σ ⟨c, hc, -⟩
  exact absurd hc (hstop c)

theorem Lineage.keep (h : Lineage s) (hp : s.procs[p]? = some x) (htrail : x'.trail = x.trail)
    (hrun : x'.run = x.run) : Lineage (s.set p x') := by
  refine h.set hp (fun c hc => h.linear ⟨hp, hrun.symm.trans hc⟩) ?_ (.inl htrail)
  rintro σ ⟨c, hc, hσ⟩
  rw [htrail] at hσ
  exact ⟨c, hrun.symm.trans hc, hσ⟩

variable {prog : L → Code L}

theorem Lineage.jump (hprog : ∀ l, Linear (prog l)) {l : L} (h : Lineage s)
    (hp : s.Runs p x (.ret l)) :
    Lineage (s.set p { x with run := .code (prog l), trail := l :: x.trail }) := by
  have hahead : x.Ahead (l :: x.trail) := ⟨_, hp.2, .inr ⟨l, rfl, suffix_rfl⟩⟩
  refine h.set hp.1 ?_ ?_ (.inr hahead)
  · rintro c ⟨⟩
    exact hprog l
  · rintro σ ⟨c, -, ⟨-, rfl⟩ | ⟨l', -, hsuffix⟩⟩
    · exact hahead
    · exact ⟨_, hp.2, .inr ⟨l, rfl, (suffix_cons l' _).trans hsuffix⟩⟩

/-- A new process, next to one that has made room for it. -/
theorem Lineage.spawn (h : Lineage s) (hp : s.procs[p]? = some x) (htrail : y.trail = x.trail)
    (hlinear : ∀ c, y.run = .code c → Linear c) (hfree : ∀ σ, y.Ahead σ → ¬x.Ahead σ ∧ x.trail ≠ σ)
    (hat : ¬x.Ahead x.trail)
    (hothers : ∀ q z σ, s.procs[q]? = some z → q ≠ p → y.Ahead σ → ¬z.Ahead σ ∧ z.trail ≠ σ)
    (hmade : ∀ i σ, s.Made i σ → ¬y.Ahead σ) : Lineage (s.spawn y) where
  linear {q z c} hq := by
    obtain ⟨hq, hrun⟩ := hq
    obtain ⟨-, rfl⟩ | hq := spawn_cases hq
    · exact hlinear c hrun
    · exact h.linear ⟨hq, hrun⟩
  apart {q q' z z' σ} hq hq' hne hz := by
    obtain ⟨rfl, rfl⟩ | hq₁ := spawn_cases hq
    · obtain ⟨rfl, -⟩ | hq₁' := spawn_cases hq'
      · exact absurd rfl hne
      · by_cases he : q' = p
        · subst he
          obtain rfl := Option.some.inj (hp.symm.trans hq₁')
          exact hfree σ hz
        · exact hothers q' z' σ hq₁' he hz
    · obtain ⟨rfl, rfl⟩ | hq₁' := spawn_cases hq'
      · by_cases he : q = p
        · subst he
          obtain rfl := Option.some.inj (hp.symm.trans hq₁)
          refine ⟨fun hy => (hfree σ hy).1 hz, fun heq => hat ?_⟩
          rwa [← htrail, heq]
        · refine ⟨fun hy => (hothers q z σ hq₁ he hy).1 hz, fun heq => (h.apart hq₁ hp he hz).2 ?_⟩
          rw [← htrail, heq]
      · exact h.apart hq₁ hq₁' hne hz
  made {i q z σ} hi hq hz := by
    obtain ⟨-, rfl⟩ | hq := spawn_cases hq
    · exact hmade i σ hi hz
    · exact h.made hi hq hz
  unique := h.unique

theorem Lineage.fork {k : Int → Code L} (h : Lineage s) (hp : s.Runs p x (.call Sys.fork k)) :
    Lineage
      ((s.resume p x (k (s.procs.length : Int))).spawn
        { x with run := .code (k (0 : Int)), parent := some p }) := by
  obtain ⟨hlinear, hpipe, hends⟩ := h.linear hp
  have hlt : p < s.procs.length := (List.getElem?_eq_some_iff.1 hp.1).1
  have hne : (s.procs.length : Int) ≠ 0 := by omega
  have hchild {σ : List L}
      (hy : ({ x with run := .code (k (0 : Int)), parent := some p } : Proc L).Ahead σ) :
      ∃ l, EndsAt (k (0 : Int)) l ∧ l :: x.trail <:+ σ := by
    obtain ⟨c, ⟨⟩, ⟨hmay, -⟩ | hl⟩ := hy
    · exact absurd hmay (hpipe (.inl rfl) (0 : Int))
    · exact hl
  have hahead {σ : List L}
      (hy : ({ x with run := .code (k (0 : Int)), parent := some p } : Proc L).Ahead σ) :
        x.Ahead σ := by
    obtain ⟨l, hl, hsuffix⟩ := hchild hy
    exact ⟨_, hp.2, .inr ⟨l, ⟨(0 : Int), hl⟩, hsuffix⟩⟩
  have hparent {σ : List L}
      (hx : ({ x with run := .code (k s.procs.length), sent := 0 } : Proc L).Ahead σ) :
      ∃ l, EndsAt (k s.procs.length) l ∧ l :: x.trail <:+ σ := by
    obtain ⟨c, ⟨⟩, ⟨hmay, -⟩ | hl⟩ := hx
    · exact absurd hmay (hpipe (.inl rfl) _)
    · exact hl
  have hself {l : L} {τ : List L} : ¬l :: τ <:+ τ := fun hsuffix => by
    have := hsuffix.length_le
    simp at this
  refine (h.resume hp _ _).spawn (x := { x with run := .code (k s.procs.length), sent := 0 })
    (getElem?_set_self hlt) rfl ?_ ?_ ?_ ?_ ?_
  · rintro c ⟨⟩
    exact hlinear (0 : Int)
  · intro σ hy
    obtain ⟨l, hl, hsuffix⟩ := hchild hy
    refine ⟨fun hx => ?_, ?_⟩
    · obtain ⟨l', hl', hsuffix'⟩ := hparent hx
      have hsame := (suffix_of_suffix_length_le hsuffix hsuffix' (by simp)).eq_of_length (by simp)
      obtain ⟨rfl, -⟩ := cons.inj hsame
      exact hends l _ hl hne hl'
    · rintro rfl
      exact hself hsuffix
  · intro hx
    obtain ⟨l, -, hsuffix⟩ := hparent hx
    exact hself hsuffix
  · intro q z σ hq hqp hy
    obtain ⟨rfl, -⟩ | ⟨-, hq⟩ := set_cases hq
    · exact absurd rfl hqp
    · exact h.apart hp.1 hq (Ne.symm hqp) (hahead hy)
  · intro i σ hi hy
    exact h.made hi hp.1 (hahead hy)

variable {τ : List L}

theorem made_addPipe (h : (s.addPipe τ).Made i σ) :
    s.Made i σ ∨ i = s.pipes.length ∧ σ = τ := by
  rw [State.Made, State.makers, State.addPipe, map_append, getElem?_append] at h
  split at h
  · exact .inl h
  · rename_i hlt
    rw [length_map] at h hlt
    have hi : i - s.pipes.length = 0 := by
      by_contra hne
      obtain ⟨j, hj⟩ := Nat.exists_eq_succ_of_ne_zero hne
      rw [hj] at h
      cases h
    rw [hi] at h
    cases h
    exact .inr ⟨by omega, rfl⟩

theorem Lineage.addPipe (h : Lineage s)
    (hfree : ∀ {p : Nat} {x : Proc L}, s.procs[p]? = some x → ¬x.Ahead τ)
    (hnew : ∀ i, ¬s.Made i τ) : Lineage (s.addPipe τ) where
  linear := h.linear
  apart := h.apart
  made {i p x σ} hi hp := by
    obtain hi | ⟨-, rfl⟩ := made_addPipe hi
    · exact h.made hi hp
    · exact hfree hp
  unique {i j σ} hi hj := by
    obtain hi₁ | ⟨rfl, rfl⟩ := made_addPipe hi
    · obtain hj₁ | ⟨-, rfl⟩ := made_addPipe hj
      · exact h.unique hi₁ hj₁
      · exact absurd hi₁ (hnew i)
    · obtain hj₁ | ⟨rfl, -⟩ := made_addPipe hj
      · exact absurd hj₁ (hnew j)
      · rfl

theorem Lineage.pipe {k : Option (Nat × Nat) → Code L} (h : Lineage s)
    (hp : s.Runs p x (.call Sys.pipe k)) (r : Option (Nat × Nat)) (fds : Table) :
    Lineage ((s.addPipe x.trail).resume p { x with fds := fds } (k r)) := by
  have hhere : x.Ahead x.trail := ⟨_, hp.2, .inl ⟨.inl rfl, rfl⟩⟩
  have hpipe := (h.linear hp).2.1 (.inr rfl)
  refine (h.resume hp r fds).addPipe (fun {q y} hq => ?_) fun i hi => h.made hi hp.1 hhere
  obtain ⟨rfl, rfl⟩ | ⟨hne, hq⟩ := set_cases hq
  · rintro ⟨c, ⟨⟩, ⟨hmay, -⟩ | ⟨l, -, hsuffix⟩⟩
    · exact hpipe r hmay
    · have := hsuffix.length_le
      simp at this
  · exact (h.apart hp.1 hq hne.symm hhere).1

theorem Lineage.setPipe (h : Lineage s) : Lineage (s.setPipe i data) where
  linear := h.linear
  apart := h.apart
  made hi hp := by
    rw [State.Made, makers_setPipe] at hi
    exact h.made hi hp
  unique hi hj := by
    rw [State.Made, makers_setPipe] at hi hj
    exact h.unique hi hj

theorem Lineage.print {bs : List UInt8} (h : Lineage s) : Lineage (s.print bs) :=
  ⟨h.linear, h.apart, h.made, h.unique⟩

theorem Lineage.step (hprog : ∀ l, Linear (prog l)) {ok : Bool} {s' : State L} (h : Lineage s)
    (hs : Step prog ok s s') : Lineage s' := by
  cases hs with
  | jump here => exact h.jump hprog here
  | fork here => exact h.fork here
  | pipe here => exact h.pipe here _ _
  | exitClose here => exact h.keep here.1 rfl rfl
  | imageClose here => exact h.keep here rfl rfl
  | exit here | exec here => exact h.stop here.1 rfl nofun
  | imageExit here => exact h.stop here rfl nofun
  | @wait _ p x k q y here child mine zombie =>
    have hne : q ≠ p := by
      rintro rfl
      have hrun := here.2
      rw [Option.some.inj (here.1.symm.trans child), zombie] at hrun
      cases hrun
    have hgone : Lineage (s.set q { y with run := .gone }) := h.stop child rfl nofun
    exact hgone.resume ⟨(getElem?_set_ne hne).trans here.1, here.2⟩ _ _
  | read here | write here => exact h.setPipe.resume here _ _
  | writePart here => exact h.setPipe.keep here.1 rfl rfl
  | writeConsole here => exact h.print.resume here _ _
  | forkFail here | waitNone here | pipeFail here | close here | closeFail here | dup here
  | dupFail here | openFile here | openFail here | execFail here | readOther here | readFail here
  | writeBroken here
  | writeFile here | writeFail here => exact h.resume here _ _

end

end Xv6.User
