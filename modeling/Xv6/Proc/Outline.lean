import Xv6.Proc.History

/-!
# The process table and the process tree

`Core` relates the entries of the table to the history and holds at all times. `Tree` is the law of
the `parent` pointers, which holds whenever nobody holds `wait_lock`: the holder is the only one who
changes them, lets a process become a zombie, or frees one. `Frozen` is what a holder relies on,
`Making` what a process that forks knows of the entry it fills.
-/

namespace Xv6

/-- A process that has been made runnable and has not exited. -/
def ProcState.alive : ProcState → Bool
  | .sleeping | .runnable | .running => true
  | .unused | .used | .zombie => false

end Xv6

namespace Xv6.Procs

open Lib Function List

/-- Entry `q`, with contents `x`, holds process `i`. -/
structure Entry (hist : List Event) (nextId : Nat) (q : Slot) (i : Nat) (x : Proc Chan) : Prop where
  id_lt : i < nextId
  unused : x.state = .unused → x.parent = none
  live : x.state ≠ .unused → x.state ≠ .zombie → ¬Exited hist i ∧ ¬Reaped hist i
  zombie : x.state = .zombie → .exit i x.pid x.xstate ∈ hist ∧ ¬Reaped hist i
  born : q ≠ initproc → x.state ≠ .unused → ∃ o, .fork o i x.pid ∈ hist

structure Core (s : St) : Prop where
  entry : ∀ q, Entry s.hist s.nextId q (s.id q) (s.proc q)
  inj : ∀ q r, (s.proc q).state ≠ .unused → (s.proc r).state ≠ .unused → s.id q = s.id r → q = r
  init : (s.proc initproc).state.alive = true
  init_id : s.id initproc = initId
  old : ∀ i, Exited s.hist i ∨ Reaped s.hist i ∨ (∃ o, Born s.hist o i) → i < s.nextId
  lawful : Lawful s.hist

/-- The law of the parent pointers, with processes that are `leaving` counted as exited, and without
the wakeups of those that are `deaf`. -/
structure Tree (leaving : Nat → Prop) (deaf : Slot → Prop) (s : St) : Prop where
  parent : ∀ q, q ≠ initproc → (s.proc q).state.alive = true ∨ (s.proc q).state = .zombie →
    (s.proc q).parent ≠ none
  up : ∀ q r, (s.proc q).parent = some r → (s.proc r).state.alive = true ∧
    (Born s.hist (s.id r) (s.id q) ∨
      r = initproc ∧ ∃ o, Born s.hist o (s.id q) ∧ (Exited s.hist o ∨ leaving o))
  awake : ∀ q r, (s.proc q).parent = some r → (s.proc q).state = .zombie → ¬deaf r →
    ¬(s.proc r).Sleeps (.proc r)

/-- The law when nobody holds the lock. -/
abbrev Grown (s : St) : Prop := Tree (fun _ => False) (fun _ => False) s

/-- What the holder of `wait_lock` can rely on. -/
structure Frozen (s s' : St) : Prop where
  parent : ∀ q, (s'.proc q).parent = (s.proc q).parent
  zombie : ∀ q, (s'.proc q).state = .zombie ↔ (s.proc q).state = .zombie
  alive : ∀ q, (s.proc q).state.alive = true → (s'.proc q).state.alive = true
  made : ∀ q, (s'.proc q).state.alive = true →
    (s.proc q).state.alive = true ∨ (s'.proc q).parent ≠ none
  used : ∀ q, (s.proc q).state ≠ .unused → (s'.proc q).state ≠ .unused
  same : ∀ q, (s.proc q).state ≠ .unused ∨ (s.proc q).parent ≠ none → s'.id q = s.id q
  sleeps : ∀ r, (s'.proc r).Sleeps (.proc r) → (s.proc r).Sleeps (.proc r)
  hist : ∀ e ∈ s.hist, e ∈ s'.hist

/-- Process `f` is filling entry `q`. -/
structure Making (s : St) (f q : Slot) : Prop where
  alive : (s.proc f).state.alive = true
  used : (s.proc q).state = .used
  forker : s.forker q = some f
  born : Born s.hist (s.id f) (s.id q)

/-- What a step leaves to process `q`. -/
structure Apart (q : Slot) (s s' : St) : Prop where
  alive : (s.proc q).state.alive = true → (s'.proc q).state.alive = true ∧ s'.id q = s.id q ∧
    ((s.proc q).killed = true → (s'.proc q).killed = true)
  making : ∀ r, Making s q r →
    Making s' q r ∧ ((s.proc r).parent ≠ none → (s'.proc r).parent ≠ none)
  own : (s.proc q).state.alive = true → s'.word q = s.word q ∧
    reapsOf (s.id q) s'.hist = reapsOf (s.id q) s.hist
  hist : ∀ e ∈ s.hist, e ∈ s'.hist

structure Rely (p : Slot) (s s' : St) : Prop where
  held : s.waitLock = some p → s'.waitLock = some p ∧ Frozen s s'
  free : s.waitLock ≠ some p → s'.waitLock ≠ some p
  apart : Apart p s s'

structure Inv (s : St) : Prop where
  core : Core s
  grown : s.waitLock = none → Grown s

/-! ## The entries -/

section Entries

variable {hist : List Event} {nextId i : Nat} {q : Slot} {x y : Proc Chan} {e : Event} {s s' : St}

theorem alive_ne {st : ProcState} (h : st.alive = true) :
    st ≠ .unused ∧ st ≠ .used ∧ st ≠ .zombie := by
  cases st <;> simp_all [ProcState.alive]

/-- A change that neither frees nor exits nor allocates. -/
theorem Entry.congr (h : Entry hist nextId q i x) (pid : y.state ≠ .unused → y.pid = x.pid)
    (xstate : y.state = .zombie → y.xstate = x.xstate)
    (unused : y.state = .unused ↔ x.state = .unused)
    (zombie : y.state = .zombie ↔ x.state = .zombie)
    (parent : y.state = .unused → y.parent = x.parent) : Entry hist nextId q i y where
  id_lt := h.id_lt
  unused hy := (parent hy).trans (h.unused (unused.1 hy))
  live hu hz := h.live (fun e => hu (unused.2 e)) fun e => hz (zombie.2 e)
  zombie hy := by
    rw [pid (by rw [hy]; nofun), xstate hy]
    exact h.zombie (zombie.1 hy)
  born hq hu := by
    rw [pid hu]
    exact h.born hq fun e => hu (unused.2 e)

theorem Entry.cons (h : Entry hist nextId q i x)
    (exit : x.state ≠ .unused → ∀ pid status, e ≠ .exit i pid status)
    (reap : x.state ≠ .unused → ∀ w pid status, e ≠ .reap w i pid status) :
    Entry (e :: hist) nextId q i x where
  id_lt := h.id_lt
  unused := h.unused
  live hu hz := by
    obtain ⟨he, hr⟩ := h.live hu hz
    rw [exited_cons, reaped_cons]
    exact ⟨fun h => h.elim (fun ⟨pid, st, h⟩ => exit hu pid st h) he,
      fun h => h.elim (fun ⟨w, pid, st, h⟩ => reap hu w pid st h) hr⟩
  zombie hz := by
    obtain ⟨he, hr⟩ := h.zombie hz
    rw [reaped_cons]
    refine ⟨.tail _ he, fun h => h.elim (fun ⟨w, pid, st, h⟩ => reap ?_ w pid st h) hr⟩
    rw [hz]
    nofun
  born hq hu := (h.born hq hu).imp fun _ h => .tail _ h

theorem Entry.mono {n : Nat} (h : Entry hist nextId q i x) (hn : nextId ≤ n) : Entry hist n q i x :=
  ⟨h.id_lt.trans_le hn, h.unused, h.live, h.zombie, h.born⟩

namespace Core

theorem setProc (h : Core s) (pid : x.state ≠ .unused → x.pid = (s.proc q).pid)
    (xstate : x.state = .zombie → x.xstate = (s.proc q).xstate)
    (unused : x.state = .unused ↔ (s.proc q).state = .unused)
    (zombie : x.state = .zombie ↔ (s.proc q).state = .zombie)
    (parent : x.state = .unused → x.parent = (s.proc q).parent)
    (init : (s.proc q).state.alive = true → x.state.alive = true) : Core (s.setProc q x) := by
  have used : ∀ r, ((s.setProc q x).proc r).state ≠ .unused → (s.proc r).state ≠ .unused :=
    St.forall_setProc (P := fun r x => x.state ≠ .unused → (s.proc r).state ≠ .unused)
      (fun hx e => hx (unused.2 e)) fun _ _ => id
  refine ⟨?_, fun r r' hr hr' => h.inj r r' (used r hr) (used r' hr'), ?_, h.init_id,
    h.old, h.lawful⟩
  · exact St.forall_setProc (P := fun r x => Entry s.hist s.nextId r (s.id r) x)
      ((h.entry q).congr pid xstate unused zombie parent) fun r _ => h.entry r
  · exact St.forall_setProc (P := fun r x => (s.proc r).state.alive = true → x.state.alive = true)
      init (fun _ _ => id) initproc h.init

/-- An event that is neither a birth nor an exit nor a reaping. -/
theorem record (h : Core s) (ok : e.Ok s.hist) (fork : ∀ o i pid, e ≠ .fork o i pid)
    (exit : ∀ i pid status, e ≠ .exit i pid status)
    (reap : ∀ w i pid status, e ≠ .reap w i pid status) : Core (s.record e) := by
  refine ⟨fun q => (h.entry q).cons (fun _ => exit _) fun _ w => reap w _, h.inj, h.init, h.init_id,
    ?_, ok, h.lawful⟩
  intro i hi
  apply h.old
  simp only [St.record, exited_cons, reaped_cons, born_cons] at hi
  rcases hi with (⟨_, _, rfl⟩ | hi) | (⟨_, _, _, rfl⟩ | hi) | ⟨o, ⟨_, rfl⟩ | hi⟩
  · exact absurd rfl (exit _ _ _)
  · exact .inl hi
  · exact absurd rfl (reap _ _ _ _)
  · exact .inr (.inl hi)
  · exact absurd rfl (fork _ _ _)
  · exact .inr (.inr ⟨o, hi⟩)

theorem relock (h : Core s) (lock : Option Slot) (n : BitVec 32) :
    Core { s with waitLock := lock, nextpid := n } :=
  { h with }

theorem alive_live (h : Core s) (hq : (s.proc q).state.alive = true) :
    ¬Exited s.hist (s.id q) ∧ ¬Reaped s.hist (s.id q) :=
  (h.entry q).live (alive_ne hq).1 (alive_ne hq).2.2

theorem ne_init (h : Core s) (hq : (s.proc q).state.alive = false) : q ≠ initproc := by
  rintro rfl
  rw [h.init] at hq
  cases hq

variable {p : Slot}

theorem allocate (h : Core s) (hp : (s.proc p).state.alive = true)
    (hq : (s.proc q).state = .unused) : Core (s.allocate p q) := by
  have fresh : ∀ i, Exited s.hist i ∨ Reaped s.hist i ∨ (∃ o, Born s.hist o i) → i ≠ s.nextId :=
    fun i hi => (h.old i hi).ne
  have hinit : initproc ≠ q := (h.ne_init (by rw [hq]; rfl)).symm
  unfold St.allocate
  refine ⟨fun r => ?_, fun r r' => ?_, ?_, ?_, fun i hi => ?_, ⟨fun o ho => ?_, ?_⟩, h.lawful⟩
  · rcases eq_or_ne r q with rfl | hr
    · simp only [update_self]
      refine ⟨Nat.lt_succ_self _, nofun, fun _ _ => ?_, nofun, fun _ _ => ⟨_, mem_cons_self⟩⟩
      rw [exited_cons, reaped_cons]
      refine ⟨?_, ?_⟩
      · rintro (⟨_, _, h⟩ | h)
        · cases h
        · exact fresh _ (.inl h) rfl
      · rintro (⟨_, _, _, h⟩ | h)
        · cases h
        · exact fresh _ (.inr (.inl h)) rfl
    · simp only [update_of_ne hr]
      refine ((h.entry r).cons ?_ ?_).mono (Nat.le_succ _)
      · exact fun _ _ _ h => nomatch h
      · exact fun _ _ _ _ h => nomatch h
  · rcases eq_or_ne r q with hr | hr <;> rcases eq_or_ne r' q with hr' | hr'
    · exact fun _ _ _ => hr.trans hr'.symm
    · subst hr
      simp only [update_self, update_of_ne hr']
      exact fun _ _ e => absurd e (h.entry r').id_lt.ne'
    · subst hr'
      simp only [update_self, update_of_ne hr]
      exact fun _ _ e => absurd e (h.entry r).id_lt.ne
    · simp only [update_of_ne hr, update_of_ne hr']
      exact h.inj r r'
  · simpa [hinit] using h.init
  · simpa [hinit] using h.init_id
  · simp only [exited_cons, reaped_cons, born_cons] at hi
    refine Nat.lt_succ_of_le ?_
    rcases hi with (⟨_, _, ⟨⟩⟩ | hi) | (⟨_, _, _, ⟨⟩⟩ | hi) | ⟨o, ⟨_, ⟨⟩⟩ | hi⟩
    · exact (h.old i (.inl hi)).le
    · exact (h.old i (.inr (.inl hi))).le
    · exact le_rfl
    · exact (h.old i (.inr (.inr ⟨o, hi⟩))).le
  · exact fresh _ (.inr (.inr ⟨o, ho⟩)) rfl
  · exact (h.alive_live hp).1

theorem exit (h : Core s) (hp : (s.proc p).state.alive = true) (hi : p ≠ initproc)
    (status : BitVec 32) : Core (s.exit p status) := by
  have hl := h.alive_live hp
  have hu := (alive_ne hp).1
  unfold St.exit St.record
  refine ⟨?_, ?_, ?_, h.init_id, fun i hi => ?_, ⟨hl.1, (h.entry p).born hi hu⟩, h.lawful⟩
  · refine St.forall_setProc (P := fun r x => Entry (_ :: s.hist) s.nextId r (s.id r) x) ?_
      fun r hr => (h.entry r).cons (fun hu' _ _ e => ?_) fun _ _ _ _ => nofun
    · refine ⟨(h.entry p).id_lt, nofun, fun _ hz => absurd rfl hz, fun _ => ⟨mem_cons_self, ?_⟩,
        fun hi _ => ((h.entry p).born hi hu).imp fun _ h => .tail _ h⟩
      rw [reaped_cons]
      rintro (⟨_, _, _, h⟩ | h)
      · cases h
      · exact hl.2 h
    · injection e with e
      exact hr (h.inj _ _ hu' hu e.symm)
  · have used : ∀ r,
        ((s.setProc p { s.proc p with xstate := status, state := .zombie }).proc r).state ≠
        .unused → (s.proc r).state ≠ .unused :=
      St.forall_setProc (P := fun r x => x.state ≠ .unused → (s.proc r).state ≠ .unused)
        (fun _ => hu) fun _ _ => id
    exact fun r r' hr hr' => h.inj r r' (used r hr) (used r' hr')
  · exact (congrArg (fun x => x.state.alive) (St.setProc_of_ne hi.symm _)).trans h.init
  · simp only [exited_cons, reaped_cons, born_cons] at hi
    rcases hi with (⟨_, _, ⟨⟩⟩ | hi) | (⟨_, _, _, ⟨⟩⟩ | hi) | ⟨o, ⟨_, ⟨⟩⟩ | hi⟩
    · exact (h.entry p).id_lt
    · exact h.old i (.inl hi)
    · exact h.old i (.inr (.inl hi))
    · exact h.old i (.inr (.inr ⟨o, hi⟩))

theorem reap {addr : Addr} (h : Core s) (hq : (s.proc q).state = .zombie)
    (ok : Event.Ok s.hist (.reap (s.id p) (s.id q) (s.proc q).pid (s.proc q).xstate)) :
    Core (s.reap p q addr) := by
  have hu : (s.proc q).state ≠ .unused := by rw [hq]; nofun
  have hinit := h.ne_init (q := q) (by rw [hq]; rfl)
  unfold St.reap St.record
  refine ⟨?_, ?_, ?_, h.init_id, fun i hi => ?_, ok, h.lawful⟩
  · refine St.forall_setProc (P := fun r x => Entry (_ :: s.hist) s.nextId r (s.id r) x) ?_
      fun r hr => (h.entry r).cons (fun _ _ _ => nofun) fun hu' _ _ _ e => ?_
    · exact ⟨(h.entry q).id_lt, fun _ => rfl, fun hu => absurd rfl hu, nofun,
        fun _ hu => absurd rfl hu⟩
    · injection e with _ e
      exact hr (h.inj _ _ hu' hu e.symm)
  · have used : ∀ r, ((s.setProc q .zero).proc r).state ≠ .unused → (s.proc r).state ≠ .unused :=
      St.forall_setProc (P := fun r x => x.state ≠ .unused → (s.proc r).state ≠ .unused)
        (fun h => absurd rfl h) fun _ _ => id
    exact fun r r' hr hr' => h.inj r r' (used r hr) (used r' hr')
  · exact (congrArg (fun x => x.state.alive) (St.setProc_of_ne hinit.symm _)).trans h.init
  · simp only [exited_cons, reaped_cons, born_cons] at hi
    rcases hi with (⟨_, _, ⟨⟩⟩ | hi) | (⟨_, _, _, ⟨⟩⟩ | hi) | ⟨o, ⟨_, ⟨⟩⟩ | hi⟩
    · exact h.old i (.inl hi)
    · exact (h.entry q).id_lt
    · exact h.old i (.inr (.inl hi))
    · exact h.old i (.inr (.inr ⟨o, hi⟩))

end Core

end Entries

/-! ## What the holder of the lock relies on -/

section Frames

variable {s s' s'' : St} {q : Slot} {x : Proc Chan} {e : Event}

namespace Frozen

theorem refl (s : St) : Frozen s s :=
  ⟨fun _ => rfl, fun _ => .rfl, fun _ => id, fun _ => .inl, fun _ => id,
    fun _ _ => rfl, fun _ => id, fun _ => id⟩

theorem trans (h : Frozen s s') (h' : Frozen s' s'') : Frozen s s'' where
  parent q := (h'.parent q).trans (h.parent q)
  zombie q := (h'.zombie q).trans (h.zombie q)
  alive q hq := h'.alive q (h.alive q hq)
  made q hq :=
    (h'.made q hq).elim (fun hq => (h.made q hq).imp id fun hp => by rwa [h'.parent q]) .inr
  used q hq := h'.used q (h.used q hq)
  same q hq := (h'.same q (hq.imp (h.used q) fun hp => by rwa [h.parent q])).trans (h.same q hq)
  sleeps r hr := h.sleeps r (h'.sleeps r hr)
  hist e he := h'.hist e (h.hist e he)

theorem setProc (parent : x.parent = (s.proc q).parent)
    (zombie : x.state = .zombie ↔ (s.proc q).state = .zombie)
    (alive : (s.proc q).state.alive = true → x.state.alive = true)
    (made : x.state.alive = true → (s.proc q).state.alive = true ∨ x.parent ≠ none)
    (used : (s.proc q).state ≠ .unused → x.state ≠ .unused)
    (sleeps : x.Sleeps (.proc q) → (s.proc q).Sleeps (.proc q)) : Frozen s (s.setProc q x) where
  parent := St.forall_setProc (P := fun r x => x.parent = (s.proc r).parent) parent fun _ _ => rfl
  zombie :=
    St.forall_setProc (P := fun r x => x.state = .zombie ↔ (s.proc r).state = .zombie) zombie
    fun _ _ => .rfl
  alive := St.forall_setProc (P := fun r x => (s.proc r).state.alive = true → x.state.alive = true)
    alive fun _ _ => id
  made := St.forall_setProc (P := fun r x => x.state.alive = true →
    (s.proc r).state.alive = true ∨ x.parent ≠ none) made fun _ _ => .inl
  used := St.forall_setProc (P := fun r x => (s.proc r).state ≠ .unused → x.state ≠ .unused) used
    fun _ _ => id
  same _ _ := rfl
  sleeps :=
    St.forall_setProc (P := fun r x => x.Sleeps (.proc r) → (s.proc r).Sleeps (.proc r)) sleeps
    fun _ _ => id
  hist _ := id

theorem record (s : St) (e : Event) : Frozen s (s.record e) :=
  { refl s with hist := fun _ => .tail _ }

theorem allocate (h : Core s) {p : Slot} (hq : (s.proc q).state = .unused) :
    Frozen s (s.allocate p q) := by
  have hs : Frozen s (s.setProc q { s.proc q with pid := s.nextpid, state := .used }) := by
    refine setProc rfl ?_ ?_ ?_ ?_ ?_
    · simp [hq]
    · simp [hq, ProcState.alive]
    · simp [ProcState.alive]
    · nofun
    · rintro ⟨⟨⟩, _⟩
  refine ⟨hs.parent, hs.zombie, hs.alive, hs.made, hs.used,
    fun r hr => update_of_ne (fun e : r = q => ?_) .., hs.sleeps, fun _ => .tail _⟩
  subst e
  exact hr.elim (absurd hq) (absurd ((h.entry r).unused hq))

end Frozen

theorem Tree.frozen {leaving : Nat → Prop} {deaf : Slot → Prop} (h : Tree leaving deaf s)
    (hf : Frozen s s') : Tree leaving deaf s' where
  parent q hq hs := by
    rcases hs with hs | hs
    · rcases hf.made q hs with ha | hp
      · rw [hf.parent q]
        exact h.parent q hq (.inl ha)
      · exact hp
    · rw [hf.parent q]
      exact h.parent q hq (.inr ((hf.zombie q).1 hs))
  up q r hqr := by
    rw [hf.parent q] at hqr
    obtain ⟨hr, hup⟩ := h.up q r hqr
    rw [hf.same q (.inr (by rw [hqr]; nofun)), hf.same r (.inl (alive_ne hr).1)]
    have born : ∀ o, Born s.hist o (s.id q) → Born s'.hist o (s.id q) :=
      fun o ⟨pid, h⟩ => ⟨pid, hf.hist _ h⟩
    refine ⟨hf.alive r hr, hup.imp (born _) ?_⟩
    rintro ⟨hr, o, hb, he⟩
    exact ⟨hr, o, born o hb, he.imp (fun ⟨pid, st, h⟩ => ⟨pid, st, hf.hist _ h⟩) id⟩
  awake q r hqr hz hd hs := by
    rw [hf.parent q] at hqr
    exact h.awake q r hqr ((hf.zombie q).1 hz) hd (hf.sleeps r hs)

/-! ## What a step leaves to the others -/

namespace Apart

variable {f p : Slot}

theorem refl (s : St) : Apart f s s :=
  ⟨fun h => ⟨h, rfl, id⟩, fun _ h => ⟨h, id⟩, fun _ => ⟨rfl, rfl⟩, fun _ => id⟩

theorem trans (h : Apart f s s') (h' : Apart f s' s'') : Apart f s s'' := by
  refine ⟨fun ha => ?_, fun r hr => ?_, fun ha => ?_, fun e he => h'.hist e (h.hist e he)⟩
  · obtain ⟨ha, hid, hk⟩ := h.alive ha
    obtain ⟨ha', hid', hk'⟩ := h'.alive ha
    exact ⟨ha', hid'.trans hid, hk' ∘ hk⟩
  · obtain ⟨hr, hp⟩ := h.making r hr
    obtain ⟨hr', hp'⟩ := h'.making r hr
    exact ⟨hr', hp' ∘ hp⟩
  · obtain ⟨ha', hid, -⟩ := h.alive ha
    obtain ⟨hw, hl⟩ := h.own ha
    obtain ⟨hw', hl'⟩ := h'.own ha'
    rw [hid] at hl'
    exact ⟨hw'.trans hw, hl'.trans hl⟩

theorem setProc
    (alive : f = q → (s.proc q).state.alive = true →
      x.state.alive = true ∧ ((s.proc q).killed = true → x.killed = true))
    (used : s.forker q = some f → (s.proc q).state = .used →
      x.state = .used ∧ ((s.proc q).parent ≠ none → x.parent ≠ none)) :
    Apart f s (s.setProc q x) := by
  have halive : (s.proc f).state.alive = true → ((s.setProc q x).proc f).state.alive = true ∧
      ((s.proc f).killed = true → ((s.setProc q x).proc f).killed = true) := by
    rcases eq_or_ne f q with rfl | hf
    · simpa using alive rfl
    · rw [St.setProc_of_ne hf]
      exact fun h => ⟨h, id⟩
  refine ⟨fun ha => ⟨(halive ha).1, rfl, (halive ha).2⟩, fun r hr => ?_, fun _ => ⟨rfl, rfl⟩,
    fun _ => id⟩
  have hused : ((s.setProc q x).proc r).state = .used ∧
      ((s.proc r).parent ≠ none → ((s.setProc q x).proc r).parent ≠ none) := by
    rcases eq_or_ne r q with rfl | hrq
    · simpa using used hr.forker hr.used
    · rw [St.setProc_of_ne hrq]
      exact ⟨hr.used, id⟩
  exact ⟨⟨(halive hr.alive).1, hused.1, hr.forker, hr.born⟩, hused.2⟩

theorem record (s : St) {e : Event}
    (he : (s.proc f).state.alive = true → e.isReapBy (s.id f) = false) :
    Apart f s (s.record e) :=
  ⟨fun h => ⟨h, rfl, id⟩, fun _ h => ⟨⟨h.alive, h.used, h.forker, h.born.cons⟩, id⟩,
    fun h => ⟨rfl, filter_cons_of_neg (ne_true_of_eq_false (he h))⟩, fun _ => .tail _⟩

theorem store (s : St) {word : Slot → BitVec 32} (h : word f = s.word f) :
    Apart f s { s with word := word } :=
  ⟨fun h => ⟨h, rfl, id⟩, fun _ h => ⟨⟨h.alive, h.used, h.forker, h.born⟩, id⟩, fun _ => ⟨h, rfl⟩,
    fun _ => id⟩

theorem relock (s : St) (lock : Option Slot) (n : BitVec 32) :
    Apart f s { s with waitLock := lock, nextpid := n } :=
  ⟨fun h => ⟨h, rfl, id⟩, fun _ h => ⟨⟨h.alive, h.used, h.forker, h.born⟩, id⟩, fun _ => ⟨rfl, rfl⟩,
    fun _ => id⟩

/-- The others are neither the process that is freed nor the one that reaps it. -/
theorem reap {addr : Addr} (hc : Core s) (hp : (s.proc p).state.alive = true)
    (hq : (s.proc q).state = .zombie) (hf : f ≠ p) : Apart f s (s.reap p q addr) := by
  have hset : Apart f s (s.setProc q .zero) := by
    refine .setProc (fun _ ha => ?_) fun _ hu => ?_
    · rw [hq] at ha; cases ha
    · rw [hq] at hu; cases hu
  have hreap : ((s.setProc q .zero).proc f).state.alive = true →
      Event.isReapBy (s.id f) (.reap (s.id p) (s.id q) (s.proc q).pid (s.proc q).xstate) =
        false := by
    intro ha
    have hfq : f ≠ q := by
      rintro rfl
      simp [Proc.zero, ProcState.alive] at ha
    rw [St.setProc_of_ne hfq] at ha
    have hid : s.id p ≠ s.id f := fun e => hf (hc.inj f p (alive_ne ha).1 (alive_ne hp).1 e.symm)
    simpa [Event.isReapBy] using hid
  refine (hset.trans (.record _ hreap)).trans (.store _ ?_)
  show (if addr = .null then s.word else _) f = s.word f
  split
  · rfl
  · exact update_of_ne hf ..

theorem allocate (hq : (s.proc q).state = .unused) : Apart f s (s.allocate p q) := by
  have ne : ∀ r, (s.proc r).state ≠ .unused → r ≠ q := fun r hr e => hr (e ▸ hq)
  unfold St.allocate
  refine ⟨fun ha => ?_, fun r hr => ?_, fun _ => ⟨rfl, rfl⟩, fun _ => .tail _⟩
  · have hf := ne f (alive_ne ha).1
    simp only [update_of_ne hf]
    exact ⟨ha, trivial, id⟩
  · have hf := ne f (alive_ne hr.alive).1
    have hr' := ne r (by rw [hr.used]; nofun)
    refine ⟨⟨?_, ?_, ?_, ?_⟩, ?_⟩
    · simpa [hf] using hr.alive
    · simpa [hr'] using hr.used
    · simpa [hr'] using hr.forker
    · simpa [hf, hr'] using hr.born.cons
    · simp [hr']

end Apart

end Frames

/-! ## Steps of the scheduler, of sleepers and of `kill` -/

/-- An entry changes in ways that do not concern the tree. -/
structure Touch (x y : Proc Chan) : Prop where
  pid : y.pid = x.pid
  xstate : y.xstate = x.xstate
  parent : y.parent = x.parent
  state : y.state = x.state ∨ x.state.alive = true ∧ y.state.alive = true
  killed : x.killed = true → y.killed = true
  sleeps : ∀ q, y.Sleeps (.proc q) → x.Sleeps (.proc q)

namespace Touch

variable {x y : Proc Chan} {s : St} {q : Slot}

theorem wakeup (x : Proc Chan) (chan : Chan) : Touch x (x.wakeup chan) := by
  have sleeps : ∀ q, (x.wakeup chan).Sleeps (.proc q) → x.Sleeps (.proc q) := fun _ => .of_wakeup
  revert sleeps
  unfold Proc.wakeup
  split
  · rename_i h
    exact fun sleeps => ⟨rfl, rfl, rfl, .inr ⟨by rw [h.1]; rfl, rfl⟩, id, sleeps⟩
  · exact fun sleeps => ⟨rfl, rfl, rfl, .inl rfl, id, sleeps⟩

theorem kill (x : Proc Chan) : Touch x x.kill := by
  refine ⟨rfl, rfl, rfl, ?_, fun _ => rfl, fun q hs => absurd hs (x.not_sleeps_kill _)⟩
  by_cases h : x.state = .sleeping
  · exact .inr ⟨by rw [h]; rfl, by simp [Proc.kill, h, ProcState.alive]⟩
  · exact .inl (if_neg h)

theorem sched (h : x.Sched y) : Touch x y := by
  have sleeps : ∀ q, y.Sleeps (.proc q) → x.Sleeps (.proc q) :=
    fun q hs => absurd hs (h.not_sleeps _)
  cases h with
  | run h => exact ⟨rfl, rfl, rfl, .inr ⟨by rw [h]; rfl, rfl⟩, id, sleeps⟩
  | yield h => exact ⟨rfl, rfl, rfl, .inr ⟨by rw [h]; rfl, rfl⟩, id, sleeps⟩

theorem awake (x : Proc Chan) : Touch x x.awake :=
  ⟨rfl, rfl, rfl, .inl rfl, id, fun _ hs => nomatch hs.2⟩

theorem sleep (h : x.state.alive = true) (n : Nat) : Touch x (x.sleep (.other n)) :=
  ⟨rfl, rfl, rfl, .inr ⟨h, rfl⟩, id, fun _ hs => nomatch hs.2⟩

theorem fault (x : Proc Chan) : Touch x { x with killed := true } :=
  ⟨rfl, rfl, rfl, .inl rfl, fun _ => rfl, fun _ => id⟩

theorem alive (h : Touch x y) (hx : x.state.alive = true) : y.state.alive = true :=
  h.state.elim (fun e => e ▸ hx) And.right

theorem alive_iff (h : Touch x y) : y.state.alive = x.state.alive := by
  rcases h.state with e | ⟨hx, hy⟩
  · rw [e]
  · rw [hx, hy]

theorem eq_iff (h : Touch x y) {st : ProcState} (hst : st.alive = false) :
    y.state = st ↔ x.state = st := by
  rcases h.state with e | ⟨hx, hy⟩
  · rw [e]
  · constructor
    · intro e; rw [e, hst] at hy; cases hy
    · intro e; rw [e, hst] at hx; cases hx

theorem core (h : Touch (s.proc q) y) (hc : Core s) : Core (s.setProc q y) :=
  hc.setProc (fun _ => h.pid) (fun _ => h.xstate) (h.eq_iff rfl) (h.eq_iff rfl)
    (fun _ => h.parent) h.alive

theorem frozen (h : Touch (s.proc q) y) : Frozen s (s.setProc q y) :=
  .setProc h.parent (h.eq_iff rfl) h.alive (fun hy => .inl (h.alive_iff ▸ hy))
    (fun hx => fun e => hx ((h.eq_iff rfl).1 e)) (h.sleeps q)

theorem apart (h : Touch (s.proc q) y) (f : Slot) : Apart f s (s.setProc q y) :=
  .setProc (fun _ hx => ⟨h.alive hx, h.killed⟩)
    fun _ hx => ⟨(h.eq_iff rfl).2 hx, fun hp => h.parent ▸ hp⟩

end Touch

/-! ## The outline -/

/-- The precondition of each operation. -/
def Pre (p : Slot) : Op → St → Prop
  | .acquire, s | .alloc .., s => s.waitLock ≠ some p
  | .release, s => s.waitLock = some p ∧ Grown s
  | .waitFailed addr, s => s.waitLock = some p ∧ Grown s ∧
    (s.hasChild p = true → (s.proc p).killed = true ∨ addr = .unmapped)
  | .setParent q _, s => s.waitLock = some p ∧ (s.proc q).state ≠ .unused
  | .setRunnable q, s => Making s p q ∧ (s.proc q).parent ≠ none
  | .zombie _, s => s.waitLock = some p ∧ p ≠ initproc ∧ Tree (· = s.id p) (fun _ => False) s ∧
    (∀ q, (s.proc q).parent ≠ some p) ∧
    ∀ r, (s.proc p).parent = some r → ¬(s.proc r).Sleeps (.proc r)
  | .reap q _, s => s.waitLock = some p ∧ Grown s ∧ (s.proc q).parent = some p
  | .sleepWait, s => s.waitLock = some p ∧ Grown s ∧
    ∀ q, (s.proc q).parent = some p → (s.proc q).state ≠ .zombie
  | _, _ => True

/-- What one operation of `p` can do. -/
inductive Effect (p : Slot) (s s' : St) : Prop
  | calm (core : Core s') (apart : ∀ f, f ≠ p → Apart f s s') (lock : s'.waitLock = s.waitLock)
      (frozen : Frozen s s')
  | locked (core : Core s') (apart : ∀ f, f ≠ p → Apart f s s')
      (lock : s.waitLock = some p ∨ s.waitLock = none ∧ s'.waitLock = some p)
      (lock' : s'.waitLock = some p ∨ s'.waitLock = none ∧ Grown s')

section Steps

variable {p q : Slot} {o : Op} {s s' : St} {r : iface.Res o} {y : Proc Chan}

theorem Effect.refl (hc : Core s) : Effect p s s := .calm hc (fun _ _ => .refl s) rfl (.refl s)

theorem Touch.effect (h : Touch (s.proc q) y) (hc : Core s) : Effect p s (s.setProc q y) :=
  .calm (h.core hc) (fun f _ => h.apart f) rfl h.frozen

theorem Touch.effect_record (h : Touch (s.proc q) y) (hc : Core s) {e : Event}
    (he : (∃ pid, e = .kill pid) ∨ ∃ i, e = .fault i) : Effect p s ((s.setProc q y).record e) := by
  refine .calm ((h.core hc).record ?_ ?_ ?_ ?_)
    (fun f _ => (h.apart f).trans (.record _ fun _ => ?_)) rfl
    (h.frozen.trans (.record _ e))
  all_goals rcases he with ⟨_, rfl⟩ | ⟨_, rfl⟩
  all_goals first | trivial | (intros; nofun)

theorem Grown.exit (h : Tree (· = s.id p) (fun _ => False) s) (hrun : (s.proc p).state = .running)
    (childless : ∀ q, (s.proc q).parent ≠ some p)
    (awake : ∀ r, (s.proc p).parent = some r → ¬(s.proc r).Sleeps (.proc r)) (status : BitVec 32) :
    Grown (s.exit p status) := by
  have other : ∀ r, r ≠ p → ((s.exit p status).proc r) = s.proc r :=
    fun r hr => St.setProc_of_ne hr _
  have hparent : ∀ q, ((s.exit p status).proc q).parent = (s.proc q).parent :=
    St.forall_setProc (P := fun q x => x.parent = (s.proc q).parent) rfl fun _ _ => rfl
  refine ⟨fun q hq hs => ?_, fun q r hqr => ?_, fun q r hqr hz _ => ?_⟩
  · rw [hparent q]
    rcases eq_or_ne q p with rfl | hqp
    · exact h.parent q hq (.inl (by rw [hrun]; rfl))
    · rw [other q hqp] at hs
      exact h.parent q hq hs
  · rw [hparent q] at hqr
    obtain ⟨hr, hup⟩ := h.up q r hqr
    rw [other r fun e => childless q (e ▸ hqr)]
    refine ⟨hr, hup.imp Born.cons ?_⟩
    rintro ⟨hr, o, hb, he⟩
    refine ⟨hr, o, hb.cons, .inl ?_⟩
    rcases he with he | rfl
    · exact he.cons
    · exact ⟨_, _, mem_cons_self⟩
  · rw [hparent q] at hqr
    rw [other r fun e => childless q (e ▸ hqr)]
    rcases eq_or_ne q p with rfl | hqp
    · exact awake r hqr
    · rw [other q hqp] at hz
      exact h.awake q r hqr hz id

theorem Grown.sleep (h : Grown s) (hrun : (s.proc p).state = .running)
    (alive : ∀ q, (s.proc q).parent = some p → (s.proc q).state ≠ .zombie) :
    Grown (s.setProc p ((s.proc p).sleep (.proc p))) := by
  have hsame : ∀ q, ((s.setProc p ((s.proc p).sleep (.proc p))).proc q).parent = (s.proc q).parent ∧
      ((s.setProc p ((s.proc p).sleep (.proc p))).proc q).state.alive = (s.proc q).state.alive ∧
      (((s.setProc p ((s.proc p).sleep (.proc p))).proc q).state = .zombie ↔
        (s.proc q).state = .zombie) :=
    St.forall_setProc (P := fun q x => x.parent = (s.proc q).parent ∧
      x.state.alive = (s.proc q).state.alive ∧ (x.state = .zombie ↔ (s.proc q).state = .zombie))
      ⟨rfl, by rw [hrun]; rfl, by rw [hrun]; simp [Proc.sleep]⟩ fun _ _ => ⟨rfl, rfl, .rfl⟩
  refine ⟨fun q hq hs => ?_, fun q r hqr => ?_, fun q r hqr hz _ => ?_⟩
  · rw [(hsame q).2.1, (hsame q).2.2] at hs
    rw [(hsame q).1]
    exact h.parent q hq hs
  · rw [(hsame q).1] at hqr
    rw [(hsame r).2.1]
    exact h.up q r hqr
  · rw [(hsame q).1] at hqr
    rw [(hsame q).2.2] at hz
    have hr : r ≠ p := fun e => alive q (e ▸ hqr) hz
    rw [St.setProc_of_ne hr]
    exact h.awake q r hqr hz id

theorem Grown.reap_ok (h : Grown s) (hc : Core s) (hz : (s.proc q).state = .zombie)
    (hqp : (s.proc q).parent = some p) :
    Event.Ok s.hist (.reap (s.id p) (s.id q) (s.proc q).pid (s.proc q).xstate) := by
  obtain ⟨hexit, hreap⟩ := (hc.entry q).zombie hz
  obtain ⟨hp, hb | ⟨rfl, o, hb, he⟩⟩ := h.up q p hqp
  · exact ⟨hexit, hreap, .inl ⟨hb, (hc.alive_live hp).1⟩⟩
  · exact ⟨hexit, hreap, .inr ⟨hc.init_id, o, hb, he.elim id False.elim⟩⟩

theorem Effect.of_step (hI : Inv s) (hrun : (s.proc p).state = .running) (hpre : Pre p o s)
    (h : step p o s = .ok (r, s')) : Effect p s s' := by
  have hc := hI.core
  have halive : (s.proc p).state.alive = true := by rw [hrun]; rfl
  cases o with
  | acquire =>
    simp only [step] at h
    split at h
    · cases h
      exact .locked (hc.relock _ _) (fun _ _ => .relock s _ _) (.inr ⟨‹_›, rfl⟩) (.inl rfl)
    · split at h <;> cases h
  | release =>
    simp only [step, if_pos hpre.1] at h
    cases h
    have hg := hpre.2
    exact .locked (hc.relock _ _) (fun _ _ => .relock s _ _) (.inl hpre.1)
      (.inr ⟨rfl, hg.parent, hg.up, hg.awake⟩)
  | alloc q memory =>
    simp only [step] at h
    split at h
    · rename_i hq
      split at h
      · cases h
        exact .calm (hc.allocate halive hq) (fun _ _ => .allocate hq) rfl (.allocate hc hq)
      · cases h
        have hparent : (Proc.zero : Proc Chan).parent = (s.proc q).parent :=
          ((hc.entry q).unused hq).symm
        have hcore : Core (s.setProc q .zero) :=
          hc.setProc nofun nofun (by simp [hq, Proc.zero]) (by simp [hq, Proc.zero])
            (fun _ => hparent) (by rw [hq]; nofun)
        have hfrozen : Frozen s (s.setProc q .zero) :=
          .setProc hparent (by simp [hq, Proc.zero]) (by rw [hq]; nofun) nofun
            (fun h => absurd hq h)
            fun hs => nomatch hs.1
        have hapart : ∀ f, Apart f s (s.setProc q .zero) := fun f =>
          .setProc (by rw [hq]; exact fun _ => nofun) (by rw [hq]; exact fun _ => nofun)
        exact .calm (hcore.relock _ _) (fun f _ => (hapart f).trans (.relock _ _ _)) rfl
          { hfrozen with }
    · cases h; exact .refl hc
  | parent | killed => cases h; exact .refl hc
  | setParent q r =>
    cases h
    refine .locked (hc.setProc (fun _ => rfl) (fun _ => rfl) .rfl .rfl (fun e => absurd e hpre.2)
      id) (fun f _ => ?_)
      (.inl hpre.1) (.inl hpre.1)
    exact .setProc (fun _ ha => ⟨ha, id⟩) fun _ hu => ⟨hu, fun _ => nofun⟩
  | setRunnable q =>
    cases h
    obtain ⟨hm, hp⟩ := hpre
    have hu := hm.used
    refine .calm (hc.setProc (fun _ => rfl) nofun ?_ ?_ nofun fun _ => rfl) (fun f hf => ?_) rfl ?_
    · simp [hu]
    · simp [hu]
    · refine .setProc (fun _ ha => ?_) fun hf' _ => ?_
      · rw [hu] at ha; cases ha
      · rw [hm.forker] at hf'
        exact absurd (Option.some.inj hf').symm hf
    · refine .setProc rfl ?_ (fun _ => rfl) (fun _ => .inr hp) (fun _ => nofun) fun hs =>
        nomatch hs.1
      simp [hu]
  | wakeup q chan =>
    cases h
    show Effect p s (if q = p then s else _)
    split
    · exact .refl hc
    · exact (Touch.wakeup _ chan).effect hc
  | zombie status =>
    simp only [step, if_pos hpre.1] at h
    cases h
    obtain ⟨hl, hi, ht, hch, haw⟩ := hpre
    have hg := Grown.exit ht hrun hch haw status
    refine .locked ((hc.exit halive hi status).relock _ _) (fun f hf => ?_) (.inl hl)
      (.inr ⟨rfl, hg.parent, hg.up, hg.awake⟩)
    refine Apart.trans (Apart.trans (.setProc (fun e => absurd e hf) fun _ hu => ?_)
      (.record _ fun _ => rfl)) (.relock _ _ _)
    rw [hrun] at hu; cases hu
  | reap q addr =>
    simp only [step] at h
    obtain ⟨hl, hg, hqp⟩ := hpre
    split at h
    · rename_i hz
      split at h
      · cases h; exact .refl hc
      · cases h
        refine .locked (hc.reap hz (hg.reap_ok hc hz hqp)) (fun f hf => ?_) (.inl hl) (.inl hl)
        exact .reap hc halive hz hf
    · cases h; exact .refl hc
  | waitFailed addr =>
    simp only [step, if_pos hpre.1] at h
    cases h
    obtain ⟨hl, hg, hok⟩ := hpre
    have hg' := hg.frozen (.record s (.waitFailed (s.id p) addr (s.proc p).killed (s.hasChild p)))
    have hr : Core (s.record (.waitFailed (s.id p) addr (s.proc p).killed (s.hasChild p))) :=
      hc.record hok (fun _ _ _ => nofun) (fun _ _ _ => nofun) fun _ _ _ _ => nofun
    exact .locked (hr.relock _ _) (fun f _ => .trans (.record _ fun _ => rfl) (.relock _ _ _))
      (.inl hl)
      (.inr ⟨rfl, hg'.parent, hg'.up, hg'.awake⟩)
  | sleepWait =>
    simp only [step, if_pos hpre.1] at h
    cases h
    obtain ⟨hl, hg, hz⟩ := hpre
    have hs : Core (s.setProc p ((s.proc p).sleep (.proc p))) :=
      hc.setProc (fun _ => rfl) (fun _ => rfl) (by simp [hrun, Proc.sleep])
        (by simp [hrun, Proc.sleep])
        (fun _ => rfl) fun _ => rfl
    have hg' := hg.sleep hrun hz
    refine .locked (hs.relock _ _)
      (fun f hf => .trans (.setProc (fun e => absurd e hf) fun _ hu => ?_)
      (.relock _ _ _)) (.inl hl) (.inr ⟨rfl, hg'.parent, hg'.up, hg'.awake⟩)
    rw [hrun] at hu; cases hu
  | sleep n => cases h; exact (Touch.sleep halive n).effect hc
  | awake => cases h; exact (Touch.awake _).effect hc
  | kill q pid =>
    simp only [step] at h
    split at h
    · cases h; exact (Touch.kill _).effect_record hc (.inl ⟨_, rfl⟩)
    · cases h; exact .refl hc
  | fault => cases h; exact (Touch.fault _).effect_record hc (.inr ⟨_, rfl⟩)
  | panicInit | stop => cases h

end Steps

variable {p : Slot} {s s' : St}

theorem Effect.inv (h : Effect p s s') (hI : Inv s) : Inv s' := by
  cases h with
  | calm core _ lock frozen => exact ⟨core, fun e => (hI.grown (lock ▸ e)).frozen frozen⟩
  | locked core _ _ lock' =>
    refine ⟨core, fun e => lock'.elim (fun e' => ?_) And.right⟩
    rw [e] at e'; cases e'

theorem Effect.rely {f : Slot} (h : Effect p s s') (hf : f ≠ p) : Rely f s s' := by
  cases h with
  | calm _ apart lock frozen =>
    exact ⟨fun e => ⟨lock.trans e, frozen⟩, fun e => lock ▸ e, apart f hf⟩
  | locked _ apart lock lock' =>
    have ne : some p ≠ some f := fun e => hf (Option.some.inj e).symm
    refine ⟨fun e => ?_, fun _ => ?_, apart f hf⟩
    · rcases lock with hl | ⟨hl, -⟩ <;> rw [hl] at e
      · exact absurd e ne
      · cases e
    · rcases lock' with hl | ⟨hl, -⟩ <;> rw [hl]
      · exact ne
      · nofun

variable {o : Op}

theorem exec_ok {r : iface.Res o} (h : exec p o s = .ok (r, s')) :
    (s.proc p).state = .running ∧ step p o s = .ok (r, s') := by
  unfold exec at h
  split at h
  · exact ⟨‹_›, h⟩
  · cases h

theorem panics {e : Panic} (hpre : Pre p o s) (h : exec p o s = .panic e) :
    e = .initExiting := by
  unfold exec at h
  split at h
  swap
  · cases h
  cases o with
  | acquire =>
    simp only [step] at h
    split at h
    · cases h
    · rename_i q hl
      split at h
      · rename_i hq; subst hq; exact absurd hl hpre
      · cases h
  | release | waitFailed | zombie | sleepWait => simp only [step, if_pos hpre.1] at h; cases h
  | alloc | reap => simp only [step] at h; repeat' split at h
                    all_goals cases h
  | kill => simp only [step] at h; split at h <;> cases h
  | panicInit => cases h; rfl
  | parent | setParent | setRunnable | wakeup | killed | sleep | awake | fault | stop => cases h

/-- The outline. The only panic is that of an exiting init. -/
def outline (guard : Slot → Op → St → Prop) : RelyGuarantee (system guard) where
  Inv := Inv
  Rely := Rely
  Idle p s := s.waitLock ≠ some p
  Pre := Pre
  Tol e := e = .initExiting
  rely_refl _ s := ⟨fun e => ⟨e, .refl s⟩, id, .refl s⟩
  rely_trans h h' :=
    ⟨fun e => ⟨(h'.held (h.held e).1).1, (h.held e).2.trans (h'.held (h.held e).1).2⟩,
      fun e => h'.free (h.free e), h.apart.trans h'.apart⟩
  idle_stable h e := h.free e
  op_ok hI _ hp he :=
    have effect := Effect.of_step hI (exec_ok he).1 hp (exec_ok he).2
    ⟨effect.inv hI, fun _ hq => effect.rely hq⟩
  op_panic _ _ hp he := panics hp he
  env_ok := by
    rintro s _ ⟨q, x, hx, rfl⟩ hI
    have ht := Touch.sched hx
    exact ⟨⟨ht.core hI.core, fun e => (hI.grown e).frozen ht.frozen⟩,
      fun f => ⟨fun e => ⟨e, ht.frozen⟩, id, ht.apart f⟩⟩

end Xv6.Procs
