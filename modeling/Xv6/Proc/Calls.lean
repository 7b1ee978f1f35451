import Xv6.Proc.Outline

/-!
# The calls

`fork`, `exit`, `wait` and the rest follow the outline, and what that says about every run: the
process tree, and who reaps whom.
-/

namespace Xv6.Procs

open Lib List

variable {guard : Slot → Op → St → Prop} {p : Slot} {s : St} {α : Type} {Q : α → St → Prop} {o : Op}
  {k : iface.Res o → Code α}

/-! ## Rules -/

/-- An assertion of a process that holds `wait_lock`. -/
structure Hold (p : Slot) (A : St → Prop) : Prop where
  lock : ∀ s, A s → s.waitLock = some p
  kept : ∀ s s', s'.waitLock = s.waitLock → Frozen s s' → Apart p s s' → A s → A s'

variable {A : St → Prop}

theorem Hold.stable (hold : Hold p A) {s s' : St} (hR : Rely p s s') (h : A s) : A s' :=
  have held := hR.held (hold.lock s h)
  hold.kept s s' (held.1.trans (hold.lock s h).symm) held.2 hR.apart h

theorem Hold.call (hold : Hold p A) (hA : A s) (pre : ∀ s, Core s → A s → Pre p o s)
    (next : ∀ s r s', Core s → A s → (s.proc p).state = .running → step p o s = .ok (r, s') →
      Safe (outline guard) p Q (k r) s') :
    Safe (outline guard) p Q (.call o k) s := by
  refine Safe.call hA (fun _ _ => hold.stable) (fun s hI _ h => pre s hI.core h)
    fun s r s' hI _ _ h he => ?_
  obtain ⟨hrun, hstep⟩ := exec_ok he
  exact next s r s' hI.core h hrun hstep

theorem free_call (h : s.waitLock ≠ some p) (pre : ∀ s, s.waitLock ≠ some p → Pre p o s)
    (next : ∀ s r s', Inv s → s.waitLock ≠ some p → (s.proc p).state = .running →
      step p o s = .ok (r, s') → Safe (outline guard) p Q (k r) s') :
    Safe (outline guard) p Q (.call o k) s := by
  refine Safe.call (A := fun s => s.waitLock ≠ some p) h (fun _ _ hR => hR.free)
    (fun s _ _ h => pre s h) fun s r s' hI _ _ h he => ?_
  obtain ⟨hrun, hstep⟩ := exec_ok he
  exact next s r s' hI h hrun hstep

/-- Holding the lock, with the tree in order. -/
structure Owns (p : Slot) (s : St) : Prop where
  lock : s.waitLock = some p
  alive : (s.proc p).state.alive = true
  grown : Grown s

theorem Hold.owns : Hold p (Owns p) :=
  ⟨fun _ h => h.lock, fun _ _ hl hf ha h =>
    ⟨hl.trans h.lock, (ha.alive h.alive).1, h.grown.frozen hf⟩⟩

theorem acquire_safe (h : s.waitLock ≠ some p) (hA : A s)
    (stable : ∀ s s', Rely p s s' → A s → A s')
    (lock : ∀ s, A s → A { s with waitLock := some p }) :
    Safe (outline guard) p (fun _ s' => Owns p s' ∧ A s') (op .acquire) s := by
  refine Safe.call (G := outline guard) (o := Op.acquire) (A := fun s => s.waitLock ≠ some p ∧ A s)
    ⟨h, hA⟩ (fun s s' hR h => ⟨hR.free h.1, stable s s' hR h.2⟩) (fun _ _ _ h => h.1)
    fun s r s' hI _ _ h he => ?_
  obtain ⟨hrun, hstep⟩ := exec_ok he
  simp only [step] at hstep
  split at hstep
  · cases hstep
    have hg := hI.grown ‹_›
    exact ⟨⟨rfl, by rw [hrun]; rfl, ⟨hg.parent, hg.up, hg.awake⟩⟩, lock s h.2⟩
  · split at hstep <;> cases hstep

theorem acquire_owns (h : s.waitLock ≠ some p) :
    Safe (outline guard) p (fun _ => Owns p) (op .acquire) s :=
  (acquire_safe (A := fun _ => True) h trivial (fun _ _ _ _ => trivial) fun _ _ => trivial).mono
    fun _ _ h => h.1

variable {r : Slot} {qs : List Slot}

theorem wakeupFrom_safe (hold : Hold p A) (hA : A s)
    (done : r ∉ qs → ¬(s.proc r).Sleeps (.proc r)) :
    Safe (outline guard) p (fun _ s' => A s' ∧ ¬(s'.proc r).Sleeps (.proc r))
      (wakeupFrom (.proc r) qs) s := by
  induction qs generalizing s with
  | nil => exact ⟨hA, done not_mem_nil⟩
  | cons q qs ih =>
    have hold' : Hold p fun s => A s ∧ (r ∉ q :: qs → ¬(s.proc r).Sleeps (.proc r)) :=
      ⟨fun s h => hold.lock s h.1, fun s s' hl hf ha h =>
        ⟨hold.kept s s' hl hf ha h.1, fun hr hs => h.2 hr (hf.sleeps r hs)⟩⟩
    refine hold'.call (o := .wakeup q (.proc r)) ⟨hA, done⟩ (fun _ _ _ => trivial)
      fun s _ s' _ ⟨hA, done⟩ hrun he => ?_
    cases he
    show Safe _ _ _ _ (if q = p then s else _)
    split
    · rename_i hq
      refine ih hA fun hr => ?_
      by_cases e : r = q
      · exact e ▸ hq ▸ Proc.not_sleeps_of_running hrun
      · exact done (by simp [e, hr])
    · have ht := Touch.wakeup (s.proc q) (.proc r)
      refine ih (hold.kept s _ rfl ht.frozen (ht.apart p) hA) fun hr hs => ?_
      rcases eq_or_ne r q with rfl | hrq
      · rw [St.setProc_self] at hs
        exact Proc.not_sleeps_wakeup _ _ hs
      · rw [St.setProc_of_ne hrq] at hs
        exact done (by simp [hrq, hr]) hs

/-- After `wakeup(r)` process `r` does not sleep in `wait`. -/
theorem wakeup_safe (hold : Hold p A) (hA : A s) (r : Slot) :
    Safe (outline guard) p (fun _ s' => A s' ∧ ¬(s'.proc r).Sleeps (.proc r))
    (wakeup (.proc r)) s :=
  wakeupFrom_safe hold hA fun hr => absurd (mem_finRange r) hr

/-! ## Setting a parent -/

variable {deaf : Slot → Prop} {q : Slot}

theorem Tree.setParent {leaving : Nat → Prop} {deaf' : Slot → Prop}
    (h : Tree leaving deaf s) (hd : ∀ r, deaf r → deaf' r) (alive : (s.proc r).state.alive = true)
    (born : Born s.hist (s.id r) (s.id q) ∨
      r = initproc ∧ ∃ o, Born s.hist o (s.id q) ∧ (Exited s.hist o ∨ leaving o))
    (awake : (s.proc q).state = .zombie → ¬deaf' r → ¬(s.proc r).Sleeps (.proc r)) :
    Tree leaving deaf' (s.setProc q { s.proc q with parent := some r }) := by
  have hstate : ∀ q', ((s.setProc q { s.proc q with parent := some r }).proc q').state =
      (s.proc q').state ∧
        ∀ chan, ((s.setProc q { s.proc q with parent := some r }).proc q').Sleeps chan →
        (s.proc q').Sleeps chan :=
    St.forall_setProc (P := fun q' x => x.state = (s.proc q').state ∧
      ∀ chan, x.Sleeps chan → (s.proc q').Sleeps chan) ⟨rfl, fun _ => id⟩ fun _ _ =>
        ⟨rfl, fun _ => id⟩
  have hparent : ∀ q' r', ((s.setProc q { s.proc q with parent := some r }).proc q').parent =
      some r' →
      q' = q ∧ r' = r ∨ (s.proc q').parent = some r' :=
    St.forall_setProc (P := fun q' x => ∀ r', x.parent = some r' →
      q' = q ∧ r' = r ∨ (s.proc q').parent = some r')
      (fun _ e => .inl ⟨rfl, (Option.some.inj e).symm⟩) fun _ _ _ => .inr
  refine ⟨?_, fun q' r' hqr => ?_, fun q' r' hqr hz hd' hs => ?_⟩
  · refine St.forall_setProc (P := fun q' x => q' ≠ initproc →
      x.state.alive = true ∨ x.state = .zombie → x.parent ≠ none) (fun _ _ => nofun) fun q' _ =>
        h.parent q'
  · rw [(hstate r').1]
    rcases hparent q' r' hqr with ⟨rfl, rfl⟩ | hqr
    · exact ⟨alive, born⟩
    · exact h.up q' r' hqr
  · rw [(hstate q').1] at hz
    replace hs := (hstate r').2 _ hs
    rcases hparent q' r' hqr with ⟨rfl, rfl⟩ | hqr
    · exact awake hz hd' hs
    · exact h.awake q' r' hqr hz (fun h => hd' (hd r' h)) hs

/-! ## `fork` -/

theorem making_stable (s s' : St) (hR : Rely p s s') (h : Making s p q) : Making s' p q :=
  (hR.apart.making q h).1

theorem Making.setParent (h : Making s p q) (r : Slot) :
    Making (s.setProc q { s.proc q with parent := some r }) p q := by
  have ha : Apart p s (s.setProc q { s.proc q with parent := some r }) :=
    .setProc (fun _ ha => ⟨ha, id⟩) fun _ hu => ⟨hu, fun _ => nofun⟩
  exact (ha.making q h).1

/-- A child was made that has this pid. -/
def Forked (pid : BitVec 32) (s : St) : Prop := ∃ o i, .fork o i pid ∈ s.hist

theorem Forked.apart {pid : BitVec 32} {s' : St} (h : Forked pid s) (ha : Apart p s s') :
    Forked pid s' :=
  h.imp fun _ h => h.imp fun _ => ha.hist _

variable {memory : Bool}

theorem allocFrom_safe (h : s.waitLock ≠ some p) :
    Safe (outline guard) p (fun a s' => s'.waitLock ≠ some p ∧ ∀ np pid, a = some (np, pid) →
      Making s' p np ∧ Forked pid s') (allocFrom memory qs) s := by
  induction qs generalizing s with
  | nil => exact ⟨h, nofun⟩
  | cons q qs ih =>
    refine free_call (o := .alloc q memory) h (fun _ h => h) fun s r s' hI h hrun he => ?_
    simp only [step] at he
    split at he
    · rename_i hq
      split at he
      · cases he
        refine ⟨h, ?_⟩
        rintro _ _ ⟨⟩
        have hp : p ≠ q := fun e => by rw [← e, hrun] at hq; cases hq
        unfold St.allocate
        refine ⟨⟨?_, ?_, ?_, ?_⟩, ⟨_, _, mem_cons_self⟩⟩
        · simp [hp, hrun, ProcState.alive]
        · simp
        · simp
        · exact ⟨s.nextpid, by simp [hp]⟩
      · cases he
        exact ⟨h, nofun⟩
    · cases he
      exact ih h

theorem fork_safe (h : s.waitLock ≠ some p) :
    Safe (outline guard) p (fun r s' => s'.waitLock ≠ some p ∧ (r = -1 ∨ Forked r s'))
      (fork p memory) s := by
  refine (allocFrom_safe h).bind fun a s h => ?_
  obtain ⟨h, hm⟩ := h
  rcases a with _ | ⟨np, pid⟩
  · exact ⟨h, .inl rfl⟩
  obtain ⟨hm, hpid⟩ := hm np pid rfl
  refine (acquire_safe (A := fun s => Making s p np ∧ Forked pid s) h ⟨hm, hpid⟩
    (fun _ _ hR h => ⟨making_stable _ _ hR h.1, h.2.apart hR.apart⟩)
    fun s h => ⟨⟨h.1.alive, h.1.used, h.1.forker, h.1.born⟩, h.2⟩).bind fun _ s h => ?_
  have hold : Hold p fun s => Owns p s ∧ Making s p np ∧ Forked pid s :=
    ⟨fun _ h => h.1.lock, fun _ _ hl hf ha h =>
      ⟨Hold.owns.kept _ _ hl hf ha h.1, (ha.making np h.2.1).1, h.2.2.apart ha⟩⟩
  have hold' : Hold p fun s => (Owns p s ∧ Making s p np ∧ Forked pid s) ∧
      (s.proc np).parent ≠ none :=
    ⟨fun _ h => h.1.1.lock,
      fun _ _ hl hf ha h => ⟨hold.kept _ _ hl hf ha h.1, by rw [hf.parent]; exact h.2⟩⟩
  refine hold.call (o := .setParent np p) h (fun _ _ h => ⟨h.1.lock, by simp [h.2.1.used]⟩)
    fun s _ s' _ h hrun he => ?_
  cases he
  obtain ⟨ho, hm, hpid⟩ := h
  have hm' := hm.setParent p
  have hg : Grown (s.setProc np { s.proc np with parent := some p }) :=
    ho.grown.setParent (fun _ => id) ho.alive (.inl hm.born) fun hz => by
      rw [hm.used] at hz; cases hz
  refine hold'.call (o := .release) ⟨⟨⟨ho.lock, hm'.alive, hg⟩, hm', hpid⟩, ?_⟩
    (fun _ _ h => ⟨h.1.1.lock, h.1.1.grown⟩) fun s _ s' _ h hrun he => ?_
  · simp
  simp only [step, if_pos h.1.1.lock] at he
  cases he
  obtain ⟨⟨ho, hm, hpid⟩, hp⟩ := h
  refine Safe.call (G := outline guard) (o := Op.setRunnable np)
    (A := fun s => (s.waitLock ≠ some p ∧ Forked pid s) ∧ Making s p np ∧ (s.proc np).parent ≠ none)
    ⟨⟨by simp, hpid⟩, ⟨hm.alive, hm.used, hm.forker, hm.born⟩, hp⟩
    (fun s s' hR h => ⟨⟨hR.free h.1.1, h.1.2.apart hR.apart⟩, (hR.apart.making np h.2.1).1,
      (hR.apart.making np h.2.1).2 h.2.2⟩)
    (fun _ _ _ h => h.2) fun s r s' hI _ _ h he => ?_
  have hstep := (exec_ok he).2
  cases hstep
  exact ⟨h.1.1, .inr h.1.2⟩

/-! ## `exit` -/

/-- In `exit`, past its `acquire`. -/
structure Leaving (p : Slot) (deaf : Slot → Prop) (s : St) : Prop where
  lock : s.waitLock = some p
  alive : (s.proc p).state.alive = true
  tree : Tree (· = s.id p) deaf s

theorem Hold.leaving : Hold p (Leaving p deaf) := by
  refine ⟨fun _ h => h.lock, fun s s' hl hf ha h => ⟨hl.trans h.lock, (ha.alive h.alive).1, ?_⟩⟩
  rw [(ha.alive h.alive).2.1]
  exact h.tree.frozen hf

theorem Owns.leaving (h : Owns p s) : Leaving p (fun _ => False) s := by
  refine ⟨h.lock, h.alive, h.grown.parent, fun q r hqr => ?_, h.grown.awake⟩
  obtain ⟨hr, hup⟩ := h.grown.up q r hqr
  refine ⟨hr, hup.imp id ?_⟩
  rintro ⟨hr, o, hb, he⟩
  exact ⟨hr, o, hb, .inl (he.elim id False.elim)⟩

theorem reparentFrom_safe {pps : List Slot} (hp : p ≠ initproc) (h : Leaving p (fun _ => False) s)
    (done : ∀ q, q ∉ pps → (s.proc q).parent ≠ some p) :
    Safe (outline guard) p (fun _ s' => Leaving p (fun _ => False) s' ∧
      ∀ q, (s'.proc q).parent ≠ some p)
      (reparentFrom p pps) s := by
  induction pps generalizing s with
  | nil => exact ⟨h, fun q => done q not_mem_nil⟩
  | cons pp pps ih =>
    have hold : Hold p fun s => Leaving p (fun _ => False) s ∧
        ∀ q, q ∉ pp :: pps → (s.proc q).parent ≠ some p :=
      ⟨fun _ h => h.1.lock, fun _ _ hl hf ha h =>
        ⟨Hold.leaving.kept _ _ hl hf ha h.1, fun q hq => by rw [hf.parent]; exact h.2 q hq⟩⟩
    refine hold.call (o := .parent pp) ⟨h, done⟩ (fun _ _ _ => trivial) fun s _ s' _ h _ he => ?_
    cases he
    obtain ⟨h, done⟩ := h
    show Safe _ _ _ (if (s.proc pp).parent = some p then _ else _) _
    split
    swap
    · rename_i hne
      refine ih h fun q hq => ?_
      by_cases e : q = pp
      · exact e ▸ hne
      · exact done q (by simp [e, hq])
    rename_i hpp
    have hold' : Hold p fun s => (Leaving p (fun _ => False) s ∧
        ∀ q, q ∉ pp :: pps → (s.proc q).parent ≠ some p) ∧ (s.proc pp).parent = some p :=
      ⟨fun _ h => h.1.1.lock, fun _ _ hl hf ha h =>
        ⟨hold.kept _ _ hl hf ha h.1, by rw [hf.parent]; exact h.2⟩⟩
    refine hold'.call (o := .setParent pp initproc) ⟨⟨h, done⟩, hpp⟩
      (fun s hc h => ⟨h.1.1.lock, fun e => ?_⟩)
      fun s _ s' hc h hrun he => ?_
    · have := h.2
      rw [(hc.entry pp).unused e] at this
      cases this
    cases he
    obtain ⟨⟨h, done⟩, hpp⟩ := h
    -- only init may miss the wakeup now
    have hl :
        Leaving p (· = initproc) (s.setProc pp { s.proc pp with parent := some initproc }) := by
      have ha : Apart p s (s.setProc pp { s.proc pp with parent := some initproc }) :=
        .setProc (fun _ ha => ⟨ha, id⟩) fun _ hu => ⟨hu, fun _ => nofun⟩
      refine ⟨h.lock, (ha.alive h.alive).1, h.tree.setParent nofun hc.init (.inr ⟨rfl, ?_⟩) ?_⟩
      · obtain ⟨-, hb | ⟨e, -⟩⟩ := h.tree.up pp p hpp
        · exact ⟨_, hb, .inr rfl⟩
        · exact absurd e hp
      · exact fun _ hd => absurd rfl hd
    have done' : ∀ q, q ∉ pps →
        ((s.setProc pp { s.proc pp with parent := some initproc }).proc q).parent ≠ some p := by
      intro q hq
      rcases eq_or_ne q pp with rfl | hqp
      · rw [St.setProc_self]
        exact fun e => hp (Option.some.inj e).symm
      · rw [St.setProc_of_ne hqp]
        exact done q (by simp [hqp, hq])
    have hold'' : Hold p fun s => Leaving p (· = initproc) s ∧
        ∀ q, q ∉ pps → (s.proc q).parent ≠ some p :=
      ⟨fun _ h => h.1.lock, fun _ _ hl hf ha h =>
        ⟨Hold.leaving.kept _ _ hl hf ha h.1, fun q hq => by rw [hf.parent]; exact h.2 q hq⟩⟩
    refine (wakeup_safe hold'' ⟨hl, done'⟩ initproc).bind fun _ s ⟨⟨h, done⟩, hw⟩ => ?_
    refine ih ⟨h.lock, h.alive, h.tree.parent, h.tree.up, fun q r hqr hz _ => ?_⟩ done
    by_cases hr : r = initproc
    · exact hr ▸ hw
    · exact h.tree.awake q r hqr hz hr

variable {status : BitVec 32}

theorem zombie_safe (hp : p ≠ initproc) (h : Leaving p (fun _ => False) s)
    (childless : ∀ q, (s.proc q).parent ≠ some p)
    (awake : ∀ r, (s.proc p).parent = some r → ¬(s.proc r).Sleeps (.proc r)) :
    Safe (outline guard) p (fun _ s' => s'.waitLock ≠ some p) (op (.zombie status)) s := by
  have hold : Hold p fun s => Leaving p (fun _ => False) s ∧ (∀ q, (s.proc q).parent ≠ some p) ∧
      ∀ r, (s.proc p).parent = some r → ¬(s.proc r).Sleeps (.proc r) :=
    ⟨fun _ h => h.1.lock, fun _ _ hl hf ha h => ⟨Hold.leaving.kept _ _ hl hf ha h.1,
      fun q => by rw [hf.parent]; exact h.2.1 q,
      fun r hr hs => h.2.2 r (by rw [← hf.parent]; exact hr) (hf.sleeps r hs)⟩⟩
  refine hold.call (o := .zombie status) ⟨h, childless, awake⟩
    (fun _ _ h => ⟨h.1.lock, hp, h.1.tree, h.2⟩) fun s _ s' _ h _ he => ?_
  simp only [step, if_pos h.1.lock] at he
  cases he
  exact (Option.some_ne_none p).symm

theorem exit_safe (h : s.waitLock ≠ some p) :
    Safe (outline guard) p (fun _ s' => s'.waitLock ≠ some p) (exit p status) s := by
  unfold exit
  split
  · exact free_call (o := .panicInit) h (fun _ _ => trivial) nofun
  rename_i hp
  refine (acquire_owns h).bind fun _ s ho => ?_
  refine (reparentFrom_safe hp ho.leaving fun q hq => absurd (mem_finRange q) hq).bind
    fun _ s ⟨h, hch⟩ => ?_
  have hold : Hold p fun s => Leaving p (fun _ => False) s ∧ ∀ q, (s.proc q).parent ≠ some p :=
    ⟨fun _ h => h.1.lock, fun _ _ hl hf ha h => ⟨Hold.leaving.kept _ _ hl hf ha h.1,
      fun q => by rw [hf.parent]; exact h.2 q⟩⟩
  refine hold.call (o := .parent p) ⟨h, hch⟩ (fun _ _ _ => trivial) fun s parent s' _ h _ he => ?_
  cases he
  obtain ⟨h, hch⟩ := h
  rcases hpp : (s.proc p).parent with _ | r
  · exact zombie_safe hp h hch fun r hr => by rw [hpp] at hr; cases hr
  · have hold' : Hold p fun s => (Leaving p (fun _ => False) s ∧ ∀ q, (s.proc q).parent ≠ some p) ∧
        (s.proc p).parent = some r :=
      ⟨fun _ h => h.1.1.lock, fun _ _ hl hf ha h =>
        ⟨hold.kept _ _ hl hf ha h.1, by rw [hf.parent]; exact h.2⟩⟩
    refine (wakeup_safe hold' ⟨⟨h, hch⟩, hpp⟩ r).bind fun _ s ⟨⟨⟨h, hch⟩, hpp⟩, hw⟩ => ?_
    refine zombie_safe hp h hch fun r' hr' => ?_
    rw [hpp] at hr'
    cases hr'
    exact hw

/-! ## `wait` -/

/-- Nobody is the child of a zombie, so freeing one leaves the tree in order. -/
theorem Grown.reap {addr : Addr} (h : Grown s) (hq : (s.proc q).state = .zombie) :
    Grown (s.reap p q addr) := by
  have hparent : ∀ q' r, ((s.reap p q addr).proc q').parent = some r →
      q' ≠ q ∧ (s.proc q').parent = some r :=
    St.forall_setProc (P := fun q' x => ∀ r, x.parent = some r → q' ≠ q ∧
      (s.proc q').parent = some r)
      (fun _ => nofun) fun _ hne _ hr => ⟨hne, hr⟩
  have other : ∀ r, r ≠ q → (s.reap p q addr).proc r = s.proc r := fun r hr => St.setProc_of_ne hr _
  have up : ∀ q' r, (s.proc q').parent = some r → r ≠ q := by
    rintro q' r hqr rfl
    have := (h.up q' r hqr).1
    rw [hq] at this
    cases this
  refine ⟨?_, fun q' r hqr => ?_, fun q' r hqr hz _ => ?_⟩
  · exact St.forall_setProc (P := fun q' x => q' ≠ initproc → x.state.alive = true ∨
      x.state = .zombie →
      x.parent ≠ none) (fun _ hs => hs.elim nofun nofun) fun q' _ => h.parent q'
  · obtain ⟨-, hqr⟩ := hparent q' r hqr
    obtain ⟨hr, hup⟩ := h.up q' r hqr
    rw [other r (up q' r hqr)]
    refine ⟨hr, hup.imp Born.cons ?_⟩
    rintro ⟨hr, o, hb, he⟩
    exact ⟨hr, o, hb.cons, he.imp Exited.cons id⟩
  · obtain ⟨hne, hqr⟩ := hparent q' r hqr
    rw [other r (up q' r hqr)]
    rw [other q' hne] at hz
    exact h.awake q' r hqr hz id

/-- What `wait(addr)` of `p`, called in `s`, returns in `s'`: the pid of the one process that it has
reaped, with the exit status at `addr`; or -1, with nobody reaped, because `p` was killed, because
the status could not be stored, or because nobody has `p` as its parent. -/
inductive Waited (p : Slot) (addr : Addr) (s : St) (r : BitVec 32) (s' : St) : Prop
  | reaped (child : Nat) (status : BitVec 32)
      (reap : reapsOf (s.id p) s'.hist = .reap (s.id p) child r status :: reapsOf (s.id p) s.hist)
      (exit : .exit child r status ∈ s'.hist) (stored : addr ≠ .null → s'.word p = status)
      (mapped : addr ≠ .unmapped)
  | failed (value : r = -1) (none : reapsOf (s.id p) s'.hist = reapsOf (s.id p) s.hist)
      (why : (s'.proc p).killed = true ∨ addr = .unmapped ∨ ∀ q, (s'.proc q).parent ≠ some p)

variable {s₀ : St} {addr : Addr} {pid : BitVec 32}

/-- In a `wait` that was called in `s₀` and has reaped nobody yet. -/
structure Waits (p : Slot) (s₀ s : St) : Prop where
  alive : (s.proc p).state.alive = true
  id : s.id p = s₀.id p
  reaps : reapsOf (s₀.id p) s.hist = reapsOf (s₀.id p) s₀.hist

theorem Waits.apart {s' : St} (h : Waits p s₀ s) (ha : Apart p s s') : Waits p s₀ s' := by
  obtain ⟨alive, hid, -⟩ := ha.alive h.alive
  refine ⟨alive, hid.trans h.id, ?_⟩
  have := (ha.own h.alive).2
  rw [h.id] at this
  exact this.trans h.reaps

theorem Waits.sleep (h : Waits p s₀ s) :
    Waits p s₀ { s.setProc p ((s.proc p).sleep (.proc p)) with waitLock := none } := by
  have hs : Apart p s (s.setProc p ((s.proc p).sleep (.proc p))) := by
    refine .setProc (fun _ _ => ⟨rfl, fun h => h⟩) fun _ hu => ?_
    exact absurd hu (alive_ne h.alive).2.1
  exact (h.apart hs).apart (.relock _ _ _)

theorem acquire_waits (h : s.waitLock ≠ some p) (hw : Waits p s₀ s) :
    Safe (outline guard) p (fun _ s' => Owns p s' ∧ Waits p s₀ s') (op .acquire) s :=
  acquire_safe h hw (fun _ _ hR h => h.apart hR.apart) fun _ h => ⟨h.alive, h.id, h.reaps⟩

theorem Hold.waits : Hold p fun s => Owns p s ∧ Waits p s₀ s :=
  ⟨fun _ h => h.1.lock, fun _ _ hl hf ha h => ⟨Hold.owns.kept _ _ hl hf ha h.1, h.2.apart ha⟩⟩

/-- In a `wait` that was called in `s₀` and has reaped process `pid`. -/
structure Found (p : Slot) (addr : Addr) (s₀ : St) (pid : BitVec 32) (s : St) : Prop where
  owns : Owns p s
  id : s.id p = s₀.id p
  waited : Waited p addr s₀ pid s

theorem Hold.found : Hold p (Found p addr s₀ pid) := by
  refine ⟨fun _ h => h.owns.lock, fun s s' hl hf ha h => ?_⟩
  obtain ⟨-, hid, hk⟩ := ha.alive h.owns.alive
  obtain ⟨hw, hl'⟩ := ha.own h.owns.alive
  rw [h.id] at hl'
  refine ⟨Hold.owns.kept _ _ hl hf ha h.owns, hid.trans h.id, ?_⟩
  cases h.waited with
  | reaped child status reap exit stored mapped =>
    exact .reaped child status (hl'.trans reap) (ha.hist _ exit)
      (fun hn => hw.trans (stored hn)) mapped
  | failed value none why =>
    refine .failed value (hl'.trans none) (why.imp hk (Or.imp_right fun h q => ?_))
    rw [hf.parent]
    exact h q

/-- What a scan of the table by `wait` has found. -/
def Scan.Post (p : Slot) (addr : Addr) (s₀ s : St) : Scan → Prop
  | .fault => (Owns p s ∧ Waits p s₀ s) ∧ addr = .unmapped
  | .reaped pid => Found p addr s₀ pid s
  | .none havekids => (Owns p s ∧ Waits p s₀ s) ∧
    (havekids = false → ∀ q, (s.proc q).parent ≠ some p) ∧
    ∀ q, (s.proc q).parent = some p → (s.proc q).state ≠ .zombie

/-- In the scan, with the entries `nps` to go. -/
structure Scanning (p : Slot) (s₀ : St) (havekids : Bool) (nps : List Slot) (s : St) : Prop where
  owns : Owns p s
  waits : Waits p s₀ s
  kids : havekids = false → ∀ q, q ∉ nps → (s.proc q).parent ≠ some p
  zombies : ∀ q, q ∉ nps → (s.proc q).parent = some p → (s.proc q).state ≠ .zombie

variable {havekids : Bool} {nps : List Slot}

theorem Hold.scanning : Hold p (Scanning p s₀ havekids nps) :=
  ⟨fun _ h => h.owns.lock, fun _ _ hl hf ha h => ⟨Hold.owns.kept _ _ hl hf ha h.owns,
    h.waits.apart ha, fun hk q hq => by rw [hf.parent]; exact h.kids hk q hq,
    fun q hq hp hz => h.zombies q hq (by rw [← hf.parent]; exact hp) ((hf.zombie q).1 hz)⟩⟩

/-- `wait` finds the zombie `q`. -/
theorem Found.reap (hc : Core s) (h : Owns p s) (hw : Waits p s₀ s)
    (hrun : (s.proc p).state = .running) (hz : (s.proc q).state = .zombie) (ha : addr ≠ .unmapped) :
    Found p addr s₀ (s.proc q).pid (s.reap p q addr) := by
  have hp : p ≠ q := fun e => by rw [← e, hrun] at hz; cases hz
  refine ⟨⟨h.lock, ?_, h.grown.reap hz⟩, hw.id, ?_⟩
  · change ((s.setProc q .zero).proc p).state.alive = true
    rw [St.setProc_of_ne hp]
    exact h.alive
  · refine .reaped (s.id q) (s.proc q).xstate ?_ (.tail _ ((hc.entry q).zombie hz).1)
      (fun hn => ?_) ha
    · rw [← hw.reaps, ← hw.id]
      exact filter_cons_of_pos (by simp [Event.isReapBy])
    · show (if addr = .null then s.word else _) p = _
      rw [if_neg hn]
      exact Function.update_self ..

theorem scanFrom_safe (h : Scanning p s₀ havekids nps s) :
    Safe (outline guard) p (fun a s' => a.Post p addr s₀ s') (scanFrom p addr havekids nps) s := by
  induction nps generalizing s havekids with
  | nil =>
    exact ⟨⟨h.owns, h.waits⟩, fun hk q => h.kids hk q not_mem_nil, fun q => h.zombies q not_mem_nil⟩
  | cons np nps ih =>
    refine Hold.scanning.call (o := .parent np) h (fun _ _ _ => trivial) fun s _ s' _ h _ he => ?_
    cases he
    show Safe _ _ _ (if (s.proc np).parent = some p then _ else _) _
    split
    swap
    · rename_i hne
      refine ih ⟨h.owns, h.waits, fun hk q hq => ?_, fun q hq hp => ?_⟩
      · by_cases e : q = np
        · exact e ▸ hne
        · exact h.kids hk q (by simp [e, hq])
      · by_cases e : q = np
        · exact absurd (e ▸ hp) hne
        · exact h.zombies q (by simp [e, hq]) hp
    rename_i hnp
    have hold : Hold p fun s => Scanning p s₀ havekids (np :: nps) s ∧
        (s.proc np).parent = some p :=
      ⟨fun _ h => h.1.owns.lock, fun _ _ hl hf ha h =>
        ⟨Hold.scanning.kept _ _ hl hf ha h.1, by rw [hf.parent]; exact h.2⟩⟩
    refine hold.call (o := .reap np addr) ⟨h, hnp⟩
      (fun _ _ h => ⟨h.1.owns.lock, h.1.owns.grown, h.2⟩)
      fun s _ s' hc h hrun he => ?_
    obtain ⟨h, hnp⟩ := h
    simp only [step] at he
    split at he
    · rename_i hz
      split at he <;> cases he
      · exact ⟨⟨h.owns, h.waits⟩, ‹_›⟩
      · exact .reap hc h.owns h.waits hrun hz ‹_›
    · rename_i hz
      cases he
      refine ih ⟨h.owns, h.waits, by simp, fun q hq hp => ?_⟩
      by_cases e : q = np
      · exact e ▸ hz
      · exact h.zombies q (by simp [e, hq]) hp

theorem waitFail_safe (h : Owns p s) (hw : Waits p s₀ s)
    (why : (s.proc p).killed = true ∨ addr = .unmapped ∨ ∀ q, (s.proc q).parent ≠ some p) :
    Safe (outline guard) p (fun r s' => s'.waitLock ≠ some p ∧ Waited p addr s₀ r s')
    (waitFail addr) s := by
  have hold : Hold p fun s => Owns p s ∧ Waits p s₀ s ∧
      ((s.proc p).killed = true ∨ addr = .unmapped ∨ ∀ q, (s.proc q).parent ≠ some p) := by
    refine ⟨fun _ h => h.1.lock, fun _ _ hl hf ha h =>
      ⟨Hold.owns.kept _ _ hl hf ha h.1, h.2.1.apart ha, h.2.2.imp (ha.alive h.1.alive).2.2 ?_⟩⟩
    refine Or.imp_right fun hk q => ?_
    rw [hf.parent]
    exact hk q
  refine hold.call (o := .waitFailed addr) ⟨h, hw, why⟩
    (fun s _ h => ⟨h.1.lock, h.1.grown, fun hc => ?_⟩)
    fun s _ s' _ h _ he => ?_
  · obtain ⟨q, hq⟩ := of_decide_eq_true hc
    exact h.2.2.imp_right (Or.resolve_right · fun hk => hk q hq)
  · simp only [step, if_pos h.1.lock] at he
    cases he
    exact ⟨(Option.some_ne_none p).symm, .failed rfl h.2.1.reaps h.2.2⟩

variable {fuel : Nat}

theorem waitFrom_safe (h : Owns p s) (hw : Waits p s₀ s) :
    Safe (outline guard) p (fun r s' => s'.waitLock ≠ some p ∧ Waited p addr s₀ r s')
      (waitFrom p addr fuel) s := by
  induction fuel generalizing s with
  | zero => exact Hold.owns.call (o := .stop) h (fun _ _ _ => trivial) nofun
  | succ fuel ih =>
    have all : ∀ q : Slot, q ∈ slots := mem_finRange
    have hs : Scanning p s₀ false slots s :=
      ⟨h, hw, fun _ q hq => absurd (all q) hq, fun q hq => absurd (all q) hq⟩
    refine (scanFrom_safe hs).bind fun a s ha => ?_
    rcases a with _ | pid | ⟨_ | _⟩
    · exact waitFail_safe ha.1.1 ha.1.2 (.inr (.inl ha.2))
    · refine Hold.found.call (o := .release) ha (fun _ _ h => ⟨h.owns.lock, h.owns.grown⟩)
        fun s _ s' _ h _ he => ?_
      simp only [step, if_pos h.owns.lock] at he
      cases he
      refine ⟨(Option.some_ne_none p).symm, ?_⟩
      cases h.waited with
      | reaped child status reap exit stored mapped =>
        exact .reaped child status reap exit stored mapped
      | failed value none why => exact .failed value none why
    · exact waitFail_safe ha.1.1 ha.1.2 (.inr (.inr (ha.2.1 rfl)))
    · have hold : Hold p fun s => (Owns p s ∧ Waits p s₀ s) ∧
          ∀ q, (s.proc q).parent = some p → (s.proc q).state ≠ .zombie :=
        ⟨fun _ h => h.1.1.lock, fun _ _ hl hf ha h => ⟨Hold.waits.kept _ _ hl hf ha h.1,
          fun q hp hz => h.2 q (by rw [← hf.parent]; exact hp) ((hf.zombie q).1 hz)⟩⟩
      refine hold.call (o := .killed) ⟨ha.1, ha.2.2⟩ (fun _ _ _ => trivial)
        fun s _ s' _ h _ he => ?_
      cases he
      show Safe _ _ _ (if (s.proc p).killed = true then _ else _) _
      split
      · exact waitFail_safe h.1.1 h.1.2 (.inl ‹_›)
      refine hold.call (o := .sleepWait) h (fun _ _ h => ⟨h.1.1.lock, h.1.1.grown, h.2⟩)
        fun s _ s' _ h _ he => ?_
      simp only [step, if_pos h.1.1.lock] at he
      cases he
      refine Safe.call (G := outline guard) (o := Op.awake)
        (A := fun s => s.waitLock ≠ some p ∧ Waits p s₀ s) ⟨by simp, h.1.2.sleep⟩
        (fun _ _ hR h => ⟨hR.free h.1, h.2.apart hR.apart⟩) (fun _ _ _ _ => trivial)
        fun s _ s' _ _ _ h he => ?_
      obtain ⟨-, hstep⟩ := exec_ok he
      cases hstep
      exact (acquire_waits (s := s.setProc p _) h.1 (h.2.apart ((Touch.awake _).apart p))).bind
        fun _ _ h => ih h.1 h.2

theorem wait_safe (h : s.waitLock ≠ some p) (alive : (s.proc p).state.alive = true) :
    Safe (outline guard) p (fun r s' => s'.waitLock ≠ some p ∧ Waited p addr s r s')
    (wait p addr fuel) s :=
  (acquire_waits h ⟨alive, rfl, rfl⟩).bind fun _ _ h => waitFrom_safe h.1 h.2

theorem wait_free (h : s.waitLock ≠ some p) :
    Safe (outline guard) p (fun _ s' => s'.waitLock ≠ some p) (wait p addr fuel) s :=
  (acquire_owns h).bind fun _ _ h =>
    (waitFrom_safe h ⟨h.alive, rfl, rfl⟩).mono fun _ _ h => h.1

/-! ## The rest -/

theorem killFrom_safe {pid : BitVec 32} (h : s.waitLock ≠ some p) :
    Safe (outline guard) p (fun _ s' => s'.waitLock ≠ some p) (killFrom pid qs) s := by
  induction qs generalizing s with
  | nil => exact h
  | cons q qs ih =>
    refine free_call (o := .kill q pid) h (fun _ _ => trivial) fun s _ s' _ h _ he => ?_
    simp only [step] at he
    split at he
    · cases he; exact h
    · cases he; exact ih h

theorem wakeupOther_safe {n : Nat} (h : s.waitLock ≠ some p) :
    Safe (outline guard) p (fun _ s' => s'.waitLock ≠ some p) (wakeupFrom (.other n) qs) s := by
  induction qs generalizing s with
  | nil => exact h
  | cons q qs ih =>
    refine free_call (o := .wakeup q (.other n)) h (fun _ _ => trivial) fun s _ s' _ h _ he => ?_
    cases he
    refine ih ?_
    split <;> exact h

theorem Call.safe {x : Code Unit} (hx : Call p x) (h : s.waitLock ≠ some p) :
    Safe (outline guard) p (fun _ s' => s'.waitLock ≠ some p) x s := by
  cases hx with
  | fork => exact (fork_safe h).bind fun _ _ h => h.1
  | exit => exact exit_safe h
  | wait => exact (wait_free h).bind fun _ _ h => h
  | kill => exact (killFrom_safe h).bind fun _ _ h => h
  | usertrap =>
    refine free_call (o := .fault) h (fun _ _ => trivial) fun s _ s' _ h _ he => ?_
    cases he
    exact exit_safe h
  | sleep n =>
    refine free_call (o := .sleep n) h (fun _ _ => trivial) fun s _ s' _ h _ he => ?_
    cases he
    refine free_call (o := .awake) h (fun _ _ => trivial) fun s _ s' _ h _ he => ?_
    cases he
    exact h
  | wakeup => exact wakeupOther_safe h

theorem boot_good : boot.Good (outline guard) := by
  have zero : ∀ q, q ≠ initproc → boot.st.proc q = .zero := fun q hq => by simp [boot, hq]
  have hinit : boot.st.proc initproc = { Proc.zero with state := .runnable, pid := 1 } := by
    simp [boot]
  refine ⟨⟨⟨fun q => ?_, fun q r hq hr _ => ?_, ?_, rfl, ?_, trivial⟩, fun _ => ⟨fun q hq hs => ?_,
    fun q r hqr => ?_, fun q r hqr => ?_⟩⟩, fun p => nofun⟩
  · rcases eq_or_ne q initproc with rfl | hq
    · rw [hinit]
      exact ⟨Nat.one_pos, nofun, fun _ _ => ⟨nofun, nofun⟩, nofun, fun h => absurd rfl h⟩
    · rw [zero q hq]
      exact ⟨Nat.one_pos, fun _ => rfl, fun h => absurd rfl h, nofun, fun _ h => absurd rfl h⟩
  · have only : ∀ q, (boot.st.proc q).state ≠ .unused → q = initproc := fun q hq => by
      by_contra hne
      rw [zero q hne] at hq
      exact hq rfl
    rw [only q hq, only r hr]
  · rw [hinit]; rfl
  · rintro i (⟨_, _, ⟨⟩⟩ | ⟨_, _, _, ⟨⟩⟩ | ⟨_, _, ⟨⟩⟩)
  · rw [zero q hq] at hs
    exact hs.elim nofun nofun
  all_goals
    have : (boot.st.proc q).parent = none := by
      rcases eq_or_ne q initproc with rfl | hq
      · rw [hinit]; rfl
      · rw [zero q hq]; rfl
    rw [this] at hqr
    cases hqr

theorem reaches_good {c : Config iface St Slot} (hr : (system guard).Reaches boot c) :
    c.Good (outline guard) :=
  Config.Good.reaches (fun hx _ hi => Call.safe hx hi) boot_good hr

/-- In every run: when nobody holds `wait_lock`, every process but init that is `RUNNABLE`,
`RUNNING`, `SLEEPING` or a `ZOMBIE` has a parent that is neither free nor a zombie, and nobody
sleeps in `wait` who has a zombie child; the history is lawful; and `wait` returns what `Waited`
says. -/
theorem process_tree {c : Config iface St Slot} (hr : (system fun _ _ _ => True).Reaches boot c) :
    (c.st.waitLock = none →
      (∀ q, q ≠ initproc → (c.st.proc q).state.alive = true ∨ (c.st.proc q).state = .zombie →
        ∃ r, (c.st.proc q).parent = some r ∧ (c.st.proc r).state ≠ .unused ∧
          (c.st.proc r).state ≠ .zombie) ∧
      ∀ q r, (c.st.proc r).Sleeps (.proc r) → (c.st.proc q).parent = some r →
        (c.st.proc q).state ≠ .zombie) ∧
    Lawful c.st.hist ∧
    ∀ p addr fuel k r c', (c.st.proc p).state = .running →
      (system fun _ _ _ => True).Returns p k (wait p addr fuel) c r c' →
      Waited p addr c.st r c'.st := by
  have good := reaches_good hr
  have hI : Inv c.st := good.inv
  refine ⟨fun hl => ⟨fun q hq hs => ?_, fun q r hsl hqr hz => ?_⟩, hI.core.lawful,
    fun p addr fuel k r c' hrun ret => ?_⟩
  · obtain ⟨r, hqr⟩ := Option.ne_none_iff_exists'.1 ((hI.grown hl).parent q hq hs)
    have := alive_ne ((hI.grown hl).up q r hqr).1
    exact ⟨r, hqr, this.1, this.2.2⟩
  · exact (hI.grown hl).awake q r hqr hz id hsl
  · have free : c.st.waitLock ≠ some p := good.pre (o := .acquire) ret.prog_eq trivial
    have safe :=
      good.returns (fun hx _ hi => Call.safe hx hi) ret (wait_safe free (by rw [hrun]; rfl))
    exact safe.2

/-- Init forks a child, which exits with status 7. -/
def exitChild : List (Move iface St Slot) :=
  [run initproc, .start initproc do let _ ← fork initproc true] ++ replicate 6 (.op initproc) ++
  [run slot1, .start slot1 (exit slot1 7)] ++ replicate 131 (.op slot1)

theorem legal_exitChild {guard : Slot → Op → St → Prop} :
    ∀ m ∈ exitChild, m.Legal (system guard) := by
  intro m hm
  simp only [exitChild, mem_append, mem_cons, not_mem_nil, or_false, mem_replicate] at hm
  rcases hm with (((rfl | rfl) | ⟨-, rfl⟩) | (rfl | rfl)) | ⟨-, rfl⟩
  · exact legal_run _
  · exact fun _ => .fork true
  · trivial
  · exact legal_run _
  · exact fun _ => .exit 7
  · trivial

/-- Init is idle, and its `wait` reaps the child. -/
def reapsChild (c : Config iface St Slot) : Bool :=
  match c.prog initproc, (wait initproc .mapped 1).run (exec initproc) c.st with
  | .ret _, .ok (r, s) =>
    (c.st.proc initproc).state = .running ∧ r = 2 ∧ s.word initproc = 7 ∧
      s.hist = [.reap 0 1 2 7, .exit 1 2 7, .fork 0 1 2]
  | _, _ => false

theorem process_tree_reap :
    ∃ c c', (system fun _ _ _ => True).Reaches boot c ∧
      (system fun _ _ _ => True).Returns initproc (fun _ => .ret ())
      (wait initproc .mapped 1) c 2 c' ∧
      c'.st.word initproc = 7 ∧ c'.st.hist = [.reap 0 1 2 7, .exit 1 2 7, .fork 0 1 2] ∧
      Lawful c.st.hist ∧ Waited initproc .mapped c.st 2 c'.st := by
  obtain ⟨c, hr, hc⟩ : ∃ c, (system fun _ _ _ => True).Reaches boot c ∧ reapsChild c = true :=
    reaches_of_play exitChild (fun _ _ _ => true) legal_exitChild (fun _ _ _ _ => trivial)
      (by decide +kernel)
  unfold reapsChild at hc
  split at hc
  · rename_i _ r s idle run
    obtain ⟨running, rfl, word, hist⟩ := of_decide_eq_true hc
    have called := hr.tail (.start (p := initproc) idle (.wait .mapped 1))
    have ret := System.Returns.of_run (S := system fun _ _ _ => True) (k := fun _ => .ret ())
      (c := ⟨c.st, Function.update c.prog initproc _⟩) (fun _ _ => trivial)
        (Function.update_self ..) run
    have tree := process_tree called
    exact ⟨_, _, called, ret, word, hist, tree.2.1, tree.2.2 _ _ _ _ _ _ running ret⟩
  · cases hc

end Xv6.Procs
