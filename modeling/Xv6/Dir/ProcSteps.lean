import Xv6.Dir.FileSteps

/-!
# Operations on pipes and processes keep the invariant

An end of a pipe that has been closed twice, or a page that is freed twice, would make an account
negative. A new process takes over what `fork` has collected for it.
-/

namespace Xv6.Dir

open Lib Function List Finset

variable {P : Type} [DecidableEq P] [Fintype P] {s s' : St P} {g : Ledger P} {p q : P}
  {l l' : Loc} {i : IId} {f : FId} {n : Nat}

/-! ## Pipes -/

/-- Process `p` makes `x` of the page `pi` and gains ends of it, or `c` pages to be freed. -/
structure PipeStep (p : P) (s : St P) (g : Ledger P) (pi : Nat) (x : Option Pipe) (free : List Nat)
    (ends : Nat × Bool → ℤ) (c : ℤ) : Prop where
  law : ∀ w, (if Pipe.isOpen x w then 1 else 0) =
    (if Pipe.isOpen (s.pipe pi) w then 1 else 0) + ends (pi, w)
  off : ∀ e, e.1 ≠ pi → ends e = 0
  nonneg : ∀ e, 0 ≤ g.ends p e + ends e
  dead : (if x = some ⟨false, false⟩ then 1 else 0) =
    (if s.pipe pi = some ⟨false, false⟩ then 1 else 0) + c
  corpses : 0 ≤ g.corpses p pi + c
  nodup : free.Nodup
  free : ∀ pj ∈ free, Function.update s.pipe pi x pj = none

section

variable {pi : Nat} {x : Option Pipe} {free : List Nat} {ends : Nat × Bool →
  ℤ} {c : ℤ} {o : Op} {r : o.Res}

theorem PipeStep.pipeInv {g' : Ledger P} (hs : PipeStep p s g pi x free ends c) (hI : PipeInv s g)
    (hf : s'.file = s.file) (hp : s'.pipe = Function.update s.pipe pi x) (hfr : s'.free = free)
    (he : g'.ends = Function.update g.ends p (g.ends p + ends))
    (hc : g'.corpses = Function.update g.corpses p (g.corpses p + Pi.single pi c)) :
    PipeInv s' g' := by
  refine ⟨fun e => ?_, gain_nonneg he hI.nonneg hs.nonneg, fun pj => ?_,
    gain_single_nonneg hc hI.corpses hs.corpses, ?_, ?_⟩
  · rw [sum_gain he, hf, ← add_assoc, ← hI.law e, openEnds, openEnds, hp]
    by_cases hpi : e.1 = pi
    · rw [hpi, update_self, hs.law e.2, ← hpi]
    · rw [update_of_ne hpi, hs.off e hpi, add_zero]
  · rw [sum_gain hc, ← hI.dead pj, deadPipes, deadPipes, hp]
    by_cases hpj : pj = pi
    · subst hpj
      rw [update_self, hs.dead, Pi.single_eq_same]
    · rw [update_of_ne hpj, Pi.single_eq_of_ne hpj, add_zero]
  · rw [hfr]
    exact hs.nodup
  · rw [hfr, hp]
    exact hs.free

theorem Next.pipe {le : Nat × Bool → Nat} {lc : Nat → Nat} (hI : Inv s g) (h : At p l s g)
    (hs : PipeStep p s g pi x free ends c)
    (hs' : s' = { s with pipe := Function.update s.pipe pi x, free := free })
    (gains : Gains o r 0 0 ends (Pi.single pi c)) (copy : copyOf s' o r = none)
    (live : l.mid ≠ .exited) (hle : ∀ e, g.ends p e + ends e = le e)
    (hlc : ∀ pj, g.corpses p pj + Pi.single (M := fun _ => ℤ) pi c pj = lc pj) :
    Next p o r s s' g { l with ends := le, corpses := lc } := by
  have hr : (g.next p o r s s').refs = g.refs := next_refs gains.ne gains.refs
  have hf : (g.next p o r s s').files = g.files := next_files gains.ne gains.files
  have he : (g.next p o r s s').ends = Function.update g.ends p (g.ends p + ends) := by
    rw [Ledger.next, gains.ends]
    exact enter_eq gains.ne
  have hc : (g.next p o r s s').corpses = Function.update g.corpses p
      (g.corpses p + Pi.single pi c) := by
    rw [Ledger.next, gains.corpses]
    exact enter_eq gains.ne
  have hy : (g.next p o r s s').seen = g.seen := next_seen copy
  have proc {q : P} {lq : Loc} (hat : ProcAt q lq s) : ProcAt q lq s' := by
    subst hs'
    exact hat.congr rfl rfl rfl rfl rfl
  have hi : s'.inode = s.inode := by rw [hs']
  have hd : s'.disk = s.disk := by rw [hs']
  have hfi : s'.file = s.file := by rw [hs']
  have procInv : ProcInv s' := by
    subst hs'
    exact hI.proc.congr rfl rfl rfl rfl
  refine ⟨⟨hI.inode.congr hi hd hfi hr hf, hI.file.congr hfi hf,
    hs.pipeInv hI.pipe hfi (by rw [hs']) (by rw [hs']) he hc, procInv⟩, ⟨?_, ?_, ?_, ?_⟩,
    fun q hq lq hat => ⟨?_, ?_, ?_, proc hat.proc⟩⟩
  · exact h.inode.congr hi hd (by rw [hr]) (by rw [hy]) rfl rfl rfl rfl
  · exact h.file.congr hfi (by rw [hf]) rfl rfl rfl rfl
  · refine ⟨fun e => ?_, fun pj => ?_⟩
    · rw [he, update_self]
      exact hle e
    · rw [hc, update_self]
      exact hlc pj
  · exact (proc h.proc).congr_loc live live rfl rfl rfl rfl
  · exact hat.inode.congr hi hd (by rw [hr]) (by rw [hy]) rfl rfl rfl rfl
  · exact hat.file.congr hfi (by rw [hf]) rfl rfl rfl rfl
  · exact hat.pipe.congr (by rw [he, update_of_ne hq]) (by rw [hc, update_of_ne hq]) rfl rfl

end

theorem Next.pipeNew {pi : Nat} {free : List Nat} (hI : Inv s g) (h : At p l s g)
    (live : l.mid ≠ .exited)
    (hfree : s.free = pi :: free) (hs : s' = { s.setPipe pi (some ⟨true, true⟩) with free }) :
    Next p .pipeNew (some pi) s s' g
      { l with ends := l.ends + Pi.single (pi, false) 1 + Pi.single (pi, true) 1 } := by
  have nodup := hI.pipe.nodup
  have unused := hI.pipe.free
  rw [hfree] at nodup unused
  have none : s.pipe pi = none := unused pi (mem_cons_self ..)
  have step : PipeStep p s g pi (some ⟨true, true⟩) free
      (Pi.single (pi, false) 1 + Pi.single (pi, true) 1) 0 := by
    refine ⟨fun w => ?_, fun e he => ?_, fun e => ?_, ?_, ?_, nodup.of_cons, fun pj hpj => ?_⟩
    · cases w <;> simp [Pipe.isOpen, none]
    · have h₁ : e ≠ (pi, false) := fun h => he (by rw [h])
      have h₂ : e ≠ (pi, true) := fun h => he (by rw [h])
      simp [h₁, h₂]
    · have := hI.pipe.nonneg p e
      simp only [Pi.add_apply, Pi.single_apply]
      split <;> split <;> omega
    · simp [none]
    · simpa using hI.pipe.corpses p pi
    · have hne : pj ≠ pi := by
        rintro rfl
        exact (nodup_cons.1 nodup).1 hpj
      rw [update_of_ne hne]
      exact unused pj (mem_cons_of_mem _ hpj)
  refine Next.pipe hI h step hs ⟨nofun, rfl, rfl, rfl, (Pi.single_zero pi).symm⟩ rfl live
    (fun e => ?_) fun pj => ?_
  · rw [h.pipe.ends]
    simp only [Pi.add_apply, Pi.single_apply]
    split <;> split <;> push_cast <;> omega
  · simpa using h.pipe.corpses pj

omit [DecidableEq P] in
/-- An end of a pipe that no file refers to is open. -/
theorem At.open_end {pi : Nat} {w : Bool} (hI : Inv s g) (h : At p l s g)
    (pos : 0 < l.ends (pi, w)) :
    Pipe.isOpen (s.pipe pi) w = true ∧ l.ends (pi, w) = 1 := by
  have hsum := single_le_sum (f := fun p => g.ends p (pi, w)) (fun p _ => hI.pipe.nonneg p _)
    (mem_univ p)
  have hfile : 0 ≤ fileEnds s.file (pi, w) := sum_nonneg fun f _ => by split <;> simp
  have hlaw := hI.pipe.law (pi, w)
  have hl := h.pipe.ends (pi, w)
  rw [openEnds] at hlaw
  split at hlaw
  · exact ⟨‹_›, by omega⟩
  · omega

theorem Next.pipeclose {pi : Nat} {w : Bool} {x : Pipe} (hI : Inv s g) (h : At p l s g)
    (live : l.mid ≠ .exited) (ends : 0 < l.ends (pi, w)) (hx : s.pipe pi = some x)
    {y : Pipe} (hy : y = if w then { x with writeopen := false } else { x with readopen := false })
    {b : Bool} (hb : b = (!y.readopen && !y.writeopen)) (hs : s' = s.setPipe pi (some y)) :
    Next p (.pipeclose pi w) b s s' g { l with
      ends := l.ends - Pi.single (pi, w) 1
      corpses := if b then l.corpses + Pi.single pi 1 else l.corpses } := by
  obtain ⟨hopen, -⟩ := h.open_end hI ends
  have hl := h.pipe.ends (pi, w)
  have step : PipeStep p s g pi (some y) s.free (-Pi.single (pi, w) 1) (if b then 1 else 0) := by
    refine ⟨fun w' => ?_, fun e he => ?_, fun e => ?_, ?_, ?_, hI.pipe.nodup, fun pj hpj => ?_⟩
    · rw [hx] at hopen ⊢
      cases w <;> cases w' <;> simp_all [Pipe.isOpen]
    · have : e ≠ (pi, w) := fun h => he (by rw [h])
      simp [this]
    · have := hI.pipe.nonneg p e
      by_cases he : e = (pi, w)
      · subst he
        simp only [Pi.neg_apply, Pi.single_eq_same]
        omega
      · simpa [he] using this
    · rw [hx] at hopen ⊢
      obtain ⟨r, w'⟩ := x
      cases w <;> cases r <;> cases w' <;> simp_all [Pipe.isOpen]
    · have := hI.pipe.corpses p pi
      split <;> omega
    · have hne : pj ≠ pi := by
        rintro rfl
        have := hI.pipe.free pj hpj
        simp [hx] at this
      rw [update_of_ne hne]
      exact hI.pipe.free pj hpj
  have gains : Gains (.pipeclose pi w) b 0 0 (-Pi.single (pi, w) 1)
      (Pi.single pi (if b then 1 else 0)) := by
    refine ⟨nofun, rfl, rfl, rfl, ?_⟩
    cases b
    · exact (Pi.single_zero pi).symm
    · rfl
  refine Next.pipe hI h step hs gains rfl live (fun e => ?_) fun pj => ?_
  · rw [h.pipe.ends]
    by_cases he : e = (pi, w)
    · subst he
      simp only [Pi.neg_apply, Pi.sub_apply, Pi.single_eq_same]
      omega
    · simp [he]
  · rw [h.pipe.corpses]
    cases b
    · simp
    · simp [Pi.single_apply, apply_ite]

omit [DecidableEq P] in
theorem At.corpse {pi : Nat} (hI : Inv s g) (h : At p l s g) (corpse : 0 < l.corpses pi) :
    s.pipe pi = some ⟨false, false⟩ ∧ l.corpses pi = 1 := by
  have hsum := single_le_sum (f := fun p => g.corpses p pi) (fun p _ => hI.pipe.corpses p _)
    (mem_univ p)
  have hdead := hI.pipe.dead pi
  have hl := h.pipe.corpses pi
  rw [deadPipes] at hdead
  split at hdead
  · exact ⟨‹_›, by omega⟩
  · omega

theorem Next.kfree {pi : Nat} (hI : Inv s g) (h : At p l s g) (live : l.mid ≠ .exited)
    (corpse : 0 < l.corpses pi) (hs : s' = { s.setPipe pi none with free := pi :: s.free }) :
    Next p (.kfree pi) () s s' g { l with corpses := l.corpses - Pi.single pi 1 } := by
  obtain ⟨hx, -⟩ := h.corpse hI corpse
  have hl := h.pipe.corpses pi
  have step : PipeStep p s g pi none (pi :: s.free) 0 (-1) := by
    refine ⟨fun w => ?_, fun _ _ => rfl,
      fun e => by simpa using hI.pipe.nonneg p e, ?_, by omega, ?_, fun pj hpj => ?_⟩
    · cases w <;> simp [Pipe.isOpen, hx]
    · simp [hx]
    · refine nodup_cons.2 ⟨fun hpi => ?_, hI.pipe.nodup⟩
      have := hI.pipe.free pi hpi
      simp [hx] at this
    · by_cases hne : pj = pi
      · rw [hne, update_self]
      · rw [update_of_ne hne]
        exact hI.pipe.free pj ((mem_cons.1 hpj).resolve_left hne)
  refine Next.pipe hI h step hs ⟨nofun, rfl, rfl, rfl, (Pi.single_neg ..).symm⟩ rfl live
    (fun e => (add_zero _).trans (h.pipe.ends e)) fun pj => ?_
  rw [h.pipe.corpses]
  by_cases hpj : pj = pi
  · subst hpj
    simp only [Pi.sub_apply, Pi.single_eq_same]
    omega
  · simp [hpj]

/-! ## Processes -/

omit [DecidableEq P] [Fintype P] in
theorem ProcAt.exited (h : ProcAt q l s) (hq : s.stage q ≠ .live) : l.mid = .exited := by
  by_contra hm
  exact hq (h.live hm).1

omit [DecidableEq P] [Fintype P] in
theorem ProcInv.stage_child (hI : ProcInv s) (hq : s.child p = some q) : s.stage q = .used :=
  (hI.used q).2 ⟨p, hq⟩

theorem Next.allocproc (hI : Inv s g) (h : At p l s g) (live : l.mid ≠ .exited) (kid : l.kid = none)
    (hq : s.stage q = .unused)
    (hs : s' = { s with
      stage := Function.update s.stage q .used, child := Function.update s.child p (some q) }) :
    Next p .allocproc true s s' g { l with kid := some ⟨fun _ => none, none⟩ } := by
  obtain ⟨hst, ho, hc⟩ := h.proc.live live
  have hpq : p ≠ q := by
    rintro rfl
    simp [hst] at hq
  have orphan {p' : P} : s.child p' ≠ some q := fun hch => by
    simp [hI.proc.stage_child hch] at hq
  have child : s.child p = none := h.proc.noKid kid
  refine Next.proc hI h (.of rfl) rfl hs rfl rfl rfl rfl rfl rfl rfl rfl rfl ?_ ?_
    fun r hr lr hat => ?_
  · subst hs
    refine ⟨fun q' hq' => ?_, fun q' => ?_, fun p' p'' q' h' h'' => ?_⟩
    · have hne : q' ≠ q := by
        rintro rfl
        simp at hq'
      simp only [update_of_ne hne] at hq'
      exact hI.proc.gone q' hq'
    · by_cases hne : q' = q
      · subst hne
        simp only [update_self, true_iff]
        exact ⟨p, update_self ..⟩
      · dsimp only
        rw [update_of_ne hne, hI.proc.used q']
        refine exists_congr fun p' => ?_
        by_cases hp' : p' = p
        · subst hp'
          simp [child, Ne.symm hne]
        · rw [update_of_ne hp']
    · by_cases h₁ : p' = p <;> by_cases h₂ : p'' = p
      · exact h₁.trans h₂.symm
      · simp only [h₁, update_self, update_of_ne h₂] at h' h''
        exact absurd (h''.trans h'.symm) orphan
      · simp only [h₂, update_self, update_of_ne h₁] at h' h''
        exact absurd (h'.trans h''.symm) orphan
      · simp only [update_of_ne h₁, update_of_ne h₂] at h' h''
        exact hI.proc.inj p' p'' q' h' h''
  · subst hs
    obtain ⟨hof, hcw⟩ := hI.proc.gone q (.inl hq)
    refine ⟨fun _ => ⟨(update_of_ne hpq ..).trans hst, ho, hc⟩, (absurd · live),
      fun k hk => ?_, nofun, h.proc.busy⟩
    cases hk
    exact ⟨q, update_self .., hof, hcw⟩
  · subst hs
    refine ⟨fun hm => ?_, fun hm => ?_, fun k hk => ?_, fun hk => ?_, hat.busy⟩
    · have hne : r ≠ q := by
        rintro rfl
        exact hm (hat.exited (by simp [hq]))
      simpa only [update_of_ne hne] using hat.live hm
    · refine ⟨?_, (hat.dead hm).2⟩
      by_cases hne : r = q
      · simp [hne]
      · simpa only [update_of_ne hne] using (hat.dead hm).1
    · simpa only [update_of_ne hr] using hat.kid k hk
    · simpa only [update_of_ne hr] using hat.noKid hk

omit [Fintype P] in
/-- A process that was being made is given up or becomes live. -/
theorem ProcInv.release {st : Stage} (hI : ProcInv s) (hq : s.child p = some q) (hst : st ≠ .used)
    (gone : st = .unused ∨ st = .zombie → (s.ofile q = fun _ => none) ∧ s.cwd q = none) :
    ProcInv
      { s with stage := Function.update s.stage q st, child :=
        Function.update s.child p none } := by
  have only {p' r : P} (hr : s.child p' = some r) (hp' : p' ≠ p) : r ≠ q := by
    rintro rfl
    exact hp' (hI.inj p' p r hr hq)
  refine ⟨fun r hr => ?_, fun r => ?_, fun p' p'' r h' h'' => ?_⟩
  · by_cases hne : r = q
    · subst hne
      simp only [update_self] at hr
      exact gone hr
    · simp only [update_of_ne hne] at hr
      exact hI.gone r hr
  · constructor
    · intro hr
      have hne : r ≠ q := by
        rintro rfl
        simp only [update_self] at hr
        exact hst hr
      simp only [update_of_ne hne, hI.used r] at hr
      obtain ⟨p', hp'⟩ := hr
      refine ⟨p', (update_of_ne ?_ ..).trans hp'⟩
      rintro rfl
      exact hne (Option.some.inj (hp'.symm.trans hq))
    · rintro ⟨p', hp'⟩
      have hne : p' ≠ p := by
        rintro rfl
        simp at hp'
      simp only [update_of_ne hne] at hp'
      exact (update_of_ne (only hp' hne) ..).trans (hI.stage_child hp')
  · have hne' : p' ≠ p := by
      rintro rfl
      simp at h'
    have hne'' : p'' ≠ p := by
      rintro rfl
      simp at h''
    simp only [update_of_ne hne', update_of_ne hne''] at h' h''
    exact hI.inj p' p'' r h' h''

omit [Fintype P] in
/-- What this means to a process that takes no part in it. -/
theorem ProcAt.release {r : P} {st : Stage} (h : ProcAt r l s) (hr : r ≠ p)
    (hq : r = q → l.mid = .exited ∧ st ≠ .live) :
    ProcAt r l
      { s with stage := Function.update s.stage q st, child :=
        Function.update s.child p none } := by
  refine ⟨fun hm => ?_, fun hm => ⟨?_, (h.dead hm).2⟩, fun k hk => ?_, fun hk => ?_, h.busy⟩
  · have hne : r ≠ q := fun h => hm (hq h).1
    simpa only [update_of_ne hne] using h.live hm
  · by_cases hne : r = q
    · simpa [hne] using (hq hne).2
    · simpa only [update_of_ne hne] using (h.dead hm).1
  · simpa only [update_of_ne hr] using h.kid k hk
  · simpa only [update_of_ne hr] using h.noKid hk

theorem Next.freeproc (hI : Inv s g) (h : At p l s g) (live : l.mid ≠ .exited)
    (kid : l.kid = some ⟨fun _ => none, none⟩) (hq : s.child p = some q)
    (hs : s' = { s with
      stage := Function.update s.stage q .unused, child := Function.update s.child p none }) :
    Next p .freeproc () s s' g { l with kid := none } := by
  obtain ⟨hst, ho, hc⟩ := h.proc.live live
  have hqp := hI.proc.child_ne hst hq
  have used := hI.proc.stage_child hq
  obtain ⟨q', hq', hof, hcw⟩ := h.proc.kid _ kid
  obtain rfl : q' = q := Option.some.inj (hq'.symm.trans hq)
  refine Next.proc hI h
    (.of rfl) rfl hs rfl rfl rfl rfl rfl rfl rfl rfl rfl ?_ ?_ fun r hr lr hat => ?_
  · subst hs
    exact hI.proc.release hq nofun fun _ => ⟨hof, hcw⟩
  · subst hs
    exact ⟨fun _ => ⟨(update_of_ne hqp.symm ..).trans hst, ho, hc⟩, (absurd · live), nofun,
      fun _ => update_self .., h.proc.busy⟩
  · subst hs
    refine hat.release hr fun hrq => ⟨hat.exited ?_, nofun⟩
    simp [hrq, used]

/-- The process that is being made gets a descriptor or a current directory. -/
theorem Next.child {o : Op} {r : o.Res} {k : Kid} (hI : Inv s g) (h : At p l s g)
    (live : l.mid ≠ .exited)
    (hq : s.child p = some q) (quiet : Quiet o r) (copy : copyOf s' o r = none)
    (hs : s' = { s with
      ofile := Function.update s.ofile q k.ofile, cwd :=
        Function.update s.cwd q (k.cwd.map Prod.fst) }) :
    Next p o r s s' g { l with kid := some k } := by
  obtain ⟨hst, ho, hc⟩ := h.proc.live live
  have hqp := hI.proc.child_ne hst hq
  have used := hI.proc.stage_child hq
  refine Next.proc hI h quiet copy hs rfl rfl rfl rfl rfl rfl rfl rfl rfl ?_ ?_
    fun r hr lr hat => ?_
  · subst hs
    refine ⟨fun r hr => ?_, hI.proc.used, hI.proc.inj⟩
    have hne : r ≠ q := by
      rintro rfl
      simp [used] at hr
    simpa only [update_of_ne hne] using hI.proc.gone r hr
  · subst hs
    refine ⟨fun _ => ⟨hst, (update_of_ne hqp.symm ..).trans ho,
      (update_of_ne hqp.symm ..).trans hc⟩, (absurd · live), fun k' hk' => ?_, nofun, h.proc.busy⟩
    cases hk'
    exact ⟨q, hq, update_self .., update_self ..⟩
  · subst hs
    refine ⟨fun hm => ?_, hat.dead, fun k' hk' => ?_, hat.noKid, hat.busy⟩
    · have hne : r ≠ q := by
        rintro rfl
        exact hm (hat.exited (by simp [used]))
      simpa only [update_of_ne hne] using hat.live hm
    · obtain ⟨q', hq', hof, hcw⟩ := hat.kid k' hk'
      have hne : q' ≠ q := by
        rintro rfl
        exact hr (hI.proc.inj r p q' hq' hq)
      exact ⟨q', hq', (update_of_ne hne ..).trans hof, (update_of_ne hne ..).trans hcw⟩

theorem Next.zombie (hI : Inv s g) (h : At p l s g) (mid : l.mid = .idle) (idle : l.Idle)
    (cwd : l.cwd = none) (ofile : l.ofile = fun _ => none)
    (hs : s' = { s with stage := Function.update s.stage p .zombie }) :
    Next p .zombie () s s' g { l with mid := .exited, via := none, viaPipe := none } := by
  obtain ⟨hst, ho, hc⟩ := h.proc.live (by simp [mid])
  have noKid : s.child p = none := h.proc.noKid idle.kid
  have h' := h.forget idle.unlocked mid
  refine .table hI (.of rfl) rfl hs ⟨fun i => ?_, fun n hn => ?_⟩
    (h'.file.congr rfl rfl rfl rfl rfl rfl) (h'.pipe.congr rfl rfl rfl rfl) ?_ ?_
      fun q hq lq hat => ?_
  · have hsl := h'.inode.slot i
    refine ⟨hsl.refs, hsl.inum, ?_, fun n z w _ hh => ?_, nofun, nofun, nofun, nofun, nofun⟩
    · rw [hsl.lock_idle mid]
      refine iff_of_false ?_ ?_
      · rintro ⟨n, -, hn⟩
        exact hn (idle.unlocked n)
      · rintro (⟨n, -, hn⟩ | ⟨n, hm | hm | hm⟩)
        · exact hn (idle.unlocked n)
        · cases hm
        · cases hm
        · cases hm
    · exact absurd (hh.symm.trans (idle.unlocked n)) nofun
  · exact absurd (idle.unlocked n) hn
  · subst hs
    refine ⟨fun q hq => ?_, fun q => ?_, hI.proc.inj⟩
    · by_cases hqp : q = p
      · subst hqp
        exact ⟨ho.trans ofile, by rw [hc, cwd]; rfl⟩
      · simp only [update_of_ne hqp] at hq
        exact hI.proc.gone q hq
    · by_cases hqp : q = p
      · subst hqp
        refine iff_of_false (by simp) ?_
        rintro ⟨p', hp'⟩
        exact hI.proc.child_ne hst hp' rfl
      · simpa only [update_of_ne hqp] using hI.proc.used q
  · subst hs
    refine ⟨fun hm => absurd rfl hm, fun _ => ⟨by simp, ?_, rfl, rfl⟩, fun k hk => ?_,
      fun _ => noKid, h.proc.busy⟩
    · exact { idle with mid := .inr ⟨rfl, cwd, ofile⟩ }
    · exact absurd (hk.symm.trans idle.kid) nofun
  · subst hs
    refine ⟨fun hm => ?_, fun hm => ?_, hat.kid, hat.noKid, hat.busy⟩
    · simpa only [update_of_ne hq] using hat.live hm
    · simpa only [update_of_ne hq] using hat.dead hm

/-! ## A new process -/

section Hand

variable {A : Type} [AddCommGroup A] {part share : P → A}

section

omit [Fintype P]

theorem hand_eq (hq : s.child p = some q) :
    hand s p part share = Function.update (Function.update share p (share p - part q)) q
      (share q + part q) := by
  rw [hand, hq]

theorem hand_zero : hand s p 0 share = share := by
  rw [hand]
  split
  · rw [Pi.zero_apply, sub_zero, add_zero, update_eq_self, update_eq_self]
  · rfl

theorem hand_of_ne {r : P} (hq : s.child p = some q) (hp : r ≠ p) (hr : r ≠ q) :
    hand s p part share r = share r := by
  rw [hand_eq hq, update_of_ne hr, update_of_ne hp]

theorem hand_giver (hq : s.child p = some q) (hne : q ≠ p) :
    hand s p part share p = share p - part q := by
  rw [hand_eq hq, update_of_ne hne.symm, update_self]

theorem hand_taker (hq : s.child p = some q) : hand s p part share q = share q + part q := by
  rw [hand_eq hq, update_self]

end

theorem sum_hand {ι : Type} {part share : P → ι → A} (hq : s.child p = some q)
    (hne : q ≠ p) (a : ι) :
    ∑ r, hand s p part share r a = ∑ r, share r a := by
  rw [hand_eq hq, ← Finset.sum_apply, sum_transfer share hne, Finset.sum_apply]

end Hand

theorem cwdCount_map {c : Option Ptr} (h : ∀ m, c = some (i, m) → m = n) :
    cwdCount (c.map Prod.fst) i = cwdRefs c (i, n) := by
  cases c with
  | none => rfl
  | some c =>
    by_cases hi : c.1 = i
    · have hc : c = (i, n) := by
        rw [← hi, ← h c.2 (by rw [← hi])]
      simp [cwdCount, cwdRefs, hc]
    · have hc : c ≠ (i, n) := fun h => hi (by rw [h])
      simp [cwdCount, cwdRefs, hi, hc]

/-- `fork` is about to make process `q` runnable. -/
structure Forks (p q : P) (k : Kid) (l : Loc) (s : St P) (g : Ledger P) : Prop where
  known : At p l s g
  mid : l.mid = .idle
  kid : l.kid = some k
  unlocked : l.Unlocked
  refs : cwdRefs k.cwd ≤ l.refs
  files : fdFiles k.ofile ≤ l.files
  fresh : l.fresh = ∅
  child : s.child p = some q

namespace Forks

variable {k : Kid} {g' : Ledger P} (h : Forks p q k l s g)

include h

section

omit [DecidableEq P] [Fintype P]

theorem kid_eq : s.ofile q = k.ofile ∧ s.cwd q = k.cwd.map Prod.fst := by
  obtain ⟨q', hq', ho, hc⟩ := h.known.proc.kid k h.kid
  obtain rfl : q' = q := Option.some.inj (hq'.symm.trans h.child)
  exact ⟨ho, hc⟩

theorem refs_le (c : Ptr) : cwdRefs k.cwd c ≤ l.refs c := h.refs c

theorem files_le (f : FId) : fdFiles k.ofile f ≤ l.files f := h.files f

theorem cwd_pos (hc : k.cwd = some (i, n)) : 0 < l.refs (i, n) := by
  have := h.refs_le (i, n)
  rw [hc, cwdRefs_some, Pi.single_eq_same] at this
  exact this

theorem cwdCount (i : IId) : cwdCount (s.cwd q) i = cwdRefs k.cwd (i, (s.inode i).inum) := by
  rw [h.kid_eq.2]
  exact cwdCount_map fun m hm => (h.known.inum (.inl (h.cwd_pos hm))).symm

theorem not_locked (i : IId) : (s.inode i).lock ≠ some p := fun hl => by
  obtain ⟨n, -, hn⟩ := h.known.locked h.mid hl
  exact hn (h.unlocked n)

end

omit [DecidableEq P] in
theorem ne (hI : Inv s g) : q ≠ p :=
  hI.proc.child_ne (h.known.proc.live (by simp [h.mid])).1 h.child

theorem inodeInv (hI : Inv s g) (hi : s'.inode = s.inode) (hd : s'.disk = s.disk)
    (hf : s'.file = s.file) (hr : g'.refs = hand s p (fun q => Dir.cwdCount (s.cwd q)) g.refs)
    (hg : g'.files = hand s p (fun q f => (fdFiles (s.ofile q) f : ℤ)) g.files) :
    InodeInv s' g' := by
  have hne := h.ne hI
  refine ⟨fun i => ?_, fun r i => ?_, ?_, ?_, fun i r hl => ?_⟩
  · rw [hi, hf, hr, sum_hand h.child hne]
    exact hI.inode.law i
  · have := hI.inode.nonneg r i
    rw [hr]
    by_cases hrp : r = p
    · subst hrp
      have hle := h.refs_le (i, (s.inode i).inum)
      rw [hand_giver h.child hne, Pi.sub_apply, h.cwdCount, (h.known.inode.slot i).refs]
      omega
    · by_cases hrq : r = q
      · subst hrq
        rw [hand_taker h.child, Pi.add_apply, h.cwdCount]
        omega
      · rwa [hand_of_ne h.child hrp hrq]
  · rw [hi]
    exact hI.inode.unique
  · rw [hi, hd]
    exact hI.inode.core
  · rw [hi] at hl
    have hrp : r ≠ p := by
      rintro rfl
      exact h.not_locked i hl
    rw [Used, hr, hg, hf]
    by_cases hrq : r = q
    · subst hrq
      rw [hand_taker h.child, hand_taker h.child]
      refine (hI.inode.user i r hl).imp (fun hpos => ?_)
        (Exists.imp fun f => And.imp_left fun hpos => ?_)
      · rw [Pi.add_apply, h.cwdCount]
        omega
      · rw [Pi.add_apply]
        omega
    · rw [hand_of_ne h.child hrp hrq, hand_of_ne h.child hrp hrq]
      exact hI.inode.user i r hl

theorem fileInv (hI : Inv s g) (hf : s'.file = s.file)
    (hg : g'.files = hand s p (fun q f => (fdFiles (s.ofile q) f : ℤ)) g.files) :
    FileInv s' g' := by
  have hne := h.ne hI
  refine ⟨fun f => ?_, fun r f => ?_, ?_⟩
  · rw [hf, hg, sum_hand h.child hne]
    exact hI.file.law f
  · have := hI.file.nonneg r f
    rw [hg]
    by_cases hrp : r = p
    · subst hrp
      have hle := h.files_le f
      rw [hand_giver h.child hne, Pi.sub_apply, h.known.file.files, h.kid_eq.1]
      omega
    · by_cases hrq : r = q
      · subst hrq
        rw [hand_taker h.child, Pi.add_apply]
        omega
      · rwa [hand_of_ne h.child hrp hrq]
  · rw [hf]
    exact hI.file.closed

section

variable (hi : s'.inode = s.inode) (hd : s'.disk = s.disk)
  (hr : g'.refs = hand s p (fun q => Dir.cwdCount (s.cwd q)) g.refs)
  (hg : g'.files = hand s p (fun q f => (fdFiles (s.ofile q) f : ℤ)) g.files)
    (he : g'.ends = g.ends)
  (hc : g'.corpses = g.corpses) (hy : g'.seen = g.seen)

include hi hd hr hg he hc hy

theorem parent (hI : Inv s g)
    (hp : ∀ l', l'.mid = .idle → l'.ofile = l.ofile → l'.cwd = l.cwd → l'.busy = l.busy →
      l'.kid = none →
      ProcAt p l' s') :
    At p { l with
      refs := l.refs - cwdRefs k.cwd, files := l.files - fdFiles k.ofile
      via := none, viaPipe := none, kid := none } s' g' := by
  have hne := h.ne hI
  refine ⟨?_, ⟨fun f => ?_, by simp [h.fresh], nofun, nofun⟩, ?_, hp _ h.mid rfl rfl rfl rfl⟩
  · refine h.known.inode.repoint h.mid h.mid hi hd (by rw [hy]) (fun i n hu => ?_)
      (fun i n hn => absurd (h.unlocked n) hn) (fun i => ?_) rfl
    · exact h.known.inum (.inl ((hu.resolve_right nofun).trans_le (Nat.sub_le ..)))
    · have hle := h.refs_le (i, (s.inode i).inum)
      rw [hr, hand_giver h.child hne, Pi.sub_apply, h.cwdCount, (h.known.inode.slot i).refs]
      simp only [Pi.sub_apply]
      omega
  · have hle := h.files_le f
    rw [hg, hand_giver h.child hne, Pi.sub_apply, h.known.file.files, h.kid_eq.1]
    simp only [Pi.sub_apply]
    omega
  · exact h.known.pipe.congr (by rw [he]) (by rw [hc]) rfl rfl

omit [Fintype P] in
/-- The new process is idle, with the references that `fork` has collected. -/
theorem new {lq : Loc} (hq : At q lq s g) (dead : lq.mid = .exited)
    (hp : ∀ l', l'.mid = .idle → l'.ofile = k.ofile → l'.cwd = k.cwd → l'.busy = lq.busy →
      l'.kid = none →
      ProcAt q l' s') :
    ∃ l', l'.Idle ∧ At q l' s' g' := by
  obtain ⟨-, idle, via, viaPipe⟩ := hq.proc.dead dead
  obtain ⟨-, hcwd, hofile⟩ := idle.mid.resolve_left (by simp [dead])
  refine ⟨{ lq with
    mid := .idle, cwd := k.cwd, ofile := k.ofile, refs := cwdRefs k.cwd, files := fdFiles k.ofile },
    { idle with refs := rfl, mid := .inl rfl, files := rfl },
    ⟨⟨fun i => ?_, fun n hn => absurd (idle.unlocked n) hn⟩, ⟨fun f => ?_, ?_, ?_, ?_⟩, ?_,
      hp _ rfl rfl rfl rfl idle.kid⟩⟩
  · have hs := hq.inode.slot i
    have hrefs : g.refs q i = 0 := by
      rw [hs.refs, idle.refs, hcwd]
      rfl
    rw [hi, hd, hy]
    refine .of_idle rfl ?_ (fun n hu => ?_) ?_ fun n z w _ hh => ?_
    · rw [hr, hand_taker h.child, Pi.add_apply, h.cwdCount, hrefs, zero_add]
    · have hu : 0 < cwdRefs k.cwd (i, n) := hu.resolve_right (by simp [via])
      exact h.known.inum (.inl (hu.trans_le (h.refs (i, n))))
    · rw [hs.lock]
      refine iff_of_false ?_ ?_
      · rintro (⟨n, -, hn⟩ | ⟨n, hm⟩)
        · exact hn (idle.unlocked n)
        · simp [dead] at hm
      · rintro ⟨n, -, hn⟩
        exact hn (idle.unlocked n)
    · exact absurd (hh.symm.trans (idle.unlocked n)) nofun
  · have hfiles := hq.file.files f
    rw [idle.files, hofile, fdFiles_none] at hfiles
    rw [hg, hand_taker h.child, Pi.add_apply, hfiles, h.kid_eq.1]
    simp
  · simp [idle.fresh]
  · simp [via]
  · simp [viaPipe]
  · exact hq.pipe.congr (by rw [he]) (by rw [hc]) rfl rfl

end

theorem next (hI : Inv s g)
    (hs : s' = { s with
      stage := Function.update s.stage q .live, child := Function.update s.child p none }) :
    Inv s' (g.next p .runnable () s s') ∧
    At p { l with
      refs := l.refs - cwdRefs k.cwd, files := l.files - fdFiles k.ofile
      via := none, viaPipe := none, kid := none } s' (g.next p .runnable () s s') ∧
    (∀ r, r ≠ p → r ≠ q → ∀ lr, At r lr s g → At r lr s' (g.next p .runnable () s s')) ∧
    ∀ lq, At q lq s g →
      lq.mid = .exited ∧ ∃ l', l'.Idle ∧ At q l' s' (g.next p .runnable () s s') := by
  have hne := h.ne hI
  have live : l.mid ≠ .exited := by simp [h.mid]
  have hr : (g.next p .runnable () s s').refs = hand s p (fun q => Dir.cwdCount (s.cwd q)) g.refs :=
    rfl
  have hg : (g.next p .runnable () s s').files =
      hand s p (fun q f => (fdFiles (s.ofile q) f : ℤ)) g.files := rfl
  have he : (g.next p .runnable () s s').ends = g.ends := hand_zero
  have hc : (g.next p .runnable () s s').corpses = g.corpses := hand_zero
  have hy : (g.next p .runnable () s s').seen = g.seen := rfl
  have hi : s'.inode = s.inode := by rw [hs]
  have hd : s'.disk = s.disk := by rw [hs]
  have hf : s'.file = s.file := by rw [hs]
  refine ⟨⟨h.inodeInv hI hi hd hf hr hg, h.fileInv hI hf hg,
    hI.pipe.congr hf (by rw [hs])
    (by rw [hs]) he hc, ?_⟩, ?_, fun r hrp hrq lr hat => ⟨?_, ?_, ?_, ?_⟩, fun lq hat => ?_⟩
  · subst hs
    exact hI.proc.release h.child nofun (by simp)
  · refine h.parent hi hd hr hg he hc hy hI fun l' hm ho hcw hb hk => ?_
    obtain ⟨hst, hof, hcwd⟩ := h.known.proc.live live
    subst hs
    refine ⟨fun _ => ⟨(update_of_ne hne.symm ..).trans hst, hof.trans ho.symm, by rw [hcw, ← hcwd]⟩,
      by simp [hm], by simp [hk], fun _ => update_self .., h.known.proc.busy.trans hb.symm⟩
  · exact hat.inode.congr hi hd
      (by rw [hr, hand_of_ne h.child hrp hrq]) (by rw [hy]) rfl rfl rfl rfl
  · exact hat.file.congr hf (by rw [hg, hand_of_ne h.child hrp hrq]) rfl rfl rfl rfl
  · exact hat.pipe.congr (by rw [he]) (by rw [hc]) rfl rfl
  · subst hs
    exact hat.proc.release hrp fun hrq' => absurd hrq' hrq
  · have dead := hat.proc.exited (by simp [hI.proc.stage_child h.child])
    obtain ⟨-, idle, -⟩ := hat.proc.dead dead
    refine ⟨dead, h.new hi hd hr hg he hc hy hat dead fun l' hm ho hcw hb hk => ?_⟩
    subst hs
    exact ⟨fun _ => ⟨update_self .., h.kid_eq.1.trans ho.symm, by rw [hcw]; exact h.kid_eq.2⟩,
      by simp [hm], by simp [hk], fun _ => (update_of_ne hne ..).trans (hat.proc.noKid idle.kid),
      hat.proc.busy.trans hb.symm⟩

end Forks

end Xv6.Dir
