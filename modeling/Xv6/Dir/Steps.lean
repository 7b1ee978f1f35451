import Xv6.Dir.Kept

/-!
# Operations on inodes keep the invariant

One statement for each operation that a rule allows: the invariant is kept, the process knows what
the rule says, and what the other processes know stays right.
-/

namespace Xv6.Dir

open Lib Function Finset

variable {P : Type} [DecidableEq P] {s s' : St P} {g : Ledger P} {p q : P} {l : Loc}
  {i : IId} {n : Nat} {x y : Node}

/-! ## Books -/

section Books

variable {o : Op} {r : o.Res}

theorem next_refs (ho : o ≠ .runnable) (h : gainRefs o r = 0) :
    (g.next p o r s s').refs = g.refs := by
  rw [Ledger.next, h]
  exact enter_zero ho

theorem next_files (ho : o ≠ .runnable) (h : gainFiles o r = 0) :
    (g.next p o r s s').files = g.files := by
  rw [Ledger.next, h]
  exact enter_zero ho

theorem next_ends (ho : o ≠ .runnable) (h : gainEnds o r = 0) :
    (g.next p o r s s').ends = g.ends := by
  rw [Ledger.next, h]
  exact enter_zero ho

theorem next_corpses (ho : o ≠ .runnable) (h : gainCorpses o r = 0) :
    (g.next p o r s s').corpses = g.corpses := by
  rw [Ledger.next, h]
  exact enter_zero ho

theorem next_seen (h : copyOf s' o r = none) : (g.next p o r s s').seen = g.seen := by
  rw [Ledger.next, h]
  rfl

theorem next_seen_self (h : copyOf s' o r = some (i, x)) : (g.next p o r s s').seen p i = x := by
  rw [Ledger.next, h]
  simp only [see, update_self]

theorem next_seen_of_ne {j : IId} (hj : j ≠ i) (h : copyOf s' o r = some (i, x)) :
    (g.next p o r s s').seen p j = g.seen p j := by
  rw [Ledger.next, h]
  simp only [see, update_self, update_of_ne hj]

/-- What an operation is worth. -/
structure Gains (o : Op) (r : o.Res) (refs : IId → ℤ) (files : FId → ℤ) (ends : Nat × Bool → ℤ)
    (corpses : Nat → ℤ) : Prop where
  ne : o ≠ .runnable
  refs : gainRefs o r = refs
  files : gainFiles o r = files
  ends : gainEnds o r = ends
  corpses : gainCorpses o r = corpses

theorem Gains.of {refs : IId → ℤ} {files : FId → ℤ} {ends : Nat × Bool → ℤ} {corpses : Nat → ℤ}
    (h : (o.ctorIdx == Op.runnable.ctorIdx, gainRefs o r, gainFiles o r, gainEnds o r,
      gainCorpses o r) =
      (false, refs, files, ends, corpses)) : Gains o r refs files ends corpses := by
  simp only [Prod.mk.injEq, beq_eq_false_iff_ne] at h
  obtain ⟨ho, hr, hf, he, hc⟩ := h
  exact ⟨mt (congrArg Op.ctorIdx) ho, hr, hf, he, hc⟩

/-- An operation that takes and gives nothing. -/
abbrev Quiet (o : Op) (r : o.Res) : Prop := Gains o r 0 0 0 0

theorem Quiet.slot (h : Quiet o r) : Gains o r (Pi.single i 0) 0 0 0 := by
  rw [Pi.single_zero]
  exact h

end Books

variable [Fintype P]

/-- The result of an operation that leaves the process with `l'`. -/
structure Next (p : P) (o : Op) (r : o.Res) (s s' : St P) (g : Ledger P) (l' : Loc) :
    Prop where
  inv : Inv s' (g.next p o r s s')
  self : At p l' s' (g.next p o r s s')
  others : ∀ q, q ≠ p → ∀ l, At q l s g → At q l s' (g.next p o r s s')

/-! ## Operations on the process table -/

section Proc

variable {o : Op} {r : o.Res} {l' : Loc} {ofile : P → Fd → Option FId} {cwd : P →
  Option IId} {stage : P → Stage}
  {child : P → Option P} {busy : P → Bool} {committing : Option P}

theorem Next.table (hI : Inv s g) (quiet : Quiet o r) (copy : copyOf s' o r = none)
    (hs : s' = { s with ofile, cwd, stage, child, busy, committing }) (inode : InodeAt p l' s g)
    (file : FileAt p l' s g) (pipe : PipeAt p l' g) (inv : ProcInv s') (self : ProcAt p l' s')
    (others : ∀ q, q ≠ p → ∀ l, ProcAt q l s → ProcAt q l s') : Next p o r s s' g l' := by
  have hgr : (g.next p o r s s').refs = g.refs := next_refs quiet.ne quiet.refs
  have hgf : (g.next p o r s s').files = g.files := next_files quiet.ne quiet.files
  have hge : (g.next p o r s s').ends = g.ends := next_ends quiet.ne quiet.ends
  have hgc : (g.next p o r s s').corpses = g.corpses := next_corpses quiet.ne quiet.corpses
  have hgy : (g.next p o r s s').seen = g.seen := next_seen copy
  have hi : s'.inode = s.inode := by rw [hs]
  have hd : s'.disk = s.disk := by rw [hs]
  have hf : s'.file = s.file := by rw [hs]
  refine ⟨⟨hI.inode.congr hi hd hf hgr hgf, hI.file.congr hf hgf,
    hI.pipe.congr hf (by rw [hs]) (by rw [hs]) hge hgc, inv⟩, ⟨?_, ?_, ?_, self⟩,
    fun q hq lq hat => ⟨?_, ?_, ?_, others q hq lq hat.proc⟩⟩
  · exact inode.congr hi hd (by rw [hgr]) (by rw [hgy]) rfl rfl rfl rfl
  · exact file.congr hf (by rw [hgf]) rfl rfl rfl rfl
  · exact pipe.congr (by rw [hge]) (by rw [hgc]) rfl rfl
  · exact hat.inode.congr hi hd (by rw [hgr]) (by rw [hgy]) rfl rfl rfl rfl
  · exact hat.file.congr hf (by rw [hgf]) rfl rfl rfl rfl
  · exact hat.pipe.congr (by rw [hge]) (by rw [hgc]) rfl rfl

theorem Next.proc (hI : Inv s g) (h : At p l s g) (quiet : Quiet o r) (copy : copyOf s' o r = none)
    (hs : s' = { s with ofile, cwd, stage, child, busy, committing }) (hr : l'.refs = l.refs)
    (hh : l'.held = l.held) (hv : l'.via = l.via) (hm : l'.mid = l.mid) (hl : l'.files = l.files)
    (hfr : l'.fresh = l.fresh) (hvp : l'.viaPipe = l.viaPipe) (he : l'.ends = l.ends)
    (hc : l'.corpses = l.corpses) (inv : ProcInv s') (self : ProcAt p l' s')
    (others : ∀ q, q ≠ p → ∀ l, ProcAt q l s → ProcAt q l s') : Next p o r s s' g l' :=
  .table hI quiet copy hs (h.inode.congr rfl rfl rfl rfl hr hh hv hm)
    (h.file.congr rfl rfl hl hfr hv hvp)
    (h.pipe.congr rfl rfl he hc) inv self others

omit [DecidableEq P] [Fintype P] in
theorem ProcInv.child_ne (hI : ProcInv s) (live : s.stage p = .live) {p' : P}
    (hq : s.child p' = some q) :
    q ≠ p := by
  rintro rfl
  have := (hI.used q).2 ⟨p', hq⟩
  rw [live] at this
  cases this

theorem Next.own (hI : Inv s g) (h : At p l s g) (live : l.mid ≠ .exited) (quiet : Quiet o r)
    (copy : copyOf s' o r = none) {of : Fd → Option FId} {cw : Option Ptr} {b : Bool} {k : Option P}
    (hs : s' = { s with
      ofile := Function.update s.ofile p of, cwd := Function.update s.cwd p (cw.map Prod.fst)
      busy := Function.update s.busy p b, committing := k })
    (hl : l' = { l with ofile := of, cwd := cw, busy := b }) : Next p o r s s' g l' := by
  subst hl
  obtain ⟨hst, -, -⟩ := h.proc.live live
  have kid {p' q' : P} (hq : s.child p' = some q') : s'.ofile q' = s.ofile q' ∧
      s'.cwd q' = s.cwd q' := by
    have hne := hI.proc.child_ne hst hq
    simp only [hs, update_of_ne hne, and_self]
  refine Next.proc hI h quiet copy hs rfl rfl rfl rfl rfl rfl rfl rfl rfl ?_ ?_
    fun q hq lq hat => ?_
  · subst hs
    refine ⟨fun q hq => ?_, hI.proc.used, hI.proc.inj⟩
    have hqp : q ≠ p := by
      rintro rfl
      rw [hst] at hq
      exact hq.elim nofun nofun
    simpa only [update_of_ne hqp] using hI.proc.gone q hq
  · refine ⟨fun _ => ?_, (absurd · live), fun k hk => ?_, ?_, ?_⟩
    · simp only [hs, update_self, hst, and_self]
    · obtain ⟨q, hq, ho, hc⟩ := h.proc.kid k hk
      exact ⟨q, by rw [hs]; exact hq, (kid hq).1.trans ho, (kid hq).2.trans hc⟩
    · rw [hs]
      exact h.proc.noKid
    · rw [hs]
      exact update_self ..
  · refine ⟨fun hm => ?_, ?_, fun k hk => ?_, ?_, ?_⟩
    · simpa only [hs, update_of_ne hq] using hat.live hm
    · rw [hs]
      exact hat.dead
    · obtain ⟨q', hq', ho, hc⟩ := hat.kid k hk
      exact ⟨q', by rw [hs]; exact hq', (kid hq').1.trans ho, (kid hq').2.trans hc⟩
    · rw [hs]
      exact hat.noKid
    · simpa only [hs, update_of_ne hq] using hat.busy

end Proc

/-! ## Operations on an entry of the inode table -/

/-- Process `p` makes `x` of entry `i` and `d` of the disk, with `c` more pointers than before. -/
structure SlotStep (p : P) (s : St P) (g : Ledger P) (i : IId) (x : InCore P)
    (d : Nat → Node) (c : ℤ) :
    Prop where
  ref : (x.ref : ℤ) = (s.inode i).ref + c
  nonneg : 0 ≤ g.refs p i + c
  inum : 0 < (s.inode i).ref ∧ x.inum = (s.inode i).inum ∨
    (s.inode i).ref = 0 ∧ d = s.disk ∧ ∀ j, 0 < (s.inode j).ref → (s.inode j).inum ≠ x.inum
  core : x.lock = none → 0 < x.ref → x.valid = true → x.node = d x.inum ∧ (d x.inum).type ≠ .free
  user : x.lock = some p → 0 < g.refs p i + c ∨ ∃ f, 0 < g.files p f ∧ (s.file f).Holds i
  lock : ∀ q, q ≠ p → (x.lock = some q ↔ (s.inode i).lock = some q)
  foreign : ∀ q, q ≠ p → (s.inode i).lock = some q →
    x.valid = (s.inode i).valid ∧ x.node = (s.inode i).node ∧ d = s.disk
  disk : ∀ m, m ≠ (s.inode i).inum → d m = s.disk m

section Slot

variable {x : InCore P} {d : Nat → Node} {c : ℤ} {l' : Loc} {g' : Ledger P}

omit [DecidableEq P] in
/-- The other inodes in the table stay as they are on disk. -/
theorem SlotStep.disk_eq (h : SlotStep p s g i x d c) (hI : InodeInv s g) {j : IId} (hj : j ≠ i)
    (hpos : 0 < (s.inode j).ref) : d (s.inode j).inum = s.disk (s.inode j).inum := by
  rcases h.inum with ⟨hi, -⟩ | ⟨-, hd, -⟩
  · exact h.disk _ fun hn => hj (hI.unique j i hpos hi hn)
  · rw [hd]

omit [DecidableEq P] in
theorem SlotStep.inum_ne (h : SlotStep p s g i x d c) (hI : InodeInv s g) {j : IId} (hj : j ≠ i)
    (hpos : 0 < (s.inode j).ref) : (s.inode j).inum ≠ x.inum := by
  rcases h.inum with ⟨hi, hn⟩ | ⟨-, -, hn⟩
  · rw [hn]
    exact fun heq => hj (hI.unique j i hpos hi heq)
  · exact hn j hpos

theorem InodeInv.setSlot (hI : InodeInv s g) (h : SlotStep p s g i x d c)
    (hi : s'.inode = Function.update s.inode i x) (hd : s'.disk = d) (hf : s'.file = s.file)
    (hr : g'.refs = Function.update g.refs p (g.refs p + Pi.single i c)) (hg : g'.files = g.files) :
    InodeInv s' g' := by
  have refs (q : P) (hq : q ≠ p) : g'.refs q = g.refs q := by rw [hr, update_of_ne hq]
  have refs_self : g'.refs p = g.refs p + Pi.single i c := by rw [hr, update_self]
  refine ⟨fun j => ?_, gain_single_nonneg hr hI.nonneg h.nonneg, fun j k hj hk hn => ?_,
    fun j => ?_, fun j q hq => ?_⟩
  · rw [sum_gain hr, hf, hi, ← add_assoc, ← hI.law j]
    by_cases hj : j = i
    · subst hj
      rw [update_self, Pi.single_eq_same, h.ref]
    · rw [update_of_ne hj, Pi.single_eq_of_ne hj, add_zero]
  · rw [hi] at hj hk hn
    by_cases h₁ : j = i <;> by_cases h₂ : k = i
    · exact h₁.trans h₂.symm
    · subst h₁
      simp only [update_self, update_of_ne h₂] at hn hk
      exact absurd hn.symm (h.inum_ne hI h₂ hk)
    · subst h₂
      simp only [update_self, update_of_ne h₁] at hn hj
      exact absurd hn (h.inum_ne hI h₁ hj)
    · simp only [update_of_ne h₁, update_of_ne h₂] at hj hk hn
      exact hI.unique j k hj hk hn
  · rw [hi, hd]
    by_cases hj : j = i
    · subst hj
      rw [update_self]
      exact h.core
    · rw [update_of_ne hj]
      intro hlock hpos hv
      rw [h.disk_eq hI hj hpos]
      exact hI.core j hlock hpos hv
  · rw [Used, hf, hg]
    by_cases hj : j = i
    · subst hj
      rw [hi, update_self] at hq
      by_cases hqp : q = p
      · subst hqp
        rw [refs_self, Pi.add_apply, Pi.single_eq_same]
        exact h.user hq
      · rw [refs q hqp]
        exact hI.user j q ((h.lock q hqp).1 hq)
    · rw [hi, update_of_ne hj] at hq
      have hu := hI.user j q hq
      by_cases hqp : q = p
      · subst hqp
        rw [refs_self, Pi.add_apply, Pi.single_eq_of_ne hj, add_zero]
        exact hu
      · rw [refs q hqp]
        exact hu

omit [DecidableEq P] in
theorem InodeAt.setSlot (hI : Inv s g) (h : At p l s g) (hs : SlotStep p s g i x d c)
    (hl : l.SameOff i l') (hi : s'.inode = Function.update s.inode i x) (hd : s'.disk = d)
    (hr : g'.refs p = g.refs p + Pi.single i c) (hy : ∀ j, j ≠ i → g'.seen p j = g.seen p j)
    (hx : SlotAt p l' d i x (g.refs p i + c) (g'.seen p i))
    (uses : ∀ n, l'.held n ≠ none → ∃ i, l'.Uses (i, n)) : InodeAt p l' s' g' := by
  refine ⟨fun j => ?_, uses⟩
  rw [hi, hd, hr, Pi.add_apply]
  by_cases hj : j = i
  · subst hj
    rw [update_self, Pi.single_eq_same]
    exact hx
  · rw [update_of_ne hj, Pi.single_eq_of_ne hj, add_zero, hy j hj]
    refine (h.inode.slot j).off hl hj fun n hu => ?_
    rw [← h.inum hu]
    exact hs.disk_eq hI.inode hj (hI.inode.ref_pos (h.used hu))

omit [DecidableEq P] in
theorem SlotStep.kept (hs : SlotStep p s g i x d c) (hI : Inv s g) (hq : q ≠ p)
    (hi : s'.inode = Function.update s.inode i x) (hd : s'.disk = d) (hr : g'.refs q = g.refs q)
    (hy : g'.seen q = g.seen q) : InodeKept q s g s' g' := by
  refine .setInode hr hy (hs.lock q hq) (fun hu => ?_) (fun hl => ?_) hi fun j hl _ => ?_
  · rcases hs.inum with ⟨-, hn⟩ | ⟨h0, -⟩
    · exact hn
    · have := hI.inode.ref_pos hu
      omega
  · obtain ⟨hv, hn, -⟩ := hs.foreign q hq hl
    exact ⟨hv, hn⟩
  · rw [hd]
    by_cases hj : j = i
    · subst hj
      rw [(hs.foreign q hq hl).2.2]
    · exact hs.disk_eq hI.inode hj (hI.inode.ref_pos (hI.inode.user j q hl))

theorem Next.slot {o : Op} {r : o.Res} (hI : Inv s g) (h : At p l s g) (hs : SlotStep p s g i x d c)
    (hs' : s' = { s with inode := Function.update s.inode i x, disk := d })
    (gains : Gains o r (Pi.single i c) 0 0 0)
    (seen : ∀ j, j ≠ i → (g.next p o r s s').seen p j = g.seen p j) (off : l.SameOff i l')
    (rest : l.SameRest l')
    (hx : SlotAt p l' d i x (g.refs p i + c) ((g.next p o r s s').seen p i))
    (uses : ∀ n, l'.held n ≠ none → ∃ i, l'.Uses (i, n)) : Next p o r s s' g l' := by
  have hr : (g.next p o r s s').refs = Function.update g.refs p (g.refs p + Pi.single i c) := by
    rw [Ledger.next, gains.refs]
    exact enter_eq gains.ne
  have hf : (g.next p o r s s').files = g.files := next_files gains.ne gains.files
  have he : (g.next p o r s s').ends = g.ends := next_ends gains.ne gains.ends
  have hc : (g.next p o r s s').corpses = g.corpses := next_corpses gains.ne gains.corpses
  have hi : s'.inode = Function.update s.inode i x := by rw [hs']
  have hd : s'.disk = d := by rw [hs']
  have hfi : s'.file = s.file := by rw [hs']
  have proc {q : P} {lq : Loc} (hat : ProcAt q lq s) : ProcAt q lq s' :=
    hat.congr (by rw [hs']) (by rw [hs']) (by rw [hs']) (by rw [hs']) (by rw [hs'])
  refine ⟨⟨hI.inode.setSlot hs hi hd hfi hr hf, hI.file.congr hfi hf,
    hI.pipe.congr hfi (by rw [hs']) (by rw [hs']) he hc,
    hI.proc.congr (by rw [hs']) (by rw [hs']) (by rw [hs']) (by rw [hs'])⟩, ⟨?_, ?_, ?_, ?_⟩,
    fun q hq lq hat => ⟨?_, ?_, ?_, proc hat.proc⟩⟩
  · exact InodeAt.setSlot hI h hs off hi hd (by rw [hr, update_self]) seen hx uses
  · exact h.file.congr hfi (by rw [hf]) rest.files rest.fresh rest.via rest.viaPipe
  · exact h.pipe.congr (by rw [he]) (by rw [hc]) rest.ends rest.corpses
  · exact (proc h.proc).congr_loc rest.live rest.live' rest.ofile rest.cwd rest.kid rest.busy
  · exact InodeAt.kept hat (hs.kept hI hq hi hd (by rw [hr, update_of_ne hq]) (seen_of_ne hq))
  · exact hat.file.congr hfi (by rw [hf]) rfl rfl rfl rfl
  · exact hat.pipe.congr (by rw [he]) (by rw [hc]) rfl rfl

end Slot

end Xv6.Dir
