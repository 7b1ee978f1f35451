import Xv6.Dir.Invariant

/-!
# What an operation leaves alone

The bookkeeping of an operation, and what has to be checked so that the knowledge of the other
processes stays right.
-/

namespace Xv6.Dir

open Lib Function

variable {P : Type} {s s' : St P} {g g' : Ledger P} {p q : P} {l : Loc} {i : IId} {f : FId}

/-! ## Accounts -/

section Enter

variable [DecidableEq P] {o : Op} {A : Type} [AddCommGroup A] {gain : A} {part share : P → A}

theorem enter_eq (ho : o ≠ .runnable) :
    enter s p o gain part share = Function.update share p (share p + gain) := by
  cases o <;> first | rfl | exact absurd rfl ho

theorem enter_self (ho : o ≠ .runnable) : enter s p o gain part share p = share p + gain := by
  rw [enter_eq ho, update_self]

theorem enter_of_ne (ho : o ≠ .runnable) (hq : q ≠ p) :
    enter s p o gain part share q = share q := by
  rw [enter_eq ho, update_of_ne hq]

theorem enter_zero (ho : o ≠ .runnable) : enter s p o 0 part share = share := by
  rw [enter_eq ho, add_zero, update_eq_self]

theorem seen_of_ne {copy : Option (IId × Node)} {seen : P → IId → Node} (hq : q ≠ p) :
    see p copy seen q = seen q := by
  cases copy with
  | none => rfl
  | some c => exact update_of_ne hq ..

end Enter

/-! ## Knowledge of inodes -/

/-- What matters of the inodes to process `q` is left alone. -/
structure InodeKept (q : P) (s : St P) (g : Ledger P) (s' : St P) (g' : Ledger P) : Prop where
  refs : g'.refs q = g.refs q
  seen : ∀ i, (s.inode i).lock = some q → g'.seen q i = g.seen q i
  lock : ∀ i, (s'.inode i).lock = some q ↔ (s.inode i).lock = some q
  inum : ∀ i, Used s g q i → (s'.inode i).inum = (s.inode i).inum
  slot : ∀ i, (s.inode i).lock = some q →
    (s'.inode i).valid = (s.inode i).valid ∧ (s'.inode i).node = (s.inode i).node
  disk : ∀ i, (s.inode i).lock = some q → (s.disk (s.inode i).inum).type ≠ .free →
    s'.disk (s.inode i).inum = s.disk (s.inode i).inum

theorem InodeAt.kept (h : At q l s g) (hk : InodeKept q s g s' g') : InodeAt q l s' g' where
  uses := h.inode.uses
  slot i := by
    have hs := h.inode.slot i
    have hinum {n : Nat} (hu : l.Uses (i, n)) : (s'.inode i).inum = n :=
      (hk.inum i (h.used hu)).trans (hs.inum n hu)
    refine ⟨?_, fun n => hinum, (hk.lock i).trans hs.lock, fun n z w hu hh => ?_, fun n hm => ?_,
      hs.doomed, hs.dead, fun n hm => ?_, hs.gone⟩
    · rw [hk.refs, hs.refs]
      by_cases h0 : 0 < l.refs (i, (s.inode i).inum)
      · rw [hinum (.inl h0)]
      · by_cases h1 : 0 < l.refs (i, (s'.inode i).inum)
        · rw [hs.inum _ (.inl h1)]
        · omega
    · have hl := hs.lock.2 (.inl ⟨n, hu, by simp [hh]⟩)
      obtain ⟨hv, hx, hd, ht, hy⟩ := hs.held n z w hu hh
      have hn := hs.inum n hu
      rw [(hk.slot i hl).1, (hk.slot i hl).2, hk.seen i hl, ← hn,
        hk.disk i hl (by rw [hn, hd]; exact ht), hn]
      exact ⟨hv, hx, hd, ht, hy⟩
    · have hl := hs.lock.2 (.inr ⟨n, .inl hm⟩)
      obtain ⟨hu, hn, hc⟩ := hs.loading n hm
      refine ⟨hu, hn, fun hv => ?_⟩
      rw [(hk.slot i hl).1] at hv
      obtain ⟨hx, ht⟩ := hc hv
      rw [← hs.inum n hu] at hx ht ⊢
      rw [(hk.slot i hl).2, hk.disk i hl ht]
      exact ⟨hx, ht⟩
    · have hl := hs.lock.2 (.inr ⟨n, .inr (.inr hm)⟩)
      rw [(hk.slot i hl).1]
      exact hs.void n hm

/-- The entry that an operation in progress is about. -/
def Mid.entry : Mid → Option IId
  | .loading q | .doomed q | .dead q | .void q | .gone q => some q.1
  | .idle | .exited => none

/-- `l` and `l'` say the same about all entries but `i`. -/
structure Loc.SameOff (i : IId) (l l' : Loc) : Prop where
  refs : ∀ j, j ≠ i → ∀ n, l'.refs (j, n) = l.refs (j, n)
  via : l'.via = l.via
  held : ∀ j, j ≠ i → ∀ n, l.Uses (j, n) → l'.held n = l.held n
  mid : l'.mid = l.mid ∨ ∀ j, j ≠ i → l.mid.entry ≠ some j ∧ l'.mid.entry ≠ some j

/-- `l` and `l'` differ in what they say about inodes only. -/
structure Loc.SameRest (l l' : Loc) : Prop where
  live : l.mid ≠ .exited
  live' : l'.mid ≠ .exited
  busy : l'.busy = l.busy
  cwd : l'.cwd = l.cwd
  ofile : l'.ofile = l.ofile
  files : l'.files = l.files
  fresh : l'.fresh = l.fresh
  via : l'.via = l.via
  viaPipe : l'.viaPipe = l.viaPipe
  ends : l'.ends = l.ends
  corpses : l'.corpses = l.corpses
  kid : l'.kid = l.kid

theorem SlotAt.off {l' : Loc} {r : ℤ} {j : IId} {x : InCore P} {y : Node} {disk disk' : Nat → Node}
    (h : SlotAt p l disk j x r y) (hl : l.SameOff i l') (hj : j ≠ i)
    (hd : ∀ n, l.Uses (j, n) → disk' n = disk n) : SlotAt p l' disk' j x r y := by
  have uses {n : Nat} : l'.Uses (j, n) ↔ l.Uses (j, n) := by
    rw [Loc.Uses, hl.refs j hj, hl.via, Loc.Uses]
  have mid {m : Mid} (hm : m.entry = some j) : l'.mid = m ↔ l.mid = m := by
    rcases hl.mid with h | h
    · rw [h]
    · constructor
      · rintro rfl
        exact absurd hm (h j hj).2
      · rintro rfl
        exact absurd hm (h j hj).1
  have loading {n : Nat} := mid (m := .loading (j, n)) rfl
  have doomed {n : Nat} := mid (m := .doomed (j, n)) rfl
  have dead {n : Nat} := mid (m := .dead (j, n)) rfl
  have void {n : Nat} := mid (m := .void (j, n)) rfl
  have gone {n : Nat} := mid (m := .gone (j, n)) rfl
  have locks : l'.Locks j ↔ l.Locks j := by
    simp only [Loc.Locks, uses, loading, dead, void]
    refine or_congr_left (exists_congr fun n => and_congr_right fun hu => ?_)
    rw [hl.held j hj n hu]
  refine ⟨?_, ?_, ?_, fun n z w hu hh => ?_, fun n hm => ?_, fun n hm => ?_, fun n hm => ?_,
    fun n hm => ?_, fun n hm => ?_⟩
  · rw [hl.refs j hj]
    exact h.refs
  · simp only [uses]
    exact h.inum
  · rw [locks]
    exact h.lock
  · rw [uses] at hu
    rw [hl.held j hj n hu] at hh
    rw [hd n hu]
    exact h.held n z w hu hh
  · obtain ⟨hu, hn, hc⟩ := h.loading n (loading.1 hm)
    rw [uses, hl.held j hj n hu, hd n hu]
    exact ⟨hu, hn, hc⟩
  · obtain ⟨hr, hn⟩ := h.doomed n (doomed.1 hm)
    rw [hl.refs j hj, hl.held j hj n (.inl hr)]
    exact ⟨hr, hn⟩
  · obtain ⟨hr, hn⟩ := h.dead n (dead.1 hm)
    rw [hl.refs j hj, hl.held j hj n (.inl hr)]
    exact ⟨hr, hn⟩
  · obtain ⟨hr, hn, hv⟩ := h.void n (void.1 hm)
    rw [hl.refs j hj, hl.held j hj n (.inl hr)]
    exact ⟨hr, hn, hv⟩
  · obtain ⟨hr, hn⟩ := h.gone n (gone.1 hm)
    rw [hl.refs j hj, hl.held j hj n (.inl hr)]
    exact ⟨hr, hn⟩

section

variable {l' : Loc} {disk : Nat → Node} {x : InCore P} {r r' : ℤ} {y : Node}

theorem SlotAt.of_idle (mid : l.mid = .idle) (refs : r = l.refs (i, x.inum))
    (inum : ∀ n, l.Uses (i, n) → x.inum = n)
    (lock : x.lock = some p ↔ ∃ n, l.Uses (i, n) ∧ l.held n ≠ none)
    (held : ∀ n z w, l.Uses (i, n) → l.held n = some (z, w) →
      x.valid = true ∧ x.node = z ∧ disk n = w ∧ w.type ≠ .free ∧
      y = w) : SlotAt p l disk i x r y :=
  ⟨refs, inum,
    by simpa [Loc.Locks, mid] using lock, held, by simp [mid], by simp [mid], by simp [mid],
    by simp [mid], by simp [mid]⟩

theorem SlotAt.lock_idle (h : SlotAt p l disk i x r y) (mid : l.mid = .idle) :
    x.lock = some p ↔ ∃ n, l.Uses (i, n) ∧ l.held n ≠ none := by
  simpa [Loc.Locks, mid] using h.lock

theorem SlotAt.lock_gone {n : Nat} (h : SlotAt p l disk i x r y) (mid : l.mid = .gone (i, n)) :
    x.lock = some p ↔ ∃ n, l.Uses (i, n) ∧ l.held n ≠ none := by
  simpa [Loc.Locks, mid] using h.lock

/-- The process has other pointers than before, but uses the same inodes of those that it has
locked. -/
theorem SlotAt.repoint {m : Nat} (h : SlotAt p l disk i x r y)
    (lock : x.lock = some p ↔ ∃ n, l.Uses (i, n) ∧ l.held n ≠ none) (mid : l'.mid = .idle)
    (inum : ∀ n, l'.Uses (i, n) → x.inum = n)
    (uses : ∀ n, l.held n ≠ none → (l'.Uses (i, n) ↔ l.Uses (i, n)))
    (refs : r' = l'.refs (i, x.inum))
    (held : l'.held = l.held) : SlotAt p l' disk i { x with ref := m } r' y := by
  refine .of_idle mid refs inum ?_ fun n z w hu hh => ?_
  · rw [lock, held]
    exact exists_congr fun n => and_congr_left fun hh => (uses n hh).symm
  · rw [held] at hh
    exact h.held n z w ((uses n (by simp [hh])).1 hu) hh

theorem InodeAt.repoint (h : InodeAt p l s g) (mid : l.mid = .idle) (mid' : l'.mid = .idle)
    (hi : s'.inode = s.inode) (hd : s'.disk = s.disk) (hy : g'.seen p = g.seen p)
    (inum : ∀ i n, l'.Uses (i, n) → (s.inode i).inum = n)
    (uses : ∀ i n, l.held n ≠ none → (l'.Uses (i, n) ↔ l.Uses (i, n)))
    (refs : ∀ i, g'.refs p i = l'.refs (i, (s.inode i).inum)) (held : l'.held = l.held) :
    InodeAt p l' s' g' := by
  refine ⟨fun i => ?_, fun n hn => ?_⟩
  · rw [hi, hd, hy]
    exact (h.slot i).repoint ((h.slot i).lock_idle mid) mid' (inum i) (uses i) (refs i) held
  · rw [held] at hn
    obtain ⟨i, hu⟩ := h.uses n hn
    exact ⟨i, (uses i n hn).2 hu⟩

end

theorem InodeKept.setInode {x : InCore P} (refs : g'.refs q = g.refs q)
    (seen : g'.seen q = g.seen q) (lock : x.lock = some q ↔ (s.inode i).lock = some q)
    (inum : Used s g q i → x.inum = (s.inode i).inum)
    (slot : (s.inode i).lock = some q → x.valid = (s.inode i).valid ∧ x.node = (s.inode i).node)
    (hi : s'.inode = Function.update s.inode i x)
    (disk : ∀ i, (s.inode i).lock = some q → (s.disk (s.inode i).inum).type ≠ .free →
      s'.disk (s.inode i).inum = s.disk (s.inode i).inum) : InodeKept q s g s' g' := by
  refine ⟨refs, fun _ _ => by rw [seen], fun j => ?_, fun j hj => ?_, fun j hj => ?_, disk⟩
  all_goals
    rw [hi]
    by_cases h : j = i
    · subst h
      simp only [update_self]
      first | exact lock | exact inum hj | exact slot hj
    · simp [h]

theorem InodeKept.of_eq (refs : g'.refs q = g.refs q) (seen : g'.seen q = g.seen q)
    (hi : s'.inode = s.inode)
    (disk : ∀ i, (s.inode i).lock = some q → (s.disk (s.inode i).inum).type ≠ .free →
      s'.disk (s.inode i).inum = s.disk (s.inode i).inum) : InodeKept q s g s' g' :=
  ⟨refs, fun _ _ => by rw [seen], fun j => by rw [hi], fun j _ => by rw [hi],
    fun j _ => by rw [hi]; exact ⟨rfl, rfl⟩, disk⟩

/-! ## Knowledge of files -/

structure FileKept (q : P) (s : St P) (g : Ledger P) (s' : St P) (g' : Ledger P) : Prop where
  files : g'.files q = g.files q
  ref : ∀ f, 0 < g.files q f → 0 < (s'.file f).ref
  alone : ∀ f, 0 < g.files q f → (s.file f).ref = 1 → (s'.file f).ref = 1
  fields : ∀ f, 0 < g.files q f → (s'.file f).type = (s.file f).type ∧
    (s'.file f).ip = (s.file f).ip ∧
    (s'.file f).pipe = (s.file f).pipe

theorem FileAt.kept (h : FileAt q l s g) (hk : FileKept q s g s' g') : FileAt q l s' g' := by
  have pos {f : FId} (hf : 0 < l.files f) : 0 < g.files q f := by
    rw [h.files]
    exact_mod_cast hf
  refine ⟨fun f => by rw [hk.files, h.files], fun f hf => ?_, fun f i n hv => ?_, fun f pi hv => ?_⟩
  · obtain ⟨h0, h1, ht⟩ := h.fresh f hf
    exact ⟨h0, hk.alone f (pos h0) h1, (hk.fields f (pos h0)).1.trans ht⟩
  · obtain ⟨h0, -, hr, hip⟩ := h.via f i n hv
    obtain ⟨ht, hi, -⟩ := hk.fields f (pos h0)
    refine ⟨h0, hk.ref f (pos h0), ?_, hi.trans hip⟩
    rwa [File.Refers, ht]
  · obtain ⟨h0, ht, hp⟩ := h.viaPipe f pi hv
    obtain ⟨ht', -, hp'⟩ := hk.fields f (pos h0)
    exact ⟨h0, ht'.trans ht, hp'.trans hp⟩

/-- A process that has locked nothing may forget about its files. -/
theorem At.forget (h : At p l s g) (unlocked : l.Unlocked) (mid : l.mid = .idle) :
    At p { l with via := none, viaPipe := none } s g := by
  refine ⟨h.inode.repoint mid mid rfl rfl rfl (fun i n hu => ?_)
    (fun i n hn => absurd (unlocked n) hn)
    (fun i => (h.inode.slot i).refs) rfl, ⟨h.file.files, h.file.fresh, nofun, nofun⟩,
    ⟨h.pipe.ends, h.pipe.corpses⟩,
    ⟨h.proc.live, fun hm => by simp [mid] at hm, h.proc.kid, h.proc.noKid, h.proc.busy⟩⟩
  exact h.inum (.inl (hu.resolve_right nofun))

/-! ## Parts that an operation does not touch -/

theorem InodeInv.congr [Fintype P] (h : InodeInv s g) (hi : s'.inode = s.inode)
    (hd : s'.disk = s.disk)
    (hf : s'.file = s.file) (hr : g'.refs = g.refs) (hg : g'.files = g.files) : InodeInv s' g' := by
  refine ⟨?_, ?_, ?_, ?_, fun i p => ?_⟩
  · rw [hi, hf, hr]
    exact h.law
  · rw [hr]
    exact h.nonneg
  · rw [hi]
    exact h.unique
  · rw [hi, hd]
    exact h.core
  · rw [hi, Used, hr, hg, hf]
    exact h.user i p

theorem FileInv.congr [Fintype P] (h : FileInv s g) (hf : s'.file = s.file)
    (hg : g'.files = g.files) :
    FileInv s' g' := by
  refine ⟨?_, ?_, ?_⟩
  · rw [hf, hg]
    exact h.law
  · rw [hg]
    exact h.nonneg
  · rw [hf]
    exact h.closed

theorem PipeInv.congr [Fintype P] (h : PipeInv s g) (hf : s'.file = s.file) (hp : s'.pipe = s.pipe)
    (hfr : s'.free = s.free) (he : g'.ends = g.ends) (hc : g'.corpses = g.corpses) :
    PipeInv s' g' := by
  refine ⟨?_, ?_, ?_, ?_, ?_, ?_⟩
  · rw [hp, hf, he]
    exact h.law
  · rw [he]
    exact h.nonneg
  · rw [hp, hc]
    exact h.dead
  · rw [hc]
    exact h.corpses
  · rw [hfr]
    exact h.nodup
  · rw [hfr, hp]
    exact h.free

theorem ProcInv.congr (h : ProcInv s) (hst : s'.stage = s.stage) (ho : s'.ofile = s.ofile)
    (hc : s'.cwd = s.cwd) (hch : s'.child = s.child) : ProcInv s' := by
  refine ⟨?_, ?_, ?_⟩
  · rw [hst, ho, hc]
    exact h.gone
  · rw [hst, hch]
    exact h.used
  · rw [hch]
    exact h.inj

section

variable {l' : Loc}

theorem SlotAt.congr {disk : Nat → Node} {x : InCore P} {r : ℤ} {y : Node}
    (h : SlotAt p l disk i x r y)
    (hr : l'.refs = l.refs) (hh : l'.held = l.held) (hv : l'.via = l.via) (hm : l'.mid = l.mid) :
    SlotAt p l' disk i x r y := by
  have hu : l'.Uses = l.Uses := by
    funext q
    rw [Loc.Uses, hr, hv, Loc.Uses]
  have hl : l'.Locks = l.Locks := by
    funext j
    rw [Loc.Locks, hu, hh, hm, Loc.Locks]
  refine ⟨?_, ?_, ?_, ?_, ?_, ?_, ?_, ?_, ?_⟩
  · rw [hr]
    exact h.refs
  · rw [hu]
    exact h.inum
  · rw [hl]
    exact h.lock
  · rw [hu, hh]
    exact h.held
  · rw [hm, hu, hh]
    exact h.loading
  · rw [hm, hr, hh]
    exact h.doomed
  · rw [hm, hr, hh]
    exact h.dead
  · rw [hm, hr, hh]
    exact h.void
  · rw [hm, hr, hh]
    exact h.gone

theorem InodeAt.congr (h : InodeAt p l s g) (hi : s'.inode = s.inode) (hd : s'.disk = s.disk)
    (hg : g'.refs p = g.refs p) (hy : g'.seen p = g.seen p) (hr : l'.refs = l.refs)
    (hh : l'.held = l.held) (hv : l'.via = l.via) (hm : l'.mid = l.mid) : InodeAt p l' s' g' := by
  refine ⟨fun i => ?_, fun n hn => ?_⟩
  · rw [hi, hd, hg, hy]
    exact (h.slot i).congr hr hh hv hm
  · rw [hh] at hn
    obtain ⟨i, hu⟩ := h.uses n hn
    refine ⟨i, ?_⟩
    rwa [Loc.Uses, hr, hv]

theorem FileAt.congr (h : FileAt p l s g) (hf : s'.file = s.file) (hg : g'.files p = g.files p)
    (hl : l'.files = l.files) (hfr : l'.fresh = l.fresh) (hv : l'.via = l.via)
    (hp : l'.viaPipe = l.viaPipe) : FileAt p l' s' g' := by
  refine ⟨?_, ?_, ?_, ?_⟩
  · rw [hg, hl]
    exact h.files
  · rw [hfr, hl, hf]
    exact h.fresh
  · rw [hv, hl, hf]
    exact h.via
  · rw [hp, hl, hf]
    exact h.viaPipe

theorem PipeAt.congr (h : PipeAt p l g) (he : g'.ends p = g.ends p)
    (hc : g'.corpses p = g.corpses p)
    (hl : l'.ends = l.ends) (hlc : l'.corpses = l.corpses) : PipeAt p l' g' :=
  ⟨by rw [he, hl]; exact h.ends, by rw [hc, hlc]; exact h.corpses⟩

theorem ProcAt.congr (h : ProcAt p l s) (hst : s'.stage = s.stage) (ho : s'.ofile = s.ofile)
    (hc : s'.cwd = s.cwd) (hch : s'.child = s.child) (hb : s'.busy = s.busy) : ProcAt p l s' := by
  refine ⟨?_, ?_, ?_, ?_, ?_⟩
  · rw [hst, ho, hc]
    exact h.live
  · rw [hst]
    exact h.dead
  · rw [hch, ho, hc]
    exact h.kid
  · rw [hch]
    exact h.noKid
  · rw [hb]
    exact h.busy

/-- The knowledge that a live process has of itself. -/
theorem ProcAt.congr_loc (h : ProcAt p l s) (live : l.mid ≠ .exited) (live' : l'.mid ≠ .exited)
    (ho : l'.ofile = l.ofile) (hc : l'.cwd = l.cwd) (hk : l'.kid = l.kid) (hb : l'.busy = l.busy) :
    ProcAt p l' s := by
  refine ⟨fun _ => ?_, fun hm => absurd hm live', ?_, ?_, ?_⟩
  · rw [ho, hc]
    exact h.live live
  · rw [hk]
    exact h.kid
  · rw [hk]
    exact h.noKid
  · rw [hb]
    exact h.busy

end

end Xv6.Dir
