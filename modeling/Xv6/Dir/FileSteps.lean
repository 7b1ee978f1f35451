import Xv6.Dir.InodeSteps

/-!
# Operations on files keep the invariant

What the last reference to a file stands for (a reference to an inode, or an end of a pipe) goes
from the process to the file and back.
-/

namespace Xv6.Dir

open Lib Function Finset

variable {P : Type} [DecidableEq P] [Fintype P] {s s' : St P} {g : Ledger P} {p q : P}
  {l l' : Loc} {i : IId} {f : FId} {n : Nat} {y : File}

theorem fileRefs_update (file : FId → File) (f : FId) (y : File) (i : IId) :
    fileRefs (Function.update file f y) i = fileRefs file i +
      ((if y.Holds i then 1 else 0) - if (file f).Holds i then 1 else 0) :=
  sum_update (fun x : File => if x.Holds i then (1 : ℤ) else 0) file f y

theorem fileEnds_update (file : FId → File) (f : FId) (y : File) (e : Nat × Bool) :
    fileEnds (Function.update file f y) e = fileEnds file e +
      ((if y.EndOf e then 1 else 0) - if (file f).EndOf e then 1 else 0) :=
  sum_update (fun x : File => if x.EndOf e then (1 : ℤ) else 0) file f y

/-- Process `p` makes `y` of file `f` and gains `c` references to it, and pointers to inodes and
ends of pipes. -/
structure FileStep (p : P) (s : St P) (g : Ledger P) (f : FId) (y : File) (c : ℤ) (refs : IId → ℤ)
    (ends : Nat × Bool → ℤ) : Prop where
  ref : (y.ref : ℤ) = (s.file f).ref + c
  nonneg : 0 ≤ g.files p f + c
  closed : y.ref = 0 → y.type = .none
  refs_law : ∀ i, (if y.Holds i then 1 else 0) + refs i = if (s.file f).Holds i then 1 else 0
  refs_nonneg : ∀ i, 0 ≤ g.refs p i + refs i
  ends_law : ∀ e, (if y.EndOf e then 1 else 0) + ends e = if (s.file f).EndOf e then 1 else 0
  ends_nonneg : ∀ e, 0 ≤ g.ends p e + ends e
  foreign : ∀ q, q ≠ p → 0 < g.files q f → 0 < y.ref ∧ ((s.file f).ref = 1 → y.ref = 1) ∧
    y.type = (s.file f).type ∧ y.ip = (s.file f).ip ∧ y.pipe = (s.file f).pipe
  user : ∀ i, (s.inode i).lock = some p → 0 < g.refs p i + refs i ∨
    ∃ f', 0 < g.files p f' + (if f' = f then c else 0) ∧ (Function.update s.file f y f').Holds i

section

variable {c : ℤ} {refs : IId → ℤ} {ends : Nat × Bool → ℤ} {g' : Ledger P}

omit [DecidableEq P] in
theorem FileStep.kept (hs : FileStep p s g f y c refs ends) (hI : FileInv s g) (hq : q ≠ p)
    (hf : s'.file = Function.update s.file f y) (hg : g'.files q = g.files q) :
    FileKept q s g s' g' := by
  refine ⟨hg, fun f' hf' => ?_, fun f' hf' => ?_, fun f' hf' => ?_⟩
  all_goals
    rw [hf]
    by_cases hff : f' = f
    · subst hff
      rw [update_self]
      obtain ⟨h₁, h₂, h₃⟩ := hs.foreign q hq hf'
      first | exact h₁ | exact h₂ | exact h₃
    · rw [update_of_ne hff]
      first
        | exact Int.natCast_pos.1 (hf'.trans_le hI.files_le)
        | exact id
        | exact ⟨rfl, rfl, rfl⟩

omit [DecidableEq P] [Fintype P] in
theorem FileKept.used (h : FileKept q s g s' g') (hr : g'.refs q = g.refs q) (hu : Used s g q i) :
    Used s' g' q i := by
  rcases hu with hu | ⟨f, hf, -, ht, hip⟩
  · exact .inl (by rwa [hr])
  · obtain ⟨ht', hi', -⟩ := h.fields f hf
    exact .inr ⟨f, by rwa [h.files], h.ref f hf, by rwa [File.Refers, ht'], hi'.trans hip⟩

theorem FileStep.inodeInv (hs : FileStep p s g f y c refs ends) (hI : Inv s g)
    (hi : s'.inode = s.inode) (hd : s'.disk = s.disk) (hf : s'.file = Function.update s.file f y)
    (hr : g'.refs = Function.update g.refs p (g.refs p + refs))
    (hg : g'.files = Function.update g.files p (g.files p + Pi.single f c)) : InodeInv s' g' := by
  have refs_ne (q : P) (hq : q ≠ p) : g'.refs q = g.refs q := by rw [hr, update_of_ne hq]
  have refs_self : g'.refs p = g.refs p + refs := by rw [hr, update_self]
  refine ⟨fun j => ?_, gain_nonneg hr hI.inode.nonneg hs.refs_nonneg, ?_, ?_, fun j q hq => ?_⟩
  · rw [sum_gain hr, hf, hi, fileRefs_update, hI.inode.law j, ← hs.refs_law j]
    abel
  · rw [hi]
    exact hI.inode.unique
  · rw [hi, hd]
    exact hI.inode.core
  · rw [hi] at hq
    by_cases hqp : q = p
    · subst hqp
      rw [Used, refs_self, hg, update_self, hf]
      simpa only [Pi.add_apply, Pi.single_apply] using hs.user j hq
    · have kept : FileKept q s g s' g' := hs.kept hI.file hqp hf (by rw [hg, update_of_ne hqp])
      exact kept.used (refs_ne q hqp) (hI.inode.user j q hq)

theorem FileStep.fileInv (hs : FileStep p s g f y c refs ends) (hI : FileInv s g)
    (hf : s'.file = Function.update s.file f y)
    (hg : g'.files = Function.update g.files p (g.files p + Pi.single f c)) : FileInv s' g' := by
  refine ⟨fun f' => ?_, gain_single_nonneg hg hI.nonneg hs.nonneg, fun f' => ?_⟩
  · rw [sum_gain hg, ← hI.law f', hf]
    by_cases hff : f' = f
    · subst hff
      rw [update_self, Pi.single_eq_same, hs.ref]
    · rw [update_of_ne hff, Pi.single_eq_of_ne hff, add_zero]
  · rw [hf]
    by_cases hff : f' = f
    · subst hff
      rw [update_self]
      exact hs.closed
    · rw [update_of_ne hff]
      exact hI.closed f'

theorem FileStep.pipeInv (hs : FileStep p s g f y c refs ends) (hI : PipeInv s g)
    (hp : s'.pipe = s.pipe) (hfr : s'.free = s.free) (hf : s'.file = Function.update s.file f y)
    (he : g'.ends = Function.update g.ends p (g.ends p + ends)) (hc : g'.corpses = g.corpses) :
    PipeInv s' g' := by
  refine ⟨fun e => ?_, gain_nonneg he hI.nonneg hs.ends_nonneg, ?_, ?_, ?_, ?_⟩
  · rw [sum_gain he, hf, hp, fileEnds_update, hI.law e, ← hs.ends_law e]
    abel
  · rw [hp, hc]
    exact hI.dead
  · rw [hc]
    exact hI.corpses
  · rw [hfr]
    exact hI.nodup
  · rw [hfr, hp]
    exact hI.free

end

theorem Next.file {o : Op} {r : o.Res} {c : ℤ} {refs : IId → ℤ} {ends : Nat × Bool → ℤ}
    (hI : Inv s g) (h : At p l s g) (hs : FileStep p s g f y c refs ends) (hs' : s' = s.setFile f y)
    (gains : Gains o r refs (Pi.single f c) ends 0) (copy : copyOf s' o r = none)
    (live : l.mid ≠ .exited) (live' : l'.mid ≠ .exited) (busy : l'.busy = l.busy)
    (cwd : l'.cwd = l.cwd)
    (ofile : l'.ofile = l.ofile) (kid : l'.kid = l.kid) (corpses : l'.corpses = l.corpses)
    (hl : ∀ e, g.ends p e + ends e = l'.ends e)
    (inode : ∀ g', g'.refs p = g.refs p + refs → g'.seen = g.seen → InodeAt p l' s' g')
    (file : ∀ g', g'.files p = g.files p + Pi.single f c → FileAt p l' s' g') :
    Next p o r s s' g l' := by
  have hr : (g.next p o r s s').refs = Function.update g.refs p (g.refs p + refs) := by
    rw [Ledger.next, gains.refs]
    exact enter_eq gains.ne
  have hf : (g.next p o r s s').files = Function.update g.files p (g.files p + Pi.single f c) := by
    rw [Ledger.next, gains.files]
    exact enter_eq gains.ne
  have he : (g.next p o r s s').ends = Function.update g.ends p (g.ends p + ends) := by
    rw [Ledger.next, gains.ends]
    exact enter_eq gains.ne
  have hc : (g.next p o r s s').corpses = g.corpses := next_corpses gains.ne gains.corpses
  have hy : (g.next p o r s s').seen = g.seen := next_seen copy
  have hi : s'.inode = s.inode := by rw [hs']; rfl
  have hd : s'.disk = s.disk := by rw [hs']; rfl
  have hfi : s'.file = Function.update s.file f y := by rw [hs']; rfl
  have proc {q : P} {lq : Loc} (hat : ProcAt q lq s) : ProcAt q lq s' := by
    subst hs'
    exact hat.congr rfl rfl rfl rfl rfl
  have procInv : ProcInv s' := by
    subst hs'
    exact hI.proc.congr rfl rfl rfl rfl
  refine ⟨⟨hs.inodeInv hI hi hd hfi hr hf, hs.fileInv hI.file hfi hf,
    hs.pipeInv hI.pipe (by rw [hs']; rfl) (by rw [hs']; rfl) hfi he hc, procInv⟩,
    ⟨inode _ (by rw [hr, update_self]) hy, file _ (by rw [hf, update_self]), ?_, ?_⟩,
    fun q hq lq hat => ⟨?_, ?_, ?_, proc hat.proc⟩⟩
  · refine ⟨fun e => ?_, fun pi => ?_⟩
    · rw [he, update_self]
      exact hl e
    · rw [hc, corpses]
      exact h.pipe.corpses pi
  · exact (proc h.proc).congr_loc live live' ofile cwd kid busy
  · exact hat.inode.congr hi hd (by rw [hr, update_of_ne hq]) (by rw [hy]) rfl rfl rfl rfl
  · exact hat.file.kept (hs.kept hI.file hq hfi (by rw [hf, update_of_ne hq]))
  · exact hat.pipe.congr (by rw [he, update_of_ne hq]) (by rw [hc]) rfl rfl

/-! ## Operations on files -/

omit [DecidableEq P] in
theorem FileInv.shared (hI : FileInv s g) (hp : 0 < g.files p f) (hq : 0 < g.files q f)
    (hne : q ≠ p) :
    1 < (s.file f).ref := by
  have := pair_le_sum (fun r => hI.nonneg r f) hne
  rw [← hI.law f] at this
  omega

omit [Fintype P] [DecidableEq P] in
theorem At.files_pos (h : At p l s g) : 0 < g.files p f ↔ 0 < l.files f := by
  rw [h.file.files f]
  exact Int.natCast_pos

omit [Fintype P] [DecidableEq P] in
/-- What the process knows of its files after `f` has become `y`. -/
theorem FileAt.setFile {g' : Ledger P} (h : FileAt p l s g)
    (hf : s'.file = Function.update s.file f y)
    (hg : ∀ f', g'.files p f' = l'.files f') (files : ∀ f', f' ≠ f → l'.files f' = l.files f')
    (fresh : ∀ f', f' ≠ f → f' ∈ l'.fresh → f' ∈ l.fresh)
    (fresh_self : f ∈ l'.fresh → 0 < l'.files f ∧ y.ref = 1 ∧ y.type = .none)
    (via : ∀ f' i n, f' ≠ f → l'.via = some (f', (i, n)) → l.via = some (f', (i, n)))
    (via_self : ∀ i n, l'.via = some (f, (i, n)) → 0 < l'.files f ∧ y.Holds i)
    (viaPipe : ∀ f' pi, f' ≠ f → l'.viaPipe = some (f', pi) → l.viaPipe = some (f', pi))
    (viaPipe_self : ∀ pi, l'.viaPipe = some (f, pi) → 0 < l'.files f ∧ y.type = .pipe ∧
      y.pipe = pi) :
    FileAt p l' s' g' := by
  refine ⟨hg, fun f' h' => ?_, fun f' i n h' => ?_, fun f' pi h' => ?_⟩
  all_goals
    rw [hf]
    by_cases hff : f' = f
    · subst hff
      rw [update_self]
      first | exact fresh_self h' | exact via_self _ _ h' | exact viaPipe_self _ h'
    · rw [update_of_ne hff, files f' hff]
      first
        | exact h.fresh f' (fresh f' hff h')
        | exact h.via f' _ _ (via f' _ _ hff h')
        | exact h.viaPipe f' _ (viaPipe f' _ hff h')

omit [DecidableEq P] in
/-- References to an open file are taken or given up. -/
theorem FileStep.count {c : ℤ} (hI : Inv s g) (mine : 0 < g.files p f) (pos : 0 < y.ref)
    (ref : (y.ref : ℤ) = (s.file f).ref + c) (nonneg : 0 ≤ g.files p f + c)
    (type : y.type = (s.file f).type) (ip : y.ip = (s.file f).ip) (pipe : y.pipe = (s.file f).pipe)
    (writable : y.writable = (s.file f).writable)
    (user : ∀ i, (s.inode i).lock = some p → 0 < g.refs p i ∨
      ∃ f', 0 < g.files p f' + (if f' = f then c else 0) ∧ (s.file f').Holds i) :
    FileStep p s g f y c 0 0 := by
  have hpos : 0 < (s.file f).ref := Int.natCast_pos.1 (mine.trans_le hI.file.files_le)
  have holds (i : IId) : y.Holds i ↔ (s.file f).Holds i := by
    simp only [File.Holds, File.Refers, type, ip, pos, hpos]
  have endOf (e : Nat × Bool) : y.EndOf e ↔ (s.file f).EndOf e := by
    simp only [File.EndOf, type, pipe, writable, pos, hpos]
  refine ⟨ref, nonneg, fun h0 => by omega, fun i => ?_, fun i => ?_, fun e => ?_, fun e => ?_,
    fun q hq hf => ⟨pos, fun h1 => ?_, type, ip, pipe⟩, fun i hl => ?_⟩
  · simp only [holds, Pi.zero_apply, add_zero]
  · simpa using hI.inode.nonneg p i
  · simp only [endOf, Pi.zero_apply, add_zero]
  · simpa using hI.pipe.nonneg p e
  · have := hI.file.shared mine hf hq
    omega
  · rcases user i hl with h | ⟨f', hf', hh⟩
    · exact .inl (by simpa using h)
    · refine .inr ⟨f', hf', ?_⟩
      by_cases hff : f' = f
      · subst hff
        rw [update_self]
        exact (holds i).2 hh
      · rwa [update_of_ne hff]

theorem Next.filedup (hI : Inv s g) (h : At p l s g) (live : l.mid ≠ .exited)
    (files : 0 < l.files f) (hs : s' = s.setFile f { s.file f with ref := (s.file f).ref + 1 }) :
    Next p (.filedup f) () s s' g
      { l with files := l.files + Pi.single f 1, fresh := l.fresh \ {f} } := by
  have mine := h.files_pos.2 files
  have step : FileStep p s g f { s.file f with ref := (s.file f).ref + 1 } 1 0 0 := by
    refine .count hI mine (Nat.succ_pos _) (by push_cast; rfl) (by omega) rfl rfl rfl rfl
      fun i hl => ?_
    refine (hI.inode.user i p hl).imp_right fun ⟨f', hf', hh⟩ => ⟨f', ?_, hh⟩
    split <;> omega
  have hf : s'.file = Function.update s.file f { s.file f with ref := (s.file f).ref + 1 } := by
    rw [hs]; rfl
  refine Next.file hI h step hs (.of rfl) rfl live live rfl rfl rfl rfl rfl
    (fun e => (add_zero _).trans (h.pipe.ends e)) (fun g' hr hy => ?_) fun g' hg => ?_
  · subst hs
    exact h.inode.congr rfl rfl (by rw [hr, add_zero]) (by rw [hy]) rfl rfl rfl rfl
  · refine h.file.setFile hf (fun f' => ?_) (fun f' hff => ?_) (fun _ _ hf' => hf'.1)
      (fun hf' => absurd rfl hf'.2)
      (fun _ _ _ _ hv => hv) (fun j m hv => ?_) (fun _ _ _ hv => hv) fun pi hv => ?_
    · rw [hg, Pi.add_apply, h.file.files]
      simp [Pi.single_apply, apply_ite]
    · simp [hff]
    · obtain ⟨-, -, hh⟩ := h.file.via f j m hv
      exact ⟨by simp, Nat.succ_pos _, hh⟩
    · obtain ⟨-, hh⟩ := h.file.viaPipe f pi hv
      exact ⟨by simp, hh⟩

theorem Next.setOff {off : Nat} (hI : Inv s g) (h : At p l s g) (live : l.mid ≠ .exited)
    (files : 0 < l.files f) (hs : s' = s.setFile f { s.file f with off }) :
    Next p (.setOff f off) () s s' g l := by
  have mine := h.files_pos.2 files
  have pos : 0 < (s.file f).ref := Int.natCast_pos.1 (mine.trans_le hI.file.files_le)
  have step : FileStep p s g f { s.file f with off } 0 0 0 := by
    refine .count hI mine pos (add_zero _).symm (by omega) rfl rfl rfl rfl fun i hl => ?_
    simpa [Used] using hI.inode.user i p hl
  have hf : s'.file = Function.update s.file f { s.file f with off } := by rw [hs]; rfl
  refine Next.file hI h step hs ⟨by simp, rfl, (Pi.single_zero f).symm, rfl, rfl⟩ rfl live live rfl
    rfl rfl rfl rfl
    (fun e => (add_zero _).trans (h.pipe.ends e)) (fun g' hr hy => ?_) fun g' hg => ?_
  · subst hs
    exact h.inode.congr rfl rfl (by rw [hr, add_zero]) (by rw [hy]) rfl rfl rfl rfl
  · exact h.file.setFile hf (by simp [hg, h.file.files]) (fun _ _ => rfl) (fun _ _ hf' => hf')
      (fun hf' => h.file.fresh f hf') (fun _ _ _ _ hv => hv) (fun _ _ hv => h.file.via f _ _ hv)
      (fun _ _ _ hv => hv) fun _ hv => h.file.viaPipe f _ hv

omit [DecidableEq P] in
theorem FileInv.files_eq_zero (hI : FileInv s g) (h0 : (s.file f).ref = 0) : g.files q f = 0 := by
  have := hI.files_le (p := q) (f := f)
  have := hI.nonneg q f
  omega

theorem Next.filealloc (hI : Inv s g) (h : At p l s g) (live : l.mid ≠ .exited)
    (h0 : (s.file f).ref = 0) (hs : s' = s.setFile f { s.file f with ref := 1 }) :
    l.files f = 0 ∧ f ∉ l.fresh ∧ Next p .filealloc (some f) s s' g (l.newFile f) := by
  have type := hI.file.closed f h0
  have files : l.files f = 0 := by
    have := h.file.files f
    rw [hI.file.files_eq_zero h0] at this
    omega
  have fresh : f ∉ l.fresh := fun hf => by
    have := h.file.fresh f hf
    omega
  have step : FileStep p s g f { s.file f with ref := 1 } 1 0 0 := by
    refine ⟨by simp [h0], ?_, by simp, fun i => ?_, fun i => ?_, fun e => ?_, fun e => ?_,
      fun q _ hf => ?_, fun i hl => ?_⟩
    · rw [hI.file.files_eq_zero h0]
      omega
    · simp [File.Holds, File.Refers, type]
    · simpa using hI.inode.nonneg p i
    · simp [File.EndOf, type]
    · simpa using hI.pipe.nonneg p e
    · rw [hI.file.files_eq_zero h0] at hf
      omega
    · refine (hI.inode.user i p hl).imp (fun h => by simpa using h) ?_
      rintro ⟨f', hf', hh⟩
      refine ⟨f', ?_, ?_⟩
      · split <;> omega
      · have hff : f' ≠ f := by
          rintro rfl
          rw [hI.file.files_eq_zero h0] at hf'
          omega
        rwa [update_of_ne hff]
  have hf : s'.file = Function.update s.file f { s.file f with ref := 1 } := by rw [hs]; rfl
  refine ⟨files, fresh, Next.file hI h step hs (.of rfl) rfl live live rfl rfl rfl rfl rfl
    (fun e => (add_zero _).trans (h.pipe.ends e)) (fun g' hr hy => ?_) fun g' hg => ?_⟩
  · subst hs
    exact h.inode.congr rfl rfl (by rw [hr, add_zero]) (by rw [hy]) rfl rfl rfl rfl
  · refine h.file.setFile hf (fun f' => ?_) (fun f' hff => ?_)
      (fun f' hff hf' => hf'.resolve_left hff)
      (fun _ => ⟨by simp [Loc.newFile], rfl, type⟩) (fun _ _ _ _ hv => hv) (fun j m hv => ?_)
      (fun _ _ _ hv => hv) fun pi hv => ?_
    · rw [hg, Pi.add_apply, h.file.files]
      simp [Loc.newFile, Pi.single_apply, apply_ite]
    · simp [Loc.newFile, hff]
    · have := (h.file.via f j m hv).1
      omega
    · have := (h.file.viaPipe f pi hv).1
      omega

omit [Fintype P] [DecidableEq P] in
theorem At.locked (h : At p l s g) (mid : l.mid = .idle) (hl : (s.inode i).lock = some p) :
    ∃ n, l.Uses (i, n) ∧ l.held n ≠ none :=
  ((h.inode.slot i).lock_idle mid).1 hl

omit [Fintype P] [DecidableEq P] in
theorem At.refs_pos (h : At p l s g) (pos : 0 < l.refs (i, n)) : 0 < g.refs p i := by
  have := (h.inode.slot i).refs
  rw [h.inum (.inl pos)] at this
  omega

omit [Fintype P] [DecidableEq P] in
/-- What the process knows of its files after it has closed `f`. -/
theorem FileAt.close {g' : Ledger P} (h : FileAt p l s g)
    (hf : s'.file = Function.update s.file f y)
    (files : 0 < l.files f) (hg : g'.files p = g.files p - Pi.single f 1)
    (hl : l'.files = l.files - Pi.single f 1)
    (hfr : l'.fresh = l.fresh \ {f}) (hv : l'.via = none) (hp : l'.viaPipe = none) :
    FileAt p l' s' g' := by
  refine h.setFile hf (fun f' => ?_) (fun f' hff => ?_) (fun f' _ hf' => ?_) (fun hf' => ?_)
    (fun _ _ _ _ hv' => ?_) (fun _ _ hv' => ?_) (fun _ _ _ hv' => ?_) fun _ hv' => ?_
  · rw [hg, hl, Pi.sub_apply, Pi.sub_apply, h.files]
    by_cases hff : f' = f
    · subst hff
      simp only [Pi.single_eq_same]
      omega
    · simp [hff]
  · simp [hl, hff]
  · rw [hfr] at hf'
    exact hf'.1
  · rw [hfr] at hf'
    exact absurd rfl hf'.2
  · simp [hv] at hv'
  · simp [hv] at hv'
  · simp [hp] at hv'
  · simp [hp] at hv'

theorem Next.filecloseSome (hI : Inv s g) (h : At p l s g) (mid : l.mid = .idle)
    (files : 0 < l.files f)
    (refs : ∀ i n, l.held n ≠ none → l.Uses (i, n) → 0 < l.refs (i, n)) (hr : 1 < (s.file f).ref)
    (hs : s' = s.setFile f { s.file f with ref := (s.file f).ref - 1 }) :
    Next p (.fileclose f) none s s' g (l.closeFile f) := by
  have mine := h.files_pos.2 files
  have live : l.mid ≠ .exited := by simp [mid]
  have step : FileStep p s g f { s.file f with ref := (s.file f).ref - 1 } (-1) 0 0 := by
    refine .count hI mine (Nat.sub_pos_of_lt hr) (by dsimp only; omega) (by omega) rfl rfl rfl rfl
      fun i hl => .inl ?_
    obtain ⟨n, hu, hh⟩ := h.locked mid hl
    exact h.refs_pos (refs i n hh hu)
  have hf : s'.file = Function.update s.file f { s.file f with ref := (s.file f).ref - 1 } := by
    rw [hs]; rfl
  refine Next.file hI h step hs ⟨nofun, rfl, (Pi.single_neg ..).symm, rfl, rfl⟩ rfl live live rfl
    rfl rfl rfl rfl
    (fun e => (add_zero _).trans (h.pipe.ends e)) (fun g' hr hy => ?_) fun g' hg => ?_
  · refine h.inode.repoint mid mid (by rw [hs]; rfl) (by rw [hs]; rfl) (by rw [hy])
      (fun i n hu => ?_)
      (fun i n hh => ⟨fun hu => .inl (hu.resolve_right nofun), fun hu => .inl (refs i n hh hu)⟩)
      (fun i => by rw [hr, add_zero]; exact (h.inode.slot i).refs) rfl
    exact h.inum (.inl (hu.resolve_right nofun))
  · exact h.file.close hf files (by rw [hg, Pi.single_neg, sub_eq_add_neg]) rfl rfl rfl rfl

theorem Next.filecloseLast (hI : Inv s g) (h : At p l s g) (mid : l.mid = .idle)
    (files : 0 < l.files f)
    (refs : ∀ i n, l.held n ≠ none → l.Uses (i, n) → 0 < l.refs (i, n)) (hr : (s.file f).ref = 1)
    (hs : s' = s.setFile f { s.file f with ref := 0, type := .none }) :
    Next p (.fileclose f) (some (s.file f)) s s' g { l.closeFile f with
      refs :=
        if (s.file f).Refers then l.refs + Pi.single ((s.file f).ip, (s.inode (s.file f).ip).inum) 1
        else l.refs
      ends := if (s.file f).type = .pipe then
        l.ends + Pi.single ((s.file f).pipe, (s.file f).writable) 1 else l.ends } := by
  have mine := h.files_pos.2 files
  have live : l.mid ≠ .exited := by simp [mid]
  have one : g.files p f = 1 := by
    have := hI.file.files_le (p := p) (f := f)
    omega
  have step : FileStep p s g f { s.file f with ref := 0, type := .none } (-1)
      (if (s.file f).Refers then Pi.single (s.file f).ip 1 else 0)
      (if (s.file f).type = .pipe then Pi.single ((s.file f).pipe, (s.file f).writable) 1
        else 0) := by
    refine ⟨by simp [hr], by omega, fun _ => rfl, fun i => ?_, fun i => ?_, fun e => ?_,
      fun e => ?_, fun q hq hf => ?_, fun i hl => ?_⟩
    · by_cases ht : (s.file f).Refers
      · simp [File.Holds, hr, ht, Pi.single_apply, eq_comm]
      · simp [File.Holds, ht]
    · have := hI.inode.nonneg p i
      by_cases ht : (s.file f).Refers
      · rw [if_pos ht, Pi.single_apply]
        split <;> omega
      · rw [if_neg ht]
        simpa using this
    · by_cases ht : (s.file f).type = .pipe
      · simp [File.EndOf, hr, ht, Pi.single_apply, eq_comm]
      · simp [File.EndOf, ht]
    · have := hI.pipe.nonneg p e
      by_cases ht : (s.file f).type = .pipe
      · rw [if_pos ht, Pi.single_apply]
        split <;> omega
      · rw [if_neg ht]
        simpa using this
    · have := hI.file.shared mine hf hq
      omega
    · obtain ⟨n, hu, hh⟩ := h.locked mid hl
      have := h.refs_pos (refs i n hh hu)
      refine .inl ?_
      by_cases ht : (s.file f).Refers
      · rw [if_pos ht, Pi.single_apply]
        split <;> omega
      · rw [if_neg ht]
        simpa using this
  have hf : s'.file = Function.update s.file f { s.file f with ref := 0, type := .none } := by
    rw [hs]; rfl
  refine Next.file hI h step hs ⟨nofun, rfl, (Pi.single_neg ..).symm, rfl, rfl⟩ rfl live live rfl
    rfl rfl rfl rfl
    (fun e => ?_) (fun g' hgr hy => ?_) fun g' hg => ?_
  · rw [h.pipe.ends]
    by_cases ht : (s.file f).type = .pipe
    · simp [ht, Pi.single_apply, apply_ite]
    · simp [ht]
  · have pos (ht : (s.file f).Refers) : 0 < (s.inode (s.file f).ip).ref :=
      hI.inode.ref_pos (p := p) (.inr ⟨f, mine, by omega, ht, rfl⟩)
    have gained {i : IId} {n : Nat} (hu : 0 < (if (s.file f).Refers then
        l.refs + Pi.single ((s.file f).ip, (s.inode (s.file f).ip).inum) 1 else l.refs) (i, n)) :
        0 < l.refs (i, n) ∨ (s.file f).Refers ∧ i = (s.file f).ip ∧
          n = (s.inode (s.file f).ip).inum := by
      split at hu
      · rename_i ht
        rw [Pi.add_apply, Pi.single_apply] at hu
        split at hu
        · exact .inr ⟨ht, Prod.mk.inj ‹_›⟩
        · exact .inl (by omega)
      · exact .inl hu
    refine h.inode.repoint mid mid (by rw [hs]; rfl) (by rw [hs]; rfl) (by rw [hy])
      (fun i n hu => ?_)
      (fun i n hh => ⟨fun hu => ?_, fun hu => .inl ?_⟩) (fun i => ?_) rfl
    · rcases gained (hu.resolve_right nofun) with hu | ⟨-, rfl, rfl⟩
      · exact h.inum (.inl hu)
      · rfl
    · rcases gained (hu.resolve_right nofun) with hu | ⟨ht, rfl, rfl⟩
      · exact .inl hu
      · obtain ⟨j, hj⟩ := h.inode.uses _ hh
        rwa [h.only hI (pos ht) rfl j hj] at hj
    · have := refs i n hh hu
      show 0 < (if (s.file f).Refers then _ else l.refs) (i, n)
      split
      · exact this.trans_le (Nat.le_add_right ..)
      · exact this
    · rw [hgr, Pi.add_apply, (h.inode.slot i).refs]
      show _ = (((if (s.file f).Refers then _ else l.refs) (i, _) : Nat) : ℤ)
      by_cases ht : (s.file f).Refers
      · by_cases hi : i = (s.file f).ip
        · simp [ht, hi]
        · simp [ht, hi]
      · simp [ht]
  · exact h.file.close hf files (by rw [hg, Pi.single_neg, sub_eq_add_neg]) rfl rfl rfl rfl

theorem Next.setFile (hI : Inv s g) (h : At p l s g) (mid : l.mid = .idle) (fresh : f ∈ l.fresh)
    (ref : y.ref = 1) (type : y.type = .inode ∨ y.type = .device) (refs : 0 < l.refs (y.ip, n))
    (held : ∀ i m, l.held m ≠ none → l.Uses (i, m) → (i, m) = (y.ip, n) ∨ 0 < l.refs (i, m))
    (hs : s' = s.setFile f y) :
    Next p (.setFile f y) () s s' g { l with
      refs := l.refs - Pi.single (y.ip, n) 1, fresh := l.fresh \ {f}
      via := some (f, (y.ip, n)) } := by
  obtain ⟨files, hr, ht⟩ := h.file.fresh f fresh
  have mine := h.files_pos.2 files
  have live : l.mid ≠ .exited := by simp [mid]
  have hn := h.inum (.inl refs)
  have hrefs := (h.inode.slot y.ip).refs
  rw [hn] at hrefs
  have pipe : y.type ≠ .pipe := by
    intro hp
    simp [hp] at type
  have step : FileStep p s g f y 0 (-Pi.single y.ip 1) 0 := by
    refine ⟨by simp [ref, hr], by omega, by simp [ref], fun i => ?_, fun i => ?_, fun e => ?_,
      fun e => by simpa using hI.pipe.nonneg p e, fun q hq hf => ?_, fun i hl => ?_⟩
    · by_cases hi : i = y.ip
      · subst hi
        simp [File.Holds, File.Refers, ref, type, ht]
      · simp [File.Holds, File.Refers, ref, type, ht, hi, Ne.symm hi]
    · have := hI.inode.nonneg p i
      by_cases hi : i = y.ip
      · subst hi
        simp only [Pi.neg_apply, Pi.single_eq_same]
        omega
      · simpa [hi] using this
    · simp [File.EndOf, pipe, ht]
    · have := hI.file.shared mine hf hq
      omega
    · by_cases hi : i = y.ip
      · subst hi
        exact .inr ⟨f, by simpa using mine, by simp [File.Holds, File.Refers, ref, type]⟩
      · obtain ⟨m, hu, hh⟩ := h.locked mid hl
        refine .inl ?_
        have := h.refs_pos ((held i m hh hu).resolve_left fun heq => hi (Prod.mk.inj heq).1)
        simpa [hi] using this
  have hf : s'.file = Function.update s.file f y := by rw [hs]; rfl
  have gains : Gains (.setFile f y) () (-Pi.single y.ip 1) (Pi.single f 0) 0 0 :=
    ⟨by simp, if_pos type, (Pi.single_zero f).symm, if_neg pipe, rfl⟩
  refine Next.file hI h step hs gains rfl live live rfl rfl rfl rfl rfl
    (fun e => (add_zero _).trans (h.pipe.ends e)) (fun g' hgr hy => ?_) fun g' hg => ?_
  · have down {i : IId} {m : Nat} (hu : Loc.Uses { l with
        refs := l.refs - Pi.single (y.ip, n) 1, fresh := l.fresh \ {f}
        via := some (f, (y.ip, n)) } (i, m)) : l.Uses (i, m) := by
      rcases hu with hu | ⟨f', hu⟩
      · exact .inl (hu.trans_le (Nat.sub_le ..))
      · cases hu
        exact .inl refs
    refine h.inode.repoint mid mid (by rw [hs]; rfl) (by rw [hs]; rfl) (by rw [hy])
      (fun i m hu => h.inum (down hu))
      (fun i m hh => ⟨down, fun hu => ?_⟩) (fun i => ?_) rfl
    · by_cases heq : (i, m) = (y.ip, n)
      · exact .inr ⟨f, by rw [heq]⟩
      · refine .inl ?_
        simpa [heq] using (held i m hh hu).resolve_left heq
    · rw [hgr]
      by_cases hi : i = y.ip
      · subst hi
        simp only [hn, Pi.add_apply, Pi.neg_apply, Pi.sub_apply, Pi.single_eq_same]
        omega
      · simp [hi, (h.inode.slot i).refs]
  · refine h.file.setFile hf (fun f' => ?_) (fun _ _ => rfl) (fun _ _ hf' => hf'.1)
      (fun hf' => absurd rfl hf'.2)
      (fun f' _ _ hff hv => ?_) (fun i m hv => ?_) (fun _ _ _ hv => hv) fun pi hv => ?_
    · simp [hg, h.file.files]
    · cases hv
      exact absurd rfl hff
    · cases hv
      exact ⟨files, by omega, type, rfl⟩
    · have := h.file.viaPipe f pi hv
      simp [ht] at this

theorem Next.setFilePipe (hI : Inv s g) (h : At p l s g) (live : l.mid ≠ .exited)
    (fresh : f ∈ l.fresh)
    (ref : y.ref = 1) (type : y.type = .pipe) (ends : 0 < l.ends (y.pipe, y.writable))
    (hs : s' = s.setFile f y) :
    Next p (.setFile f y) () s s' g { l with
      ends := l.ends - Pi.single (y.pipe, y.writable) 1, fresh := l.fresh \ {f} } := by
  obtain ⟨files, hr, ht⟩ := h.file.fresh f fresh
  have mine := h.files_pos.2 files
  have refers : ¬y.Refers := by simp [File.Refers, type]
  have hends := h.pipe.ends (y.pipe, y.writable)
  have step : FileStep p s g f y 0 0 (-Pi.single (y.pipe, y.writable) 1) := by
    refine ⟨by simp [ref,
      hr], by omega, by simp [ref], fun i => ?_, fun i => by simpa using hI.inode.nonneg p i,
      fun e => ?_, fun e => ?_, fun q hq hf => ?_, fun i hl => ?_⟩
    · simp [File.Holds, File.Refers, type, ht]
    · by_cases he : e = (y.pipe, y.writable)
      · subst he
        simp [File.EndOf, ref, type, ht]
      · simp [File.EndOf, ref, type, ht, he, Ne.symm he]
    · have := hI.pipe.nonneg p e
      by_cases he : e = (y.pipe, y.writable)
      · subst he
        simp only [Pi.neg_apply, Pi.single_eq_same]
        omega
      · simpa [he] using this
    · have := hI.file.shared mine hf hq
      omega
    · refine (hI.inode.user i p hl).imp (fun h => by simpa using h) ?_
      rintro ⟨f', hf', hh⟩
      refine ⟨f', by simpa using hf', ?_⟩
      have hff : f' ≠ f := by
        rintro rfl
        simp [File.Holds, File.Refers, ht] at hh
      rwa [update_of_ne hff]
  have hf : s'.file = Function.update s.file f y := by rw [hs]; rfl
  have gains : Gains (.setFile f y) () 0 (Pi.single f 0) (-Pi.single (y.pipe, y.writable) 1) 0 :=
    ⟨by simp, if_neg refers, (Pi.single_zero f).symm, if_pos type, rfl⟩
  refine Next.file hI h step hs gains rfl live live rfl rfl rfl rfl rfl (fun e => ?_)
    (fun g' hgr hy => ?_)
    fun g' hg => ?_
  · rw [h.pipe.ends]
    by_cases he : e = (y.pipe, y.writable)
    · subst he
      simp only [Pi.neg_apply, Pi.sub_apply, Pi.single_eq_same]
      omega
    · simp [he]
  · subst hs
    exact h.inode.congr rfl rfl (by rw [hgr, add_zero]) (by rw [hy]) rfl rfl rfl rfl
  · refine h.file.setFile hf (fun f' => ?_) (fun _ _ => rfl) (fun _ _ hf' => hf'.1)
      (fun hf' => absurd rfl hf'.2)
      (fun _ _ _ _ hv => hv) (fun i m hv => ?_) (fun _ _ _ hv => hv) fun pi hv => ?_
    · simp [hg, h.file.files]
    · have := (h.file.via f i m hv).2.2.1
      simp [File.Refers, ht] at this
    · have := h.file.viaPipe f pi hv
      simp [ht] at this

end Xv6.Dir
