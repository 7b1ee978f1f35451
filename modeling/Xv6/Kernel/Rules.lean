import Xv6.Kernel.Outline

/-!
# The operations of the process that commits or recovers

Between its operations, this process knows the disk and the log (nobody else touches them) and the
contents of the buffers it holds (`At`). One rule for each operation of `commit` and of recovery
says what it needs and how it changes this knowledge.
-/

namespace Xv6

open Lib Function List

namespace Kernel

variable {A : Aux} {sb : Superblock} {hsb : 0 < sb.nlog} {s s' : Kernel A} {p : Pid}
  {i j : BufId} {b : Nat} {d : Block} {K : Core} {H : List (BufId × Nat × Block)} {X : List BufId}

def Core.pending (K : Core) : List Nat := if K.up then K.block.drop K.unpinned else []

theorem pending_core (s : Kernel A) : s.core.pending = s.pending := rfl

/-- Process `p` holds buffer `x.1` with the contents `x.2.2` of block `x.2.1`. -/
def Held (p : Pid) (x : BufId × Nat × Block) (s : Kernel A) : Prop :=
  (s.buf x.1).owner = some p ∧ (s.buf x.1).blockno = x.2.1 ∧ (s.buf x.1).valid ∧
    (s.buf x.1).data = x.2.2

/-- The committer `p` knows the core of the state and the buffers `H` it holds. What else it holds,
`X` apart, it has not changed. -/
structure At (sb : Superblock) (p : Pid) (K : Core) (H : List (BufId × Nat × Block))
    (X : List BufId) (s : Kernel A) : Prop where
  committer : s.committer = some p
  core : s.core = K
  held : ∀ x ∈ H, Held p x s
  tidy : ∀ i, (s.buf i).owner = some p → i ∉ X → (s.buf i).valid ∧
    (sb.InLog (s.buf i).blockno → (s.buf i).data = K.disk (s.buf i).blockno)

/-- Buffer contents that agree but for the reference count. -/
def SameCopy (x y : Buf) : Prop :=
  x.dev = y.dev ∧ x.blockno = y.blockno ∧ x.valid = y.valid ∧ x.owner = y.owner ∧ x.data = y.data

theorem SameCopy.rfl {x : Buf} : SameCopy x x := ⟨.refl _, .refl _, .refl _, .refl _, .refl _⟩

theorem Rely.sameCopy (hR : Rely p s s') (ho : (s.buf i).owner = some p) :
    SameCopy (s'.buf i) (s.buf i) := by
  obtain ⟨⟨hd, hb⟩, hv, hdt⟩ := hR.bio.held i ho
  exact ⟨hd, hb, hv, ((hR.bio.owner i).2 ho).trans ho.symm, hdt⟩

namespace At

/-- A step that keeps the core of the state and the copies that `p` holds. -/
theorem frame (h : At sb p K H X s) {X' : List BufId} {H' : List (BufId × Nat × Block)}
    (hc : s'.committer = some p) (hcore : s'.core = s.core)
    (hH : ∀ x ∈ H', x ∈ H) (hX : ∀ i, i ∈ X → i ∈ X' ∨ (s'.buf i).owner ≠ some p)
    (keep : ∀ x ∈ H', SameCopy (s'.buf x.1) (s.buf x.1))
    (own : ∀ i, i ∉ X' → (s'.buf i).owner = some p → SameCopy (s'.buf i) (s.buf i)) :
    At sb p K H' X' s' := by
  refine ⟨hc, hcore.trans h.core, fun x hx => ?_, fun i ho hi => ?_⟩
  · obtain ⟨ho, hb, hv, hd⟩ := h.held x (hH x hx)
    obtain ⟨-, hb', hv', ho', hd'⟩ := keep x hx
    exact ⟨ho'.trans ho, hb'.trans hb, hv'.trans hv, hd'.trans hd⟩
  · obtain ⟨-, hb', hv', ho', hd'⟩ := own i hi ho
    have hiX : i ∉ X := fun hx => (hX i hx).elim hi fun hn => hn ho
    rw [hb', hv', hd']
    exact h.tidy i (ho'.symm.trans ho) hiX

theorem stable (hR : Rely p s s') (h : At sb p K H X s) : At sb p K H X s' :=
  h.frame (hR.committer.2 h.committer) (hR.core h.committer) (fun _ => id) (fun _ => .inl)
    (fun x hx => hR.sameCopy (h.held x hx).1) fun i _ ho => hR.sameCopy ((hR.bio.owner i).1 ho)

theorem swap {x y : BufId × Nat × Block} (h : At sb p K (x :: y :: H) (x.1 :: y.1 :: X) s) :
    At sb p K (y :: x :: H) (y.1 :: x.1 :: X) s :=
  ⟨h.committer, h.core, fun z hz => h.held z ((List.Perm.swap y x H).mem_iff.2 hz),
    fun i ho hi => h.tidy i ho fun hx => hi ((List.Perm.swap y.1 x.1 X).mem_iff.1 hx)⟩

/-- What the last holder of a block left does not change while the block is held. -/
theorem left_stable {d' : Block} (hi : (i, b, d) ∈ H) (s s' : Kernel A) (hR : Rely p s s')
    (h : At sb p K H X s) (hd : d' = s.left b) : d' = s'.left b := by
  obtain ⟨ho, hb, -, -⟩ := h.held _ hi
  have := hR.left i ho
  rw [show (s.buf i).blockno = b from hb] at this
  rw [this, hd]

theorem pending (h : At sb p K H X s) : s.pending = K.pending := by
  rw [← h.core, pending_core]

theorem disk (h : At sb p K H X s) : s.disk = K.disk := by rw [← h.core]; rfl

end At

/-! ## `bread` and `brelse` -/

/-- What the committer learns from a buffer it just locked. -/
structure Fresh (sb : Superblock) (p : Pid) (K : Core) (i : BufId) (b : Nat)
    (s : Kernel A) : Prop where
  owner : (s.buf i).owner = some p
  blockno : (s.buf i).blockno = b
  region : (s.buf i).valid → sb.InLog b → (s.buf i).data = K.disk b
  pending : b ∈ K.pending → (s.buf i).valid ∧
    (s.buf i).data = K.atCommit b ∧ (s.buf i).data = s.left b

theorem Fresh.stable (hR : Rely p s s') (h : Fresh sb p K i b s) : Fresh sb p K i b s' := by
  obtain ⟨-, hb, hv, ho, hd⟩ := hR.sameCopy h.owner
  have hl : s'.left b = s.left b := by
    have := hR.left i h.owner
    rwa [h.blockno] at this
  refine ⟨ho.trans h.owner, hb.trans h.blockno, ?_, ?_⟩
  · rw [hv, hd]; exact h.region
  · rw [hv, hd, hl]; exact h.pending

variable {site : Site}

theorem exec_bio_ok {o : BioOp} {r : o.Res}
    (he : exec p (.bio site o) s = .ok (r, s')) :
    ∃ bio, Bio.exec p o s.bio = .ok (r, bio) ∧ s' = { s.record site o with bio } := by
  simp only [exec] at he
  split at he <;> cases he
  rename_i bio hb
  exact ⟨bio, hb, rfl⟩

/-- What `bget` does: the copies that somebody holds stay. -/
structure Got (p : Pid) (b : Nat) (s : Kernel A) (i : BufId) (s' : Kernel A) : Prop where
  refs : p ∈ s'.bio.refs i
  caches : s'.Caches i b
  core : s'.core = s.core
  committer : s'.committer = s.committer
  owner : ∀ j, (s'.buf j).owner = (s.buf j).owner
  held : ∀ j q, (s.buf j).owner = some q → SameCopy (s'.buf j) (s.buf j)

theorem Inv.got (h : Inv sb s)
    (he : exec p (.bio site (.bget ROOTDEV b)) s = .ok (i, s')) : Got p b s i s' := by
  obtain ⟨bio, hb, rfl⟩ := exec_bio_ok he
  have hrec : s.record site (.bget ROOTDEV b) = s := by cases site <;> rfl
  rw [hrec]
  simp only [Bio.exec] at hb
  split at hb
  · rename_i j c hc
    cases hb
    cases h.bio.wf.bget_cases hc with
    | hit hdev hblockno state =>
      have self : c.buf i = { s.buf i with refcnt := (s.buf i).refcnt + 1 } := by
        rw [state, Bcache.buf_set_self]; rfl
      have other : ∀ j, j ≠ i → c.buf j = s.buf j := fun j hj => by
        rw [state, Bcache.buf_set_of_ne _ hj]; rfl
      have same : ∀ j, SameCopy (c.buf j) (s.buf j) := fun j => by
        by_cases hj : j = i
        · subst hj; rw [self]; exact .rfl
        · rw [other j hj]; exact .rfl
      refine ⟨by simp, ?_, rfl, rfl, fun j => (same j).2.2.2.1, fun j _ _ => same j⟩
      exact ⟨(same i).1.trans hdev, (same i).2.1.trans hblockno⟩
    | recycle miss unused state =>
      have self :
          c.buf i = { s.buf i with dev := ROOTDEV, blockno := b, valid := false, refcnt := 1 } := by
        rw [state, Bcache.buf_set_self]; rfl
      have other : ∀ j, j ≠ i → c.buf j = s.buf j := fun j hj => by
        rw [state, Bcache.buf_set_of_ne _ hj]; rfl
      refine ⟨by simp, ?_, rfl, rfl, fun j => ?_, fun j q hq => ?_⟩
      · show (c.buf i).dev = _ ∧ (c.buf i).blockno = _
        rw [self]; exact ⟨rfl, rfl⟩
      · show (c.buf j).owner = _
        by_cases hj : j = i
        · subst hj; rw [self]
        · rw [other j hj]
      · have hj : j ≠ i := by
          rintro rfl
          have hlen := length_pos_of_mem (h.bio.owner j q hq)
          have := h.bio.refcnt j
          rw [show (s.bio.buf j).refcnt = 0 from unused] at this
          omega
        show SameCopy (c.buf j) _
        rw [other j hj]; exact .rfl
  · cases hb

variable {r : Unit}

theorem Inv.fresh (hI : Inv sb s) (h : At sb p K H (H.map Prod.fst) s)
    (hc : s.Caches i b) (he : exec p (.bio site (.acquiresleep i)) s = .ok (r, s')) :
    i ∉ H.map Prod.fst ∧ At sb p K H (i :: H.map Prod.fst) s' ∧ Fresh sb p K i b s' := by
  obtain ⟨bio, hb, rfl⟩ := exec_bio_ok he
  have hrec : s.record site (.acquiresleep i) = s := by cases site <;> rfl
  rw [hrec]
  simp only [Bio.exec] at hb
  split at hb <;> cases hb
  rename_i hfree
  have hne : ∀ x ∈ H, x.1 ≠ i := by
    rintro x hx rfl
    have := (h.held x hx).1
    rw [show (s.buf x.1).owner = none from hfree] at this
    cases this
  have self : Bio.buf (s.bio.set i { s.bio.buf i with owner := some p }) i =
    { s.buf i with owner := some p } := Bio.buf_set_self ..
  have other : ∀ j, j ≠ i →
      Bio.buf (s.bio.set i { s.bio.buf i with owner := some p }) j = s.buf j :=
    fun j hj => Bio.buf_set_of_ne _ hj _
  refine ⟨fun hm => ?_, ?_, ?_⟩
  · obtain ⟨x, hx, rfl⟩ := mem_map.1 hm
    exact hne x hx rfl
  · refine h.frame h.committer rfl (fun _ => id) (fun _ hj => .inl (mem_cons_of_mem _ hj))
      (fun x hx => ?_) fun j hj _ => ?_
    · rw [Kernel.buf, other _ (hne x hx)]; exact .rfl
    · rw [Kernel.buf, other _ fun e => hj (e ▸ mem_cons_self)]; exact .rfl
  · refine ⟨?_, ?_, ?_, ?_⟩
    · rw [Kernel.buf, self]
    · rw [Kernel.buf, self]; exact hc.2
    · rw [Kernel.buf, self]
      intro hv hl
      by_contra hne
      rw [← hc.2] at hl hne
      rw [← h.disk] at hne
      exact ((hI.buf i).region hc.1 hv hl hne).1 hfree
    · rw [Kernel.buf, self]
      intro hp
      rw [← h.pending, ← hc.2] at hp
      have hv := hI.valid_of_pending hc.1 hp
      have hcm : s.committer ≠ none := by simp [h.committer]
      refine ⟨hv, ?_, ?_⟩
      · rw [← h.core, ← hc.2]; exact (hI.buf i).atCommit hcm hc.1 hp
      · rw [← hc.2]; exact (hI.buf i).left hc.1 hv hfree

theorem At.load (h : At sb p K H (i :: H.map Prod.fst) s)
    (hi : i ∉ H.map Prod.fst) (hf : Fresh sb p K i b s)
    (he : exec p (.bio site (.load i)) s = .ok (r, s')) :
    ∃ d, At sb p K ((i, b, d) :: H) (i :: H.map Prod.fst) s' ∧ (sb.InLog b → d = K.disk b) ∧
      (b ∈ K.pending → d = K.atCommit b ∧ d = s'.left b) := by
  obtain ⟨bio, hb, rfl⟩ := exec_bio_ok he
  have hrec : s.record site (.load i) = s := by cases site <;> rfl
  rw [hrec]
  simp only [Bio.exec] at hb
  split at hb <;> cases hb
  · rename_i hv
    refine ⟨(s.buf i).data, ⟨h.committer, h.core, ?_, h.tidy⟩, hf.region hv,
      fun hp => (hf.pending hp).2⟩
    intro x hx
    rcases mem_cons.1 hx with rfl | hx
    · exact ⟨hf.owner, hf.blockno, hv, rfl⟩
    · exact h.held x hx
  · rename_i hv
    have hp : b ∉ K.pending := fun hp => hv (hf.pending hp).1
    have hne : ∀ x ∈ H, x.1 ≠ i := fun x hx e => hi (e ▸ mem_map_of_mem hx)
    have self : Bio.buf (s.bio.set i { s.bio.buf i with
        data := s.bio.disk (s.bio.buf i).blockno, valid := true }) i =
      { s.buf i with data := s.disk (s.buf i).blockno, valid := true } := Bio.buf_set_self ..
    have other : ∀ j, j ≠ i → Bio.buf (s.bio.set i { s.bio.buf i with
        data := s.bio.disk (s.bio.buf i).blockno, valid := true }) j = s.buf j :=
      fun j hj => Bio.buf_set_of_ne _ hj _
    have h' : At sb p K H (i :: H.map Prod.fst) { s with bio := s.bio.set i { s.bio.buf i with
        data := s.bio.disk (s.bio.buf i).blockno, valid := true } } := by
      refine h.frame h.committer rfl (fun _ => id) (fun _ => .inl) (fun x hx => ?_) fun j hj _ => ?_
      · rw [Kernel.buf, other _ (hne x hx)]; exact .rfl
      · rw [Kernel.buf, other _ fun e => hj (e ▸ mem_cons_self)]; exact .rfl
    refine ⟨K.disk b, ⟨h'.committer, h'.core, ?_, h'.tidy⟩, fun _ => rfl, fun hp' => absurd hp' hp⟩
    intro x hx
    rcases mem_cons.1 hx with rfl | hx
    · refine ⟨?_, ?_, ?_, ?_⟩ <;> rw [Kernel.buf, self]
      · exact hf.owner
      · exact hf.blockno
      · rw [h.disk, hf.blockno]
    · exact h'.held x hx

variable {Q : α → Kernel A → Prop}

theorem bread_safe {k : BufId → Prog (kIface A) α}
    (hA : At sb p K H (H.map Prod.fst) s)
    (hsite : ∀ s : Kernel A, s.core = K → SitePre sb p site (.bget ROOTDEV b) s)
    (next : ∀ i d s', At sb p K ((i, b, d) :: H) (i :: H.map Prod.fst) s' → i ∉ H.map Prod.fst →
      (sb.InLog b → d = K.disk b) → (b ∈ K.pending → d = K.atCommit b ∧ d = s'.left b) →
      Safe (outline sb hsb) p Q (k i) s') :
    Safe (outline sb hsb) p Q ((bread site ROOTDEV b).bind k) s := by
  refine .call (A := At sb p K H (H.map Prod.fst)) hA (fun _ _ => At.stable)
    (fun s _ _ h => ⟨trivial, hsite s h.core⟩) ?_
  intro s i s' hI _ _ h he
  have got := hI.got he
  refine .call (A := fun s => At sb p K H (H.map Prod.fst) s ∧ p ∈ s.bio.refs i ∧ s.Caches i b)
    ⟨?_, got.refs, got.caches⟩ ?_ (fun s _ _ h => ⟨h.2.1, by cases site <;> trivial⟩) ?_
  · exact h.frame (got.committer.trans h.committer) got.core (fun _ => id) (fun _ => .inl)
      (fun x hx => got.held _ p (h.held x hx).1)
      fun j _ ho => got.held j p ((got.owner j).symm.trans ho)
  · rintro s s' hR ⟨h, hr, hc⟩
    obtain ⟨hd, hb⟩ := hR.bio.block i hr
    exact ⟨h.stable hR, hR.bio.mem_refs.2 hr, hd.trans hc.1, hb.trans hc.2⟩
  intro s r s' hI _ _ ⟨h, hr, hc⟩ he
  obtain ⟨hi, h, hf⟩ := hI.fresh h hc he
  refine .call (A := fun s => At sb p K H (i :: H.map Prod.fst) s ∧ Fresh sb p K i b s) ⟨h, hf⟩
    (fun s s' hR h => ⟨h.1.stable hR, h.2.stable hR⟩)
    (fun s _ _ h => ⟨h.2.owner, by cases site <;> trivial⟩) ?_
  intro s r s' _ _ _ ⟨h, hf⟩ he
  obtain ⟨d, h', hlog, hpend⟩ := h.load hi hf he
  exact next i d s' h' hi hlog hpend

theorem At.releasesleep (hI : Inv sb s)
    (h : At sb p K ((i, b, d) :: H) (i :: H.map Prod.fst) s) (hi : i ∉ H.map Prod.fst)
    (he : exec p (.bio site (.releasesleep i)) s = .ok (r, s')) :
    At sb p K H (H.map Prod.fst) s' ∧ p ∈ s'.bio.refs i ∧ (s'.buf i).owner ≠ some p := by
  obtain ⟨bio, hb, rfl⟩ := exec_bio_ok he
  have hrec : s.record site (.releasesleep i) =
      { s with left := update s.left (s.buf i).blockno (s.buf i).data } := by
    cases site <;> rfl
  rw [hrec]
  simp only [Bio.exec] at hb
  split at hb <;> cases hb
  rename_i ho
  have hne : ∀ x ∈ H, x.1 ≠ i := fun x hx e => hi (e ▸ mem_map_of_mem hx)
  have self : Bio.buf (s.bio.set i { s.bio.buf i with owner := none }) i =
    { s.buf i with owner := none } := Bio.buf_set_self ..
  have other : ∀ j, j ≠ i → Bio.buf (s.bio.set i { s.bio.buf i with owner := none }) j = s.buf j :=
    fun j hj => Bio.buf_set_of_ne _ hj _
  refine ⟨h.frame h.committer rfl (fun _ => mem_cons_of_mem _) (fun j hj => ?_)
    (fun x hx => ?_) (fun j _ hj => ?_), hI.bio.owner i p ho, ?_⟩
  · rcases mem_cons.1 hj with rfl | hj
    · right; rw [Kernel.buf, self]; simp
    · exact .inl hj
  · rw [Kernel.buf, other _ (hne x hx)]; exact .rfl
  · have hji : j ≠ i := by
      rintro rfl
      rw [Kernel.buf, self] at hj
      cases hj
    rw [Kernel.buf, other _ hji]; exact .rfl
  · rw [Kernel.buf, self]; simp

theorem At.unref (h : At sb p K H X s)
    (he : exec p (.bio site (.unref i)) s = .ok (r, s')) : At sb p K H X s' := by
  obtain ⟨bio, hb, rfl⟩ := exec_bio_ok he
  have hrec : s.record site (.unref i) = s := by cases site <;> rfl
  rw [hrec]
  cases hb
  have same : ∀ j, SameCopy ((s.bio.cache.unref i).buf j) (s.buf j) := fun j => by
    rw [Bcache.unref_buf]
    by_cases hj : j = i
    · subst hj; rw [Bcache.buf_set_self]; exact .rfl
    · rw [Bcache.buf_set_of_ne _ hj]; exact .rfl
  exact h.frame h.committer rfl (fun _ => id) (fun _ => .inl) (fun x _ => same x.1)
    fun j _ _ => same j

variable {k : Unit → Prog (kIface A) α}

theorem brelse_safe
    (hA : At sb p K ((i, b, d) :: H) (i :: H.map Prod.fst) s) (hi : i ∉ H.map Prod.fst)
    (clean : b ∈ K.pending ∨ d = K.disk b)
    (next : ∀ s', At sb p K H (H.map Prod.fst) s' → Safe (outline sb hsb) p Q (k ()) s') :
    Safe (outline sb hsb) p Q ((brelse site i).bind k) s := by
  refine .call (A := At sb p K ((i, b, d) :: H) (i :: H.map Prod.fst)) hA (fun _ _ => At.stable)
    (fun s _ _ h => ⟨trivial, sitePre_releasesleep.2 fun _ _ => ?_⟩) ?_
  · obtain ⟨-, hb, -, hd⟩ := h.held _ mem_cons_self
    rw [hb, hd, h.disk, h.pending]
    exact clean
  intro s r s' hI _ _ h he
  refine .call (A := fun s => At sb p K H (H.map Prod.fst) s ∧ p ∈ s.bio.refs i ∧
    (s.buf i).owner ≠ some p) (h.releasesleep hI hi he) ?_
    (fun s _ _ h => ⟨h.2, by cases site <;> trivial⟩) ?_
  · exact fun s s' hR h => ⟨h.1.stable hR, hR.bio.mem_refs.2 h.2.1,
      fun ho => h.2.2 ((hR.bio.owner i).1 ho)⟩
  intro s r s' _ _ _ h he
  exact next s' (h.1.unref he)

/-! ## Data and disk -/

/-- An operation of the committer, with what else it knows (`F`). -/
theorem op_safe {o : KOp A} {k : o.Res → Prog (kIface A) α}
    (F : Kernel A → Prop) (hA : At sb p K H X s) (hF : F s)
    (stable : ∀ s s', Rely p s s' → At sb p K H X s → F s → F s')
    (pre : ∀ s, Inv sb s → At sb p K H X s → F s → Pre sb p o s)
    (next : ∀ s r s', Inv sb s → At sb p K H X s → F s → exec p o s = .ok (r, s') →
      Safe (outline sb hsb) p Q (k r) s') :
    Safe (outline sb hsb) p Q ((op o).bind k) s :=
  .call (A := fun s => At sb p K H X s ∧ F s) ⟨hA, hF⟩
    (fun s s' hR h => ⟨h.1.stable hR, stable s s' hR h.1 h.2⟩) (fun s hI _ h => pre s hI h.1 h.2)
    fun s r s' hI _ _ h he => next s r s' hI h.1 h.2 he

theorem data_safe {k : Block → Prog (kIface A) α}
    (F : Kernel A → Prop) (hA : At sb p K H X s) (hF : F s)
    (stable : ∀ s s', Rely p s s' → At sb p K H X s → F s → F s') (hi : (i, b, d) ∈ H)
    (next : ∀ s', At sb p K H X s' → F s' → Safe (outline sb hsb) p Q (k d) s') :
    Safe (outline sb hsb) p Q ((op (.bio site (.data i))).bind k) s := by
  refine op_safe F hA hF stable (fun s _ _ _ => ⟨trivial, by cases site <;> trivial⟩) ?_
  intro s r s' _ h hF he
  obtain ⟨bio, hb, rfl⟩ := exec_bio_ok he
  have hrec : s.record site (.data i) = s := by cases site <;> rfl
  rw [hrec]
  cases hb
  rw [show (s.bio.buf i).data = d from (h.held _ hi).2.2.2]
  exact next s h hF

theorem lh_safe {k : List Nat → Prog (kIface A) α}
    (hA : At sb p K H X s)
    (next : ∀ s', Inv sb s' → At sb p K H X s' → Safe (outline sb hsb) p Q (k K.block) s') :
    Safe (outline sb hsb) p Q ((op .lh).bind k) s := by
  refine op_safe (fun _ => True) hA trivial (fun _ _ _ _ => id) (fun _ _ _ _ => trivial) ?_
  intro s r s' hI h _ he
  cases he
  rw [show s.log.block = K.block by rw [← h.core]; rfl]
  exact next s hI h

variable {d' : Block}

theorem At.setData
    (h : At sb p K ((i, b, d) :: H) (i :: X) s) (hi : i ∉ H.map Prod.fst)
    (he : exec p (.bio site (.setData i d')) s = .ok (r, s')) :
    At sb p K ((i, b, d') :: H) (i :: X) s' := by
  obtain ⟨bio, hb, rfl⟩ := exec_bio_ok he
  have hrec : s.record site (.setData i d') = s := by cases site <;> rfl
  rw [hrec]
  cases hb
  have hne : ∀ x ∈ H, x.1 ≠ i := fun x hx e => hi (e ▸ mem_map_of_mem hx)
  have self : Bio.buf (s.bio.set i { s.bio.buf i with data := d' }) i =
    { s.buf i with data := d' } := Bio.buf_set_self ..
  have other : ∀ j, j ≠ i → Bio.buf (s.bio.set i { s.bio.buf i with data := d' }) j = s.buf j :=
    fun j hj => Bio.buf_set_of_ne _ hj _
  obtain ⟨ho, hb, hv, -⟩ := h.held _ mem_cons_self
  refine ⟨h.committer, h.core, fun x hx => ?_, fun j ho hj => ?_⟩
  · rcases mem_cons.1 hx with rfl | hx
    · refine ⟨?_, ?_, ?_, ?_⟩ <;> rw [Kernel.buf, self]
      · exact ho
      · exact hb
      · exact hv
    · have := h.held x (mem_cons_of_mem _ hx)
      rwa [Held, Kernel.buf, other _ (hne x hx)]
  · have hji : j ≠ i := fun e => hj (e ▸ mem_cons_self)
    rw [Kernel.buf, other j hji] at ho ⊢
    exact h.tidy j ho hj

/-- After a write of `d` to block `b` of the disk. -/
def Core.write (K : Core) (site : Site) (b : Nat) (d : Block) : Core :=
  { K with
    disk := update K.disk b d
    headed := match site with
      | .head => true
      | _ => K.headed }

theorem At.bwrite (hI : Inv sb s)
    (h : At sb p K ((i, b, d) :: H) (i :: X) s)
    (he : exec p (.bio site (.bwrite i)) s = .ok (r, s')) :
    At sb p (K.write site b d) ((i, b, d) :: H) (i :: X) s' := by
  obtain ⟨bio, hb, rfl⟩ := exec_bio_ok he
  simp only [Bio.exec] at hb
  split at hb <;> cases hb
  obtain ⟨ho, hb, hv, hd⟩ := h.held _ mem_cons_self
  have hdev := hI.dev_of_owner ho
  have hcore := h.core
  refine ⟨(s.record_eq site (.bwrite i)).2.1.trans h.committer, ?_, fun x hx => ?_,
    fun j hoj hj => ?_⟩
  · subst hcore
    show Core.mk (update s.disk (s.buf i).blockno (s.buf i).data) _ _ _ _ _ _ _ = _
    rw [hb, hd]
    cases site <;> rfl
  · have := h.held x hx
    cases site <;> exact this
  · have hji : j ≠ i := fun e => hj (e ▸ mem_cons_self)
    change (s.buf j).owner = some p at hoj
    have := h.tidy j hoj hj
    refine ⟨this.1, fun hl => ?_⟩
    show (s.buf j).data = update K.disk b d (s.buf j).blockno
    have hne : (s.buf j).blockno ≠ b :=
      fun e => hI.blockno_ne hji (hI.dev_of_owner hoj) hdev (e.trans hb.symm)
    rw [update_of_ne hne]
    exact this.2 hl

theorem setData_safe (F : Kernel A → Prop) (hA : At sb p K ((i, b, d) :: H) (i :: X) s) (hF : F s)
    (stable : ∀ s s', Rely p s s' → At sb p K ((i, b, d) :: H) (i :: X) s → F s → F s')
    (hi : i ∉ H.map Prod.fst) (group : b ∈ K.pending → d' = K.atCommit b)
    (logged : K.up = true → sb.InLog b ∨ b ∈ K.pending)
    (copy : ∀ s tail, F s → site = .logCopy tail → ∃ b, K.block[tail]? = some b ∧ d' = s.left b)
    (next : ∀ s', At sb p K ((i, b, d') :: H) (i :: X) s' → Safe (outline sb hsb) p Q (k ()) s') :
    Safe (outline sb hsb) p Q ((op (.bio site (.setData i d'))).bind k) s := by
  refine op_safe F hA hF stable (fun s _ h hF => ?_) fun s _ s' _ h _ he =>
    next s' (h.setData hi he)
  obtain ⟨ho, hb, -, -⟩ := h.held _ mem_cons_self
  have hsite : s.committer = some p ∧
      ((s.buf i).blockno ∈ s.pending → d' = s.atCommit (s.buf i).blockno) ∧
      (s.up = true → sb.InLog (s.buf i).blockno ∨ (s.buf i).blockno ∈ s.pending) ∧
      ∀ tail, site = .logCopy tail → ∃ b, s.log.block[tail]? = some b ∧ d' = s.left b := by
    have hcore := h.core
    refine ⟨h.committer, ?_, ?_, fun tail ht => ?_⟩
    · rw [h.pending, hb, show s.atCommit = K.atCommit by rw [← hcore]; rfl]
      exact group
    · rw [h.pending, hb, show s.up = K.up by rw [← hcore]; rfl]
      exact logged
    · rw [show s.log.block = K.block by rw [← hcore]; rfl]
      exact copy s tail hF ht
  refine ⟨ho, ?_⟩
  cases site with
  | client | copyin => trivial
  | log | logFrom | logCopy | logWrite | head | install | erase => exact hsite

theorem bwrite_safe
    (hA : At sb p K ((i, b, d) :: H) (i :: X) s) (write : WritePre sb b d K site)
    (logged : K.up = true → sb.InLog b ∨ b ∈ K.pending)
    (next : ∀ s', At sb p (K.write site b d) ((i, b, d) :: H) (i :: X) s' →
      Safe (outline sb hsb) p Q (k ()) s') :
    Safe (outline sb hsb) p Q ((op (.bio site (.bwrite i))).bind k) s := by
  refine op_safe (fun _ => True) hA trivial (fun _ _ _ _ => id) (fun s _ h _ => ?_)
    fun s _ s' hI h _ he => next s' (h.bwrite hI he)
  obtain ⟨ho, hb, -, hd⟩ := h.held _ mem_cons_self
  refine ⟨trivial, sitePre_bwrite.2 ⟨h.committer, ?_, ?_⟩⟩
  · rw [show (s.buf i).blockno = b from hb, show (s.buf i).data = d from hd, h.core]
    exact write
  · rw [show (s.buf i).blockno = b from hb, h.pending, show s.up = K.up by rw [← h.core]; rfl]
    exact logged

theorem bunpin_safe
    (hA : At sb p K H X s) (hi : (i, b, d) ∈ H) (hup : K.up = true) (hd : d = K.disk b)
    (hb : K.block[K.unpinned]? = some b)
    (next : ∀ s', At sb p { K with unpinned := K.unpinned + 1 } H X s' →
      Safe (outline sb hsb) p Q (k ()) s') :
    Safe (outline sb hsb) p Q ((op (.bio site (.bunpin i))).bind k) s := by
  refine op_safe (fun _ => True) hA trivial (fun _ _ _ _ => id) (fun s hI h _ => ?_)
    fun s _ s' hI h _ he => next s' ?_
  · obtain ⟨ho, hb', -, hd'⟩ := h.held _ hi
    have hcore := h.core
    subst hcore
    have hi : s.Caches i b := ⟨hI.dev_of_owner ho, hb'⟩
    have hdisk : (s.buf i).data = s.disk (s.buf i).blockno := by
      rw [show (s.buf i).data = d from hd', show (s.buf i).blockno = b from hb', hd]
      rfl
    refine ⟨?_, sitePre_bunpin.2 ⟨h.committer, hup, ho, hdisk, b, hi, hb⟩⟩
    exact (hI.pins_of_caches (mem_pending hup hb) hi).ge
  · obtain ⟨bio, hb, rfl⟩ := exec_bio_ok he
    have hrec : s.record site (.bunpin i) = { s with unpinned := s.unpinned + 1 } := by
      cases site <;> rfl
    rw [hrec]
    cases hb
    have same : ∀ j, SameCopy ((s.bio.cache.bunpin i).buf j) (s.buf j) := fun j => by
      by_cases hj : j = i
      · subst hj; rw [Bcache.bunpin, Bcache.buf_set_self]; exact .rfl
      · rw [Bcache.bunpin, Bcache.buf_set_of_ne _ hj]; exact .rfl
    have hcore := h.core
    subst hcore
    refine ⟨h.committer, rfl, fun x hx => ?_, fun j ho hj => ?_⟩
    · obtain ⟨ho, hb, hv, hd⟩ := h.held x hx
      obtain ⟨-, hb', hv', ho', hd'⟩ := same x.1
      exact ⟨ho'.trans ho, hb'.trans hb, hv'.trans hv, hd'.trans hd⟩
    · obtain ⟨-, hb', hv', ho', hd'⟩ := same j
      have := h.tidy j (ho'.symm.trans ho) hj
      rw [← hb', ← hv', ← hd'] at this
      exact this

theorem setLh_safe {block : List Nat}
    (hA : At sb p K H X s) (hb : Header sb block)
    (hup : K.up = true → block = [] ∧ K.unpinned = K.block.length)
    (next : ∀ s', At sb p { K with block, unpinned := 0 } H X s' →
      Safe (outline sb hsb) p Q (k ()) s') :
    Safe (outline sb hsb) p Q ((op (.setLh block)).bind k) s := by
  refine op_safe (fun _ => True) hA trivial (fun _ _ _ _ => id) (fun s _ h _ => ?_)
    fun s _ s' hI h _ he => next s' ?_
  · have hcore := h.core
    subst hcore
    exact ⟨h.committer, hb, hup⟩
  · cases he
    have hcore := h.core
    subst hcore
    exact ⟨h.committer, rfl, h.held, h.tidy⟩

end Kernel

end Xv6
