import Xv6.Kernel.Machine

/-!
# The invariant of the log

The pins, the contents of the cached blocks and the relation between the home blocks, the log and
the header on disk, at every point of a commit or a recovery.
-/

namespace Xv6

open Lib Function Finset List

namespace Kernel

variable {A : Aux} {sb : Superblock} {s s' : Kernel A} {p q : Pid} {i j : BufId} {b : Nat}

/-- A list of blocks that fits into the log and lies outside of it. -/
structure Header (sb : Superblock) (block : List Nat) : Prop where
  nodup : block.Nodup
  length : block.length ≤ sb.nlog - 1 ∧ block.length ≤ LOGSIZE
  home : ∀ b ∈ block, ¬sb.InLog b ∧ b < 2 ^ 32

theorem Header.nil (sb : Superblock) : Header sb [] :=
  ⟨nodup_nil, ⟨Nat.zero_le _, Nat.zero_le _⟩, fun _ h => (nomatch h)⟩

/-- The blocks listed in the header on disk. -/
def onDisk (sb : Superblock) (disk : Nat → Block) : List Nat := headBlocks (disk sb.logstart)

/-- Block `b` as recovery will leave it. -/
def recView (sb : Superblock) (disk : Nat → Block) (b : Nat) : Block :=
  if b ∈ onDisk sb disk then disk (sb.logstart + (onDisk sb disk).idxOf b + 1) else disk b

/-- The blocks whose pins `install_trans` has not dropped yet. -/
def pending (s : Kernel A) : List Nat := if s.up then s.log.block.drop s.unpinned else []

/-- The part of the invariant that concerns the log and the disk. -/
structure LogInv (sb : Superblock) (s : Kernel A) : Prop where
  size : s.log.size = sb.nlog
  outstanding : s.log.outstanding = s.inOp.card
  committing : s.log.committing = true ↔ s.up = true ∧ s.committer ≠ none
  exclusive : s.committer ≠ none → s.inOp = ∅
  boot : s.up = false → s.committer ≠ none ∧ s.unpinned = 0
  unpinned : s.unpinned ≤ s.log.n ∧ (s.committer = none → s.unpinned = 0)
  lh : Header sb s.log.block
  header : Header sb (onDisk sb s.disk)
  quiet : s.committer = none → onDisk sb s.disk = []
  recovered : ∀ b, ¬sb.InLog b → recView sb s.disk b = s.spec b

/-- The part that concerns one buffer. -/
structure BufInv (sb : Superblock) (s : Kernel A) (i : BufId) : Prop where
  dev : s.bio.refs i ≠ [] → (s.buf i).dev = ROOTDEV
  pins : s.bio.pins i = if (s.buf i).dev = ROOTDEV ∧ (s.buf i).blockno ∈ s.pending then 1 else 0
  left : (s.buf i).dev = ROOTDEV → (s.buf i).valid → (s.buf i).owner = none →
    (s.buf i).data = s.left (s.buf i).blockno
  atCommit : s.committer ≠ none → (s.buf i).dev = ROOTDEV → (s.buf i).blockno ∈ s.pending →
    (s.buf i).data = s.atCommit (s.buf i).blockno
  region : (s.buf i).dev = ROOTDEV → (s.buf i).valid → sb.InLog (s.buf i).blockno →
    (s.buf i).data ≠ s.disk (s.buf i).blockno → (s.buf i).owner ≠ none ∧
      (s.buf i).owner = s.committer

structure Inv (sb : Superblock) (s : Kernel A) : Prop where
  bio : s.bio.Inv
  log : LogInv sb s
  buf : ∀ i, BufInv sb s i
  cached : ∀ b ∈ s.pending, ∃ i, s.Caches i b ∧ (s.buf i).valid

/-- What the process that commits or recovers may rely on. -/
structure Core where
  disk : Nat → Block
  block : List Nat
  up : Bool
  unpinned : Nat
  atCommit : Nat → Block
  base : Nat → Block
  group : List Nat
  headed : Bool

def core (s : Kernel A) : Core :=
  ⟨s.disk, s.log.block, s.up, s.unpinned, s.atCommit, s.base, s.group, s.headed⟩

structure Rely (p : Pid) (s s' : Kernel A) : Prop where
  bio : s.bio.Rely p s'.bio
  inOp : p ∈ s'.inOp ↔ p ∈ s.inOp
  committer : s'.committer = some p ↔ s.committer = some p
  up : s.up = true → s'.up = true
  core : s.committer = some p → s'.core = s.core
  left : ∀ i, (s.buf i).owner = some p → s'.left (s.buf i).blockno = s.left (s.buf i).blockno

namespace Rely

theorem refl (p : Pid) (s : Kernel A) : Rely p s s :=
  ⟨.refl p s.bio, .rfl, .rfl, id, fun _ => rfl, fun _ _ => rfl⟩

theorem trans {s₁ s₂ s₃ : Kernel A} (h : Rely p s₁ s₂) (h' : Rely p s₂ s₃) : Rely p s₁ s₃ where
  bio := h.bio.trans h'.bio
  inOp := h'.inOp.trans h.inOp
  committer := h'.committer.trans h.committer
  up hu := h'.up (h.up hu)
  core hc := (h'.core (h.committer.2 hc)).trans (h.core hc)
  left i hi := by
    have h₂ := h'.left i ((h.bio.owner i).2 hi)
    have hb : (s₂.buf i).blockno = (s₁.buf i).blockno := (h.bio.held i hi).1.2
    rw [hb] at h₂
    exact h₂.trans (h.left i hi)

end Rely

/-! ## Operations on one buffer -/

/-- Nothing changed but the cache, the rest of the kernel and the history of released contents. -/
structure Same (s s' : Kernel A) : Prop where
  log : s'.log = s.log
  inOp : s'.inOp = s.inOp
  committer : s'.committer = s.committer
  core : s'.core = s.core

namespace Same

theorem disk (h : Same s s') : s'.disk = s.disk := congrArg Core.disk h.core

theorem up (h : Same s s') : s'.up = s.up := congrArg Core.up h.core

theorem unpinned (h : Same s s') : s'.unpinned = s.unpinned := congrArg Core.unpinned h.core

theorem atCommit (h : Same s s') : s'.atCommit = s.atCommit := congrArg Core.atCommit h.core

theorem spec (h : Same s s') : s'.spec = s.spec := by
  rw [Kernel.spec, show s'.headed = s.headed from congrArg Core.headed h.core,
    show s'.base = s.base from congrArg Core.base h.core, h.atCommit,
    show s'.group = s.group from congrArg Core.group h.core, Kernel.spec]

theorem pending (h : Same s s') : s'.pending = s.pending := by
  rw [Kernel.pending, Kernel.pending, h.log, h.up, h.unpinned]

theorem logInv (h : Same s s') (hl : LogInv sb s) : LogInv sb s' where
  size := by rw [h.log, hl.size]
  outstanding := by rw [h.log, h.inOp, hl.outstanding]
  committing := by rw [h.log, h.up, h.committer, hl.committing]
  exclusive := by rw [h.committer, h.inOp]; exact hl.exclusive
  boot := by rw [h.up, h.committer, h.unpinned]; exact hl.boot
  unpinned := by rw [h.unpinned, h.log, h.committer]; exact hl.unpinned
  lh := by rw [h.log]; exact hl.lh
  header := by rw [h.disk]; exact hl.header
  quiet := by rw [h.committer, h.disk]; exact hl.quiet
  recovered := by rw [h.disk, h.spec]; exact hl.recovered

end Same

theorem BufInv.congr (h : BufInv sb s j) (same : Same s s') (hbuf : s'.buf j = s.buf j)
    (refs : s'.bio.refs j = s.bio.refs j) (pins : s'.bio.pins j = s.bio.pins j)
    (left : (s.buf j).dev = ROOTDEV → (s.buf j).owner = none →
      s'.left (s.buf j).blockno = s.left (s.buf j).blockno) : BufInv sb s' j where
  dev := by rw [hbuf, refs]; exact h.dev
  pins := by rw [hbuf, pins, same.pending]; exact h.pins
  left := by
    rw [hbuf]
    intro hd hv ho
    rw [left hd ho]
    exact h.left hd hv ho
  atCommit := by rw [hbuf, same.pending, same.atCommit, same.committer]; exact h.atCommit
  region := by rw [hbuf, same.disk, same.committer]; exact h.region

/-- A step that concerns the cached copy in buffer `i` only. -/
theorem Inv.of_ne (h : Inv sb s) (same : Same s s') (bio : s'.bio.Inv)
    (other : ∀ j, j ≠ i → s'.buf j = s.buf j ∧ s'.bio.refs j = s.bio.refs j ∧
      s'.bio.pins j = s.bio.pins j)
    (left : ∀ j, j ≠ i → (s.buf j).dev = ROOTDEV →
      s'.left (s.buf j).blockno = s.left (s.buf j).blockno)
    (buf : BufInv sb s' i)
    (cached : (s.buf i).dev = ROOTDEV → (s.buf i).blockno ∈ s.pending → (s.buf i).valid →
      s'.Caches i (s.buf i).blockno ∧ (s'.buf i).valid) : Inv sb s' := by
  refine ⟨bio, same.logInv h.log, fun j => ?_, fun b hb => ?_⟩
  · by_cases hj : j = i
    · subst hj; exact buf
    · obtain ⟨hbuf, hrefs, hpins⟩ := other j hj
      exact (h.buf j).congr same hbuf hrefs hpins fun hd _ => left j hj hd
  · rw [same.pending] at hb
    obtain ⟨j, ⟨hd, hj⟩, hv⟩ := h.cached b hb
    by_cases hji : j = i
    · subst hji; subst hj; exact ⟨j, cached hd hb hv⟩
    · refine ⟨j, ?_, ?_⟩
      · rw [Caches, (other j hji).1]; exact ⟨hd, hj⟩
      · rw [(other j hji).1]; exact hv

theorem Inv.blockno_ne (h : Inv sb s) (hij : i ≠ j) (hi : (s.buf i).dev = ROOTDEV)
    (hj : (s.buf j).dev = ROOTDEV) : (s.buf i).blockno ≠ (s.buf j).blockno := fun hb =>
  hij (h.bio.wf.unique i j (by rw [show (s.bio.cache.buf i).dev = ROOTDEV from hi]; decide)
    (hi.trans hj.symm) hb)

theorem Inv.eq_of_caches (h : Inv sb s) (hi : s.Caches i b) (hj : s.Caches j b) : i = j := by
  by_contra hij
  exact h.blockno_ne hij hi.1 hj.1 (hi.2.trans hj.2.symm)

/-- The block whose pin `install_trans` drops next. -/
theorem mem_pending (hup : s.up = true) (hb : s.log.block[s.unpinned]? = some b) :
    b ∈ s.pending := by
  rw [pending, if_pos hup]
  refine mem_of_getElem? (i := 0) ?_
  rw [getElem?_drop]
  exact hb

theorem Inv.pins_of_caches (h : Inv sb s) (hb : b ∈ s.pending) (hi : s.Caches i b) :
    s.bio.pins i = 1 := by
  rw [(h.buf i).pins, if_pos ⟨hi.1, hi.2 ▸ hb⟩]

/-- The copy of a block whose pin is not dropped is valid. -/
theorem Inv.valid_of_pending (h : Inv sb s) (hd : (s.buf i).dev = ROOTDEV)
    (hb : (s.buf i).blockno ∈ s.pending) : (s.buf i).valid := by
  obtain ⟨j, hj, hv⟩ := h.cached _ hb
  rwa [h.eq_of_caches (i := i) ⟨hd, rfl⟩ hj]

theorem Inv.dev_of_owner (h : Inv sb s) (ho : (s.buf i).owner = some p) :
    (s.buf i).dev = ROOTDEV :=
  (h.buf i).dev (ne_nil_of_mem (h.bio.owner i p ho))

/-- The buffer `i` replaced by another copy of the same block. -/
theorem Inv.set (h : Inv sb s) {x : Buf} (left : Nat → Block)
    (bio : (s.bio.set i x).Inv) (hd : x.dev = (s.buf i).dev) (hb : x.blockno = (s.buf i).blockno)
    (hv : (s.buf i).valid → x.valid)
    (hleft : ∀ j, j ≠ i → (s.buf j).dev = ROOTDEV →
      left (s.buf j).blockno = s.left (s.buf j).blockno)
    (self : x.dev = ROOTDEV → x.valid → x.owner = none → x.data = left x.blockno)
    (atCommit : s.committer ≠ none → x.dev = ROOTDEV → x.blockno ∈ s.pending →
      x.data = s.atCommit x.blockno)
    (region : x.dev = ROOTDEV → x.valid → sb.InLog x.blockno → x.data ≠ s.disk x.blockno →
      x.owner ≠ none ∧ x.owner = s.committer) :
    Inv sb { s with bio := s.bio.set i x, left } := by
  have hbuf : Bio.buf (s.bio.set i x) i = x := Bio.buf_set_self ..
  refine h.of_ne (i := i) ⟨rfl, rfl, rfl, rfl⟩ bio
    (fun j hj => ⟨Bio.buf_set_of_ne _ hj _, rfl, rfl⟩) hleft ⟨?_, ?_, ?_, ?_, ?_⟩ ?_
  · rw [Kernel.buf, hbuf, hd]; exact (h.buf i).dev
  · rw [Kernel.buf, hbuf, hd, hb]; exact (h.buf i).pins
  · rw [Kernel.buf, hbuf]; exact self
  · rw [Kernel.buf, hbuf]; exact atCommit
  · rw [Kernel.buf, hbuf]; exact region
  · intro hdev _ hvalid
    rw [Caches, Kernel.buf, hbuf]
    exact ⟨⟨hd.trans hdev, hb⟩, hv hvalid⟩

theorem Inv.acquiresleep (h : Inv sb s) (bio : (s.bio.set i { s.buf i with owner := some p }).Inv)
    (free : (s.buf i).owner = none) :
    Inv sb { s with bio := s.bio.set i { s.buf i with owner := some p } } := by
  refine h.set s.left bio rfl rfl id (fun _ _ _ => rfl) (fun _ _ ho => nomatch ho)
    (h.buf i).atCommit fun hd hv hl hne => ?_
  exact absurd free ((h.buf i).region hd hv hl hne).1

theorem Inv.load (h : Inv sb s) (hv : (s.buf i).valid = false) (ho : (s.buf i).owner = some p)
    (bio : (s.bio.set i { s.buf i with data := s.disk (s.buf i).blockno, valid := true }).Inv) :
    Inv sb { s with
      bio := s.bio.set i { s.buf i with data := s.disk (s.buf i).blockno, valid := true } } := by
  refine h.set s.left bio rfl rfl (fun _ => rfl) (fun _ _ _ => rfl) (fun _ _ hn => ?_) ?_ ?_
  · rw [show (s.buf i).owner = none from hn] at ho
    cases ho
  · intro _ hd hb
    rw [h.valid_of_pending hd hb] at hv
    cases hv
  · exact fun _ _ _ hne => absurd rfl hne

variable {d : Block}

theorem Inv.setData (h : Inv sb s) (ho : (s.buf i).owner = some p)
    (bio : (s.bio.set i { s.buf i with data := d }).Inv)
    (atCommit : s.committer ≠ none → (s.buf i).blockno ∈ s.pending →
      d = s.atCommit (s.buf i).blockno)
    (region : sb.InLog (s.buf i).blockno → s.committer = some p) :
    Inv sb { s with bio := s.bio.set i { s.buf i with data := d } } := by
  refine h.set s.left bio rfl rfl id (fun _ _ _ => rfl) (fun _ _ hn => ?_)
    (fun hc _ hb => atCommit hc hb) (fun _ _ hl _ => ?_)
  · rw [show (s.buf i).owner = none from hn] at ho
    cases ho
  · exact ⟨by simp [ho], by rw [region hl]; exact ho⟩

theorem Inv.releasesleep (h : Inv sb s) (ho : (s.buf i).owner = some p)
    (bio : (s.bio.set i { s.buf i with owner := none }).Inv)
    (clean : s.committer = some p → sb.InLog (s.buf i).blockno →
      (s.buf i).data = s.disk (s.buf i).blockno) :
    Inv sb { s with
      bio := s.bio.set i { s.buf i with owner := none }
      left := update s.left (s.buf i).blockno (s.buf i).data } := by
  have hdev := h.dev_of_owner ho
  refine h.set _ bio rfl rfl id (fun j hj hd => ?_) (fun _ _ _ => ?_) (h.buf i).atCommit ?_
  · rw [update_of_ne (h.blockno_ne hj hd hdev)]
  · simp only [update_self]
  · intro hd hv hl hne
    obtain ⟨-, hc⟩ := (h.buf i).region hd hv hl hne
    exact absurd (clean (hc.symm.trans ho) hl) hne

variable {refs : BufId → List Pid}

theorem Inv.recount (h : Inv sb s) {c : Bcache} {n : Nat}
    (bio : ({ s.bio with cache := c, refs } : Bio).Inv)
    (self : c.buf i = { s.buf i with refcnt := n }) (other : ∀ j, j ≠ i → c.buf j = s.buf j)
    (hrefs : ∀ j, j ≠ i → refs j = s.bio.refs j) (dev : refs i ≠ [] → (s.buf i).dev = ROOTDEV) :
    Inv sb { s with bio := { s.bio with cache := c, refs } } := by
  have hbuf : Bio.buf { s.bio with cache := c, refs } i = { s.buf i with refcnt := n } := self
  refine h.of_ne (i := i) ⟨rfl, rfl, rfl, rfl⟩ bio (fun j hj => ⟨other j hj, hrefs j hj, rfl⟩)
    (fun _ _ _ => rfl) ⟨?_, ?_, ?_, ?_, ?_⟩ ?_
  · rw [Kernel.buf, hbuf]; exact dev
  · rw [Kernel.buf, hbuf]; exact (h.buf i).pins
  · rw [Kernel.buf, hbuf]; exact (h.buf i).left
  · rw [Kernel.buf, hbuf]; exact (h.buf i).atCommit
  · rw [Kernel.buf, hbuf]; exact (h.buf i).region
  · intro hd _ hv
    rw [Caches, Kernel.buf, hbuf]
    exact ⟨⟨hd, rfl⟩, hv⟩

theorem Inv.unref (h : Inv sb s)
    (bio : ({ s.bio with cache := s.bio.cache.unref i, refs } : Bio).Inv)
    (hrefs : ∀ j, j ≠ i → refs j = s.bio.refs j) (hi : refs i ≠ [] → s.bio.refs i ≠ []) :
    Inv sb { s with bio := { s.bio with cache := s.bio.cache.unref i, refs } } :=
  h.recount bio (by rw [Bcache.unref_buf, Bcache.buf_set_self]; rfl)
    (fun j hj => by rw [Bcache.unref_buf, Bcache.buf_set_of_ne _ hj]; rfl) hrefs fun hr =>
      (h.buf i).dev (hi hr)

theorem Inv.bget (h : Inv sb s) {c : Bcache}
    (hb : s.bio.cache.bget ROOTDEV b = .ok (i, c))
    (bio : ({ s.bio with cache := c, refs } : Bio).Inv)
    (hrefs : ∀ j, j ≠ i → refs j = s.bio.refs j) :
    Inv sb { s with bio := { s.bio with cache := c, refs } } := by
  cases h.bio.wf.bget_cases hb with
  | hit hdev hblockno state =>
    exact h.recount bio (by rw [state, Bcache.buf_set_self]; rfl)
      (fun j hj => by rw [state, Bcache.buf_set_of_ne _ hj]; rfl) hrefs fun _ => hdev
  | recycle miss unused state =>
    have hbuf : Bio.buf { s.bio with cache := c, refs } i =
        { s.buf i with dev := ROOTDEV, blockno := b, valid := false, refcnt := 1 } := by
      rw [Bio.buf, state, Bcache.buf_set_self]; rfl
    have hpins : s.bio.pins i = 0 := by
      have := h.bio.refcnt i
      rw [show (s.bio.buf i).refcnt = 0 from unused] at this
      omega
    -- a block that is pinned is cached, so the block just fetched is not
    have hb' : b ∉ s.pending := fun hp => by
      obtain ⟨j, ⟨hd, hj⟩, -⟩ := h.cached b hp
      exact miss j hd hj
    refine h.of_ne (i := i) ⟨rfl, rfl, rfl, rfl⟩ bio
      (fun j hj =>
        ⟨by rw [Kernel.buf, Bio.buf, state, Bcache.buf_set_of_ne _ hj]; rfl, hrefs j hj, rfl⟩)
      (fun _ _ _ => rfl) ⟨?_, ?_, ?_, ?_, ?_⟩ ?_
    · rw [Kernel.buf, hbuf]; exact fun _ => rfl
    · rw [Kernel.buf, hbuf, if_neg fun hc => hb' hc.2]; exact hpins
    · rw [Kernel.buf, hbuf]; simp
    · rw [Kernel.buf, hbuf]; exact fun _ _ hp => absurd hp hb'
    · rw [Kernel.buf, hbuf]; simp
    · intro hd hp _
      have := (h.buf i).pins
      rw [if_pos ⟨hd, hp⟩, hpins] at this
      cases this

/-! ## Operations on the log -/

theorem Inv.of_bufs (h : Inv sb s) (bio : s'.bio.Inv) (log : LogInv sb s')
    (buf : ∀ j, ∃ n, s'.buf j = { s.buf j with refcnt := n })
    (refs : s'.bio.refs = s.bio.refs) (left : s'.left = s.left) (disk : s'.disk = s.disk)
    (pins : ∀ j, s'.bio.pins j =
      if (s.buf j).dev = ROOTDEV ∧ (s.buf j).blockno ∈ s'.pending then 1 else 0)
    (atCommit : s'.committer ≠ none → ∀ j, (s.buf j).dev = ROOTDEV →
      (s.buf j).blockno ∈ s'.pending → (s.buf j).data = s'.atCommit (s.buf j).blockno)
    (region : ∀ j, (s.buf j).owner ≠ none → (s.buf j).owner = s.committer →
      (s.buf j).dev = ROOTDEV → sb.InLog (s.buf j).blockno →
      (s.buf j).data ≠ s.disk (s.buf j).blockno → (s.buf j).owner = s'.committer)
    (cached : ∀ b ∈ s'.pending, ∃ j, s.Caches j b ∧ (s.buf j).valid) : Inv sb s' := by
  refine ⟨bio, log, fun j => ?_, fun b hb => ?_⟩
  · obtain ⟨n, hn⟩ := buf j
    refine ⟨?_, ?_, ?_, ?_, ?_⟩
    · rw [refs, hn]; exact (h.buf j).dev
    · rw [hn]; exact pins j
    · rw [hn, left]; exact (h.buf j).left
    · rw [hn]; exact fun hc => atCommit hc j
    · rw [hn, disk]
      intro hd hv hl hne
      obtain ⟨ho, hc⟩ := (h.buf j).region hd hv hl hne
      exact ⟨ho, region j ho hc hd hl hne⟩
  · obtain ⟨j, hj, hv⟩ := cached b hb
    obtain ⟨n, hn⟩ := buf j
    refine ⟨j, ?_, ?_⟩
    · rw [Caches, hn]; exact hj
    · rw [hn]; exact hv

theorem LogInv.up_of_none (h : LogInv sb s) (hc : s.committer = none) : s.up = true := by
  by_contra hup
  exact (h.boot (by simpa using hup)).1 hc

theorem LogInv.pending_of_none (h : LogInv sb s) (hc : s.committer = none) :
    s.pending = s.log.block := by
  rw [pending, if_pos (h.up_of_none hc), h.unpinned.2 hc, drop_zero]

theorem LogInv.not_pending (h : LogInv sb s) (hb : sb.InLog b) : b ∉ s.pending := by
  unfold pending
  split
  · exact fun hm => (h.lh.home b (mem_of_mem_drop hm)).1 hb
  · exact not_mem_nil

variable {l : List Nat}

theorem Header.append (h : Header sb l) (hn : l.length < LOGSIZE)
    (hn' : l.length < sb.nlog - 1) (hb : b ∉ l) (home : ¬sb.InLog b ∧ b < 2 ^ 32) :
    Header sb (l ++ [b]) where
  nodup := h.nodup.append (nodup_singleton b) (by simpa using hb)
  length := by rw [length_append, length_singleton]; omega
  home c hc := by
    rcases List.mem_append.1 hc with hc | hc
    · exact h.home c hc
    · rw [List.mem_singleton.1 hc]; exact home

theorem Inv.pass (h : Inv sb s) (passed : List Nat) : Inv sb { s with passed } :=
  ⟨h.bio, { h.log with }, fun i => { h.buf i with }, h.cached⟩

variable {log : Log}

/-- `log_write` of a block that is not in the header yet. -/
theorem Inv.logWrite (h : Inv sb s) (hc : s.committer = none)
    (hw : s.log.write (s.buf i).blockno = .ok (log, true)) (hd : (s.buf i).dev = ROOTDEV)
    (hv : (s.buf i).valid) (home : ¬sb.InLog (s.buf i).blockno ∧ (s.buf i).blockno < 2 ^ 32) :
    Inv sb { s with
      log
      bio := { s.bio with
        cache := s.bio.cache.bpin i, pins := update s.bio.pins i (s.bio.pins i + 1) } } := by
  obtain ⟨hn₁, hn₂, -, ⟨-, -, hf⟩ | ⟨hnew, rfl, -⟩⟩ := Log.write_ok hw
  · cases hf
  have hup := h.log.up_of_none hc
  have hpend := h.log.pending_of_none hc
  have hunp := h.log.unpinned.2 hc
  have hpend' : ∀ {bio : Bio}, ({ s with
      log := { s.log with block := s.log.block ++ [(s.buf i).blockno] }, bio } : Kernel A).pending =
        s.log.block ++ [(s.buf i).blockno] := by
    intro bio
    rw [pending, if_pos hup]
    show drop s.unpinned _ = _
    rw [hunp, drop_zero]
  have hcnt : (s.bio.buf i).refcnt + 1 = (s.bio.refs i).length + (s.bio.pins i + 1) := by
    rw [h.bio.refcnt]; omega
  refine h.of_bufs (h.bio.pin hcnt).1 ?_ (fun j => ?_) rfl rfl rfl (fun j => ?_)
    (fun hn => absurd hc hn) (fun _ _ ho _ _ _ => ho) ?_
  · refine { h.log with
      unpinned := ⟨?_, h.log.unpinned.2⟩
      lh := h.log.lh.append hn₁ (by rw [← h.log.size]; exact hn₂) hnew home }
    rw [show _ = s.unpinned from rfl, hunp]
    exact Nat.zero_le _
  · by_cases hj : j = i
    · subst hj; exact ⟨_, Bcache.buf_set_self ..⟩
    · exact ⟨_, Bcache.buf_set_of_ne _ hj _⟩
  · rw [hpend']
    have hp := (h.buf j).pins
    rw [hpend] at hp
    by_cases hj : j = i
    · subst hj
      rw [if_neg fun hm => hnew hm.2] at hp
      rw [if_pos ⟨hd, by simp⟩]
      simp [hp]
    · show update s.bio.pins i _ j = _
      rw [update_of_ne hj, hp]
      congr 1
      simp only [List.mem_append, List.mem_singleton, eq_iff_iff, and_congr_right_iff]
      intro hdj
      simp [h.blockno_ne hj hdj hd]
  · rw [hpend']
    intro b hb
    rcases List.mem_append.1 hb with hb | hb
    · exact h.cached b (by rwa [hpend])
    · rw [List.mem_singleton.1 hb]; exact ⟨i, ⟨hd, rfl⟩, hv⟩

/-- `bunpin` of the block that `install_trans` just wrote home. -/
theorem Inv.bunpin (h : Inv sb s) (hup : s.up = true) (hc : s.committer ≠ none)
    (hi : s.Caches i b) (hb : s.log.block[s.unpinned]? = some b) :
    Inv sb { s with
      unpinned := s.unpinned + 1
      bio := { s.bio with
        cache := s.bio.cache.bunpin i, pins := update s.bio.pins i (s.bio.pins i - 1) } } := by
  obtain ⟨hlt, hget⟩ := List.getElem?_eq_some_iff.1 hb
  have hpend : s.pending = b :: s.log.block.drop (s.unpinned + 1) := by
    rw [pending, if_pos hup, List.drop_eq_getElem_cons hlt, hget]
  have hpend' : ∀ {bio : Bio}, ({ s with unpinned := s.unpinned + 1, bio } : Kernel A).pending =
      s.log.block.drop (s.unpinned + 1) := by
    intro bio
    rw [pending, if_pos hup]
  have hnd : b ∉ s.log.block.drop (s.unpinned + 1) := by
    have := h.log.lh.nodup.sublist (drop_sublist s.unpinned _)
    rw [drop_eq_getElem_cons hlt, hget] at this
    exact (nodup_cons.1 this).1
  have hpin : s.bio.pins i = 1 := by
    rw [(h.buf i).pins, if_pos ⟨hi.1, by rw [hi.2, hpend]; exact mem_cons_self⟩]
  have hcnt : (s.bio.buf i).refcnt - 1 = (s.bio.refs i).length + (s.bio.pins i - 1) := by
    rw [h.bio.refcnt]; omega
  refine h.of_bufs (h.bio.pin hcnt).1 ?_ (fun j => ?_) rfl rfl rfl (fun j => ?_)
    (fun hc j hd hj => ?_) (fun _ _ ho _ _ _ => ho) fun c hc => ?_
  · exact { h.log with
      boot := fun hu => absurd hup (by rw [show s.up = false from hu]; simp)
      unpinned := ⟨hlt, fun hn => absurd hn hc⟩ }
  · by_cases hj : j = i
    · subst hj; exact ⟨_, Bcache.buf_set_self ..⟩
    · exact ⟨_, Bcache.buf_set_of_ne _ hj _⟩
  · rw [hpend']
    by_cases hj : j = i
    · subst hj
      rw [if_neg fun hm => hnd (hi.2 ▸ hm.2)]
      simp [hpin]
    · show update s.bio.pins i _ j = _
      rw [update_of_ne hj, (h.buf j).pins, hpend]
      congr 1
      simp only [List.mem_cons, eq_iff_iff, and_congr_right_iff, or_iff_right_iff_imp]
      intro hdj hjb
      exact absurd (hjb.trans hi.2.symm) (h.blockno_ne hj hdj hi.1)
  · rw [hpend'] at hj
    exact (h.buf j).atCommit hc hd (by rw [hpend]; exact List.mem_cons_of_mem _ hj)
  · rw [hpend'] at hc
    exact h.cached c (by rw [hpend]; exact mem_cons_of_mem _ hc)

/-- A step that touches neither the buffers nor the disk nor the blocks with pins. -/
theorem Inv.of_log (h : Inv sb s) (hbio : s'.bio = s.bio) (log : LogInv sb s')
    (left : s'.left = s.left) (pending : s'.pending = s.pending)
    (atCommit : s'.committer ≠ none → ∀ j, (s.buf j).dev = ROOTDEV →
      (s.buf j).blockno ∈ s.pending → (s.buf j).data = s'.atCommit (s.buf j).blockno)
    (region : ∀ j, (s.buf j).owner ≠ none → (s.buf j).owner = s.committer →
      (s.buf j).dev = ROOTDEV → sb.InLog (s.buf j).blockno →
      (s.buf j).data ≠ s.disk (s.buf j).blockno → (s.buf j).owner = s'.committer) : Inv sb s' := by
  refine h.of_bufs (by rw [hbio]; exact h.bio) log
    (fun j => ⟨(s.buf j).refcnt, by rw [Kernel.buf, hbio]; rfl⟩) (by rw [hbio]) left
    (by rw [Kernel.disk, hbio]; rfl) (fun j => ?_) ?_ region ?_
  · rw [hbio, pending]; exact (h.buf j).pins
  · rw [pending]; exact atCommit
  · rw [pending]; exact h.cached

theorem Inv.beginOp (h : Inv sb s) (hup : s.up = true) (hp : p ∉ s.inOp)
    (hw : s.log.mustWait = false) :
    s.committer = none ∧ Inv sb { s with log := s.log.beginOp, inOp := insert p s.inOp } := by
  have hl := h.log
  have hc : s.committer = none := by
    by_contra hc
    have := hl.committing.2 ⟨hup, hc⟩
    simp [Log.mustWait, this] at hw
  refine ⟨hc, h.of_log rfl ?_ rfl rfl (fun hn => absurd hc hn) (fun _ _ ho _ _ _ => ho)⟩
  refine { hl with outstanding := ?_, exclusive := fun hn => absurd hc hn }
  rw [card_insert_of_notMem hp, ← hl.outstanding]
  rfl

theorem LogInv.none_of_inOp (h : LogInv sb s) (hp : p ∈ s.inOp) : s.committer = none := by
  by_contra hc
  rw [h.exclusive hc] at hp
  exact absurd hp (notMem_empty p)

/-- `end_op` of an operation that is not the last one. -/
theorem Inv.endOp (h : Inv sb s) (hp : p ∈ s.inOp) (he : s.log.endOp = .ok (log, false)) :
    Inv sb { s with log, inOp := s.inOp.erase p } := by
  have hl := h.log
  have hc := hl.none_of_inOp hp
  obtain ⟨hcm, -, rfl⟩ := Log.endOp_ok he
  refine h.of_log rfl ?_ rfl rfl (fun hn => absurd hc hn) (fun _ _ ho _ _ _ => ho)
  refine { hl with outstanding := ?_, committing := ?_, exclusive := fun hn => absurd hc hn }
  · rw [card_erase_of_mem hp, ← hl.outstanding]
  · exact ⟨fun hf => (nomatch hf), fun hn => absurd hc hn.2⟩

theorem Inv.contents_of_caches (h : Inv sb s) (hi : s.Caches i b) :
    s.contents b = (s.buf i).data := by
  unfold contents
  cases hf : (finRange NBUF).find? fun i => s.Caches i b with
  | none =>
    have := find?_eq_none.1 hf i (mem_finRange i)
    simp [hi] at this
  | some j =>
    have := find?_some hf
    rw [h.eq_of_caches hi (by simpa using this)]

/-- `end_op` of the last operation: the commit begins. -/
theorem Inv.endOp_commit (h : Inv sb s) (hp : p ∈ s.inOp)
    (he : s.log.endOp = .ok (log, true)) :
    Inv sb { s with
      log, inOp := s.inOp.erase p, committer := some p, atCommit := s.contents, base := s.spec
      group := s.log.block, headed := false } := by
  have hl := h.log
  have hc := hl.none_of_inOp hp
  have hup := hl.up_of_none hc
  obtain ⟨hcm, hlast, rfl⟩ := Log.endOp_ok he
  have hempty : s.inOp.erase p = ∅ := by
    rw [← card_eq_zero, card_erase_of_mem hp, ← hl.outstanding]
    simpa using hlast.symm
  refine h.of_log rfl ?_ rfl rfl (fun _ j hd hj => ?_) (fun j ho hn _ _ _ => ?_)
  · refine { hl with
      outstanding := ?_, committing := ?_, exclusive := fun _ => hempty, boot := fun hu => ?_
      unpinned := ⟨hl.unpinned.1, nofun⟩, quiet := nofun }
    · rw [card_erase_of_mem hp, ← hl.outstanding]
    · exact ⟨fun _ => ⟨hup, by simp⟩, fun _ => rfl⟩
    · rw [show s.up = false from hu] at hup; cases hup
  · exact (h.contents_of_caches ⟨hd, rfl⟩).symm
  · exact absurd (hn.trans hc) ho

/-- The committer holds no buffer of the log whose contents are not on disk. -/
def Tidy (sb : Superblock) (p : Pid) (s : Kernel A) : Prop :=
  ∀ i, (s.buf i).owner = some p → sb.InLog (s.buf i).blockno →
    (s.buf i).data = s.disk (s.buf i).blockno

theorem Inv.commitDone (h : Inv sb s) (hc : s.committer = some p) (hup : s.up = true)
    (hlh : s.log.block = []) (hd : onDisk sb s.disk = []) (ht : Tidy sb p s) :
    Inv sb { s with log := s.log.commitDone, committer := none } := by
  have hl := h.log
  refine h.of_log rfl ?_ rfl rfl (fun hn => absurd rfl hn) (fun j ho hn _ hlog hne => ?_)
  · refine { hl with
      committing := ⟨nofun, fun hn => absurd rfl hn.2⟩, exclusive := fun hn => absurd rfl hn
      boot := fun hu => ?_, unpinned := ⟨hl.unpinned.1, fun _ => ?_⟩, quiet := fun _ => hd }
    · rw [show s.up = false from hu] at hup; cases hup
    · have := hl.unpinned.1
      rw [Log.n, hlh] at this
      exact Nat.le_zero.1 this
  · exact absurd (ht j (hn.trans hc) hlog) hne

theorem Inv.initDone (h : Inv sb s) (hc : s.committer = some p) (hup : s.up = false)
    (hlh : s.log.block = []) (hd : onDisk sb s.disk = []) (ht : Tidy sb p s) :
    Inv sb { s with up := true, committer := none } := by
  have hl := h.log
  have hcm : s.log.committing = false := by
    by_contra hcm
    rw [Bool.not_eq_false, hl.committing, hup] at hcm
    exact absurd hcm.1 (by simp)
  refine h.of_log rfl ?_ rfl ?_ (fun hn => absurd rfl hn) (fun j ho hn _ hlog hne => ?_)
  · exact { hl with
      committing := ⟨fun hf => (nomatch hcm.symm.trans hf), fun hn => absurd rfl hn.2⟩
      exclusive := fun hn => absurd rfl hn, boot := nofun
      unpinned := ⟨hl.unpinned.1, fun _ => (hl.boot hup).2⟩, quiet := fun _ => hd }
  · simp [pending, hlh]
  · exact absurd (ht j (hn.trans hc) hlog) hne

/-- `log.lh` is read from disk, or emptied after `install_trans`. -/
theorem Inv.setLh (h : Inv sb s) {block : List Nat}
    (hb : Header sb block) (hup : s.up = true → block = [] ∧ s.unpinned = s.log.n) :
    Inv sb { s with log := { s.log with block }, unpinned := 0 } := by
  have hl := h.log
  have hpend : s.pending = [] := by
    unfold pending
    split
    · rename_i hu
      rw [(hup hu).2]
      exact drop_length
    · rfl
  have hpend' : ({ s with log := { s.log with block }, unpinned := 0 } : Kernel A).pending =
      [] := by
    unfold pending
    split
    · rename_i hu
      simp [(hup hu).1]
    · rfl
  refine h.of_log rfl ?_ rfl (hpend'.trans hpend.symm) (fun _ j _ hj => ?_) (fun _ _ ho _ _ _ => ho)
  · exact { hl with
      boot := fun hu => ⟨(hl.boot hu).1, rfl⟩, unpinned := ⟨Nat.zero_le _, fun _ => rfl⟩, lh := hb }
  · rw [hpend] at hj
    cases hj

/-! ## The header block -/

variable {k : Nat}

theorem u32_foldl_setU32 {o : Nat} (ho : o + 4 ≤ 4 + 4 * k ∨ 4 + 4 * (k + l.length) ≤ o)
    (ho' : o + 4 ≤ BSIZE) :
    ((l.zipIdx k).foldl (fun d x => d.setU32 (4 + 4 * x.2) x.1) d).u32 o = d.u32 o := by
  induction l generalizing d k with
  | nil => rfl
  | cons b l ih =>
    rw [zipIdx_cons, foldl_cons, ih (by rw [length_cons] at ho; omega)]
    exact Block.u32_setU32_of_disjoint ho' (by rw [length_cons] at ho; omega)

theorem u32_foldl_setU32_getElem {j : Nat} (hj : j < l.length)
    (hl : 4 + 4 * (k + l.length) ≤ BSIZE) (hb : ∀ b ∈ l, b < 2 ^ 32) :
    ((l.zipIdx k).foldl (fun d x => d.setU32 (4 + 4 * x.2) x.1) d).u32 (4 + 4 * (k + j)) =
      l[j] := by
  induction l generalizing d k j with
  | nil => cases hj
  | cons b l ih =>
    rw [length_cons] at hj hl
    rw [zipIdx_cons, foldl_cons]
    cases j with
    | zero =>
      rw [u32_foldl_setU32 (by omega) (by omega)]
      exact Block.u32_setU32_self (by omega) (hb b mem_cons_self)
    | succ j =>
      rw [show k + (j + 1) = k + 1 + j by omega, getElem_cons_succ]
      exact ih (by omega) (by omega) fun c hc => hb c (mem_cons_of_mem _ hc)

/-- What `write_head` stores, `read_head` reads back. -/
theorem headBlocks_putHead (d : Block) (hl : l.length ≤ LOGSIZE)
    (hb : ∀ b ∈ l, b < 2 ^ 32) : headBlocks (putHead d l) = l := by
  have hsize : 4 + 4 * (0 + l.length) ≤ BSIZE := by
    simp only [LOGSIZE, MAXOPBLOCKS, BSIZE] at hl ⊢
    omega
  have hn : (putHead d l).u32 0 = l.length := by
    rw [putHead, u32_foldl_setU32 (by omega) (by decide)]
    refine Block.u32_setU32_self (by decide) ?_
    simp only [LOGSIZE, MAXOPBLOCKS] at hl
    omega
  refine ext_getElem (by simp [headBlocks, hn]) fun j h₁ h₂ => ?_
  have := u32_foldl_setU32_getElem (d := d.setU32 0 l.length) (k := 0) h₂ hsize hb
  rw [Nat.zero_add] at this
  simpa [headBlocks, putHead] using this

/-! ## Writes to the disk -/

theorem Inv.bwrite (h : Inv sb s) {disk : Nat → Block} {headed : Bool} (hc : s.committer ≠ none)
    (ho : (s.buf i).owner = some p)
    (hdisk : disk = update s.disk (s.buf i).blockno (s.buf i).data)
    (header : Header sb (onDisk sb disk))
    (rec : ∀ b, ¬sb.InLog b → recView sb disk b = Kernel.spec { s with headed } b) :
    Inv sb { s with bio := { s.bio with disk }, headed } := by
  have hdev := h.dev_of_owner ho
  refine ⟨{ h.bio with }, ?_, fun j => ?_, h.cached⟩
  · exact { h.log with header, quiet := fun hn => absurd hn hc, recovered := rec }
  · refine { h.buf j with region := fun hd hv hlog hne => ?_ }
    change (s.buf j).data ≠ disk (s.buf j).blockno at hne
    by_cases hj : j = i
    · subst hj
      rw [hdisk, update_self] at hne
      exact absurd rfl hne
    · rw [hdisk, update_of_ne (h.blockno_ne hj hd hdev)] at hne
      exact (h.buf j).region hd hv hlog hne

section
variable {disk : Nat → Block} {d : Block} {tail : Nat}

theorem onDisk_update_of_ne (hb : b ≠ sb.logstart) :
    onDisk sb (update disk b d) = onDisk sb disk := by
  rw [onDisk, update_of_ne hb.symm, onDisk]

theorem onDisk_update_self : onDisk sb (update disk sb.logstart d) = headBlocks d := by
  rw [onDisk, update_self]

theorem inLog_logstart (hsb : 0 < sb.nlog) : sb.InLog sb.logstart := ⟨by omega, by omega⟩

theorem inLog_tail (ht : tail < sb.nlog - 1) : sb.InLog (sb.logstart + tail + 1) :=
  ⟨by omega, by omega⟩

variable {c : Nat}

/-- A write to a block of the log, while the header on disk is empty. -/
theorem recView_update_log (hd : onDisk sb disk = []) (hc : sb.InLog c)
    (hc' : c ≠ sb.logstart) (hb : ¬sb.InLog b) :
    recView sb (update disk c d) b = recView sb disk b := by
  have hbc : b ≠ c := by rintro rfl; exact hb hc
  rw [recView, recView, onDisk_update_of_ne hc', hd]
  simp only [not_mem_nil, if_false]
  rw [update_of_ne hbc]

theorem recView_update_head (hsb : 0 < sb.nlog) {base group : Nat → Block}
    (hd : onDisk sb disk = [])
    (hbase : ∀ b, ¬sb.InLog b → recView sb disk b = base b)
    (hgroup : ∀ k b, (headBlocks d)[k]? = some b → disk (sb.logstart + k + 1) = group b)
    (hb : ¬sb.InLog b) :
    recView sb (update disk sb.logstart d) b = overlay base group (headBlocks d) b := by
  have hbs : b ≠ sb.logstart := by rintro rfl; exact hb (inLog_logstart hsb)
  have := hbase b hb
  rw [recView, hd] at this
  rw [recView, onDisk_update_self, overlay]
  split
  · rename_i hm
    rw [update_of_ne (by omega)]
    exact hgroup _ b (getElem?_idxOf hm)
  · rw [update_of_ne hbs]
    simpa using this

/-- The write of a block of the header to its home. -/
theorem recView_update_install (hh : Header sb (onDisk sb disk)) (hsb : 0 < sb.nlog)
    (hc : c ∈ onDisk sb disk) (b : Nat) :
    recView sb (update disk c d) b = recView sb disk b := by
  have hcs : c ≠ sb.logstart := by rintro rfl; exact (hh.home _ hc).1 (inLog_logstart hsb)
  rw [recView, recView, onDisk_update_of_ne hcs]
  split
  · rename_i hm
    have hlt : (onDisk sb disk).idxOf b < sb.nlog - 1 :=
      (idxOf_lt_length_of_mem hm).trans_le hh.length.1
    rw [update_of_ne]
    rintro rfl
    exact (hh.home _ hc).1 (inLog_tail hlt)
  · rename_i hm
    have hbc : b ≠ c := by rintro rfl; exact hm hc
    rw [update_of_ne hbc]

/-- The write that empties the header, when all its blocks are home. -/
theorem recView_update_erase (hsb : 0 < sb.nlog) (hd : headBlocks d = [])
    (home : ∀ k b, (onDisk sb disk)[k]? = some b → disk b = disk (sb.logstart + k + 1))
    (hb : ¬sb.InLog b) :
    recView sb (update disk sb.logstart d) b = recView sb disk b := by
  have hbs : b ≠ sb.logstart := by rintro rfl; exact hb (inLog_logstart hsb)
  rw [recView, recView, onDisk_update_self, hd]
  simp only [not_mem_nil, if_false]
  rw [update_of_ne hbs]
  split
  · rename_i hm
    exact home _ b (getElem?_idxOf hm)
  · rfl

end

end Kernel

end Xv6
