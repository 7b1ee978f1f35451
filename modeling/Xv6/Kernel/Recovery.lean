import Xv6.Kernel.Commit

/-!
# Recovery runs to completion

Before `initlog` returns nobody but process 0 uses the buffer cache, so none of its operations has
to wait and `bget` always finds a buffer: recovery completes on any disk whose header is well
formed.
-/

namespace Xv6

open Lib Function List

namespace Bio

variable {s s' : Bio} {p : Pid} {i : BufId} {b : Nat} {R : List (BufId × Nat)} {O : List BufId}

/-- Nobody but `p` refers to a buffer. It refers to those in `R`, given with their blocks, and
holds those in `O`. -/
structure Alone (p : Pid) (R : List (BufId × Nat)) (O : List BufId) (s : Bio) : Prop where
  inv : s.Inv
  pins : ∀ i, s.pins i = 0
  refs : ∀ i, s.refs i = if i ∈ R.map Prod.fst then [p] else []
  owner : ∀ i, (s.buf i).owner = if i ∈ O then some p else none
  caches : ∀ x ∈ R, (s.buf x.1).dev = ROOTDEV ∧ (s.buf x.1).blockno = x.2

namespace Alone

theorem exists_unused (h : Alone p R O s) (hlen : R.length < NBUF) :
    ∃ j, (s.cache.buf j).refcnt = 0 := by
  by_contra! hused
  have hall : ∀ j, j ∈ R.map Prod.fst := fun j => by
    by_contra hj
    have hr := h.inv.refcnt j
    rw [h.refs j, if_neg hj, h.pins j] at hr
    exact hused j hr
  have := ((nodup_finRange NBUF).subperm fun j _ => hall j).length_le
  rw [length_finRange, length_map] at this
  omega

theorem bget (h : Alone p R O s) (hlen : R.length < NBUF) (hb : ∀ x ∈ R, x.2 ≠ b) :
    ∃ i s', Bio.exec p (.bget ROOTDEV b) s = .ok (i, s') ∧ i ∉ R.map Prod.fst ∧
      Alone p ((i, b) :: R) O s' := by
  obtain ⟨j, hj⟩ := h.exists_unused hlen
  obtain ⟨i, c, hget⟩ := h.inv.wf.bget_of_unused hj ROOTDEV b
  have hexec : Bio.exec p (.bget ROOTDEV b) s = .ok (i, { s with
      cache := c, refs := update s.refs i (p :: s.refs i) }) := by
    simp only [Bio.exec, hget]
  have hcases := h.inv.wf.bget_cases hget
  have hi : i ∉ R.map Prod.fst := fun hi => by
    have hused := h.inv.refcnt i
    rw [h.refs, if_pos hi] at hused
    obtain ⟨x, hx, rfl⟩ := mem_map.1 hi
    cases hcases with
    | hit hdev hblockno _ => exact hb x hx ((h.caches x hx).2.symm.trans hblockno)
    | recycle _ unused _ => exact absurd (hused.symm.trans unused) (by simp)
  have other : ∀ k, k ≠ i → c.buf k = s.buf k := fun k hk => by
    cases hcases with
    | hit _ _ state | recycle _ _ state => rw [state]; exact Bcache.buf_set_of_ne _ hk _
  have self : (c.buf i).owner = (s.buf i).owner ∧ (c.buf i).dev = ROOTDEV ∧
      (c.buf i).blockno = b := by
    cases hcases with
    | hit hdev hblockno state => rw [state, Bcache.buf_set_self]; exact ⟨rfl, hdev, hblockno⟩
    | recycle _ _ state => rw [state, Bcache.buf_set_self]; exact ⟨rfl, rfl, rfl⟩
  have hpre : Pre p (.bget ROOTDEV b) s := trivial
  refine ⟨i, _, hexec, hi, (h.inv.exec hpre hexec).1, h.pins, fun k => ?_, fun k => ?_,
    fun x hx => ?_⟩
  · show update s.refs i (p :: s.refs i) k = _
    by_cases hk : k = i
    · subst hk; simp [h.refs, hi]
    · rw [update_of_ne hk, h.refs]
      exact if_congr (by rw [map_cons, mem_cons, or_iff_right hk]) rfl rfl
  · show (c.buf k).owner = _
    by_cases hk : k = i
    · subst hk; rw [self.1, h.owner]
    · rw [other k hk, h.owner]
  · rcases mem_cons.1 hx with rfl | hx
    · exact self.2
    · have hxi : x.1 ≠ i := fun e => hi (e ▸ mem_map_of_mem hx)
      show (c.buf x.1).dev = ROOTDEV ∧ (c.buf x.1).blockno = x.2
      rw [other _ hxi]
      exact h.caches x hx

/-- An operation that changes buffer `i` in nothing but its owner, validity and data. -/
theorem set (h : Alone p R O s) {o : BioOp} {r : o.Res} {x : Buf} {O' : List BufId}
    (hexec : Bio.exec p o s = .ok (r, s.set i x)) (hp : Pre p o s)
    (hd : x.dev = (s.buf i).dev ∧ x.blockno = (s.buf i).blockno)
    (ho : x.owner = if i ∈ O' then some p else none) (hO : ∀ k, k ≠ i → (k ∈ O' ↔ k ∈ O)) :
    ∃ s', Bio.exec p o s = .ok (r, s') ∧ Alone p R O' s' := by
  refine ⟨_, hexec, (h.inv.exec hp hexec).1, h.pins, h.refs, fun k => ?_, fun y hy => ?_⟩
  · by_cases hk : k = i
    · subst hk; rw [Bio.buf_set_self, ho]
    · rw [Bio.buf_set_of_ne _ hk, h.owner]; simp only [hO k hk]
  · by_cases hk : y.1 = i
    · rw [hk, Bio.buf_set_self, hd.1, hd.2, ← hk]; exact h.caches y hy
    · rw [Bio.buf_set_of_ne _ hk]; exact h.caches y hy

theorem mem_refs (h : Alone p R O s) (hi : i ∈ R.map Prod.fst) : p ∈ s.refs i := by
  rw [h.refs, if_pos hi]
  exact mem_singleton_self p

theorem acquiresleep (h : Alone p R O s) (hi : i ∈ R.map Prod.fst) (hO : i ∉ O) :
    ∃ s', Bio.exec p (.acquiresleep i) s = .ok ((), s') ∧ Alone p R (i :: O) s' := by
  have ho : (s.buf i).owner = none := (h.owner i).trans (if_neg hO)
  refine h.set (i := i) (x := { s.buf i with owner := some p }) (if_pos ho)
    (h.mem_refs hi) ⟨rfl, rfl⟩
    (if_pos mem_cons_self).symm fun k hk => ?_
  rw [mem_cons, or_iff_right hk]

theorem load (h : Alone p R O s) (hi : i ∈ O) :
    ∃ s', Bio.exec p (.load i) s = .ok ((), s') ∧ Alone p R O s' := by
  by_cases hv : (s.buf i).valid
  · exact ⟨s, if_pos hv, h⟩
  · have ho : (s.buf i).owner = some p := (h.owner i).trans (if_pos hi)
    exact h.set (if_neg hv) ho ⟨rfl, rfl⟩ (h.owner i) fun _ _ => .rfl

theorem setData (h : Alone p R O s) (hi : i ∈ O) (d : Block) :
    ∃ s', Bio.exec p (.setData i d) s = .ok ((), s') ∧ Alone p R O s' :=
  h.set rfl ((h.owner i).trans (if_pos hi)) ⟨rfl, rfl⟩ (h.owner i) fun _ _ => .rfl

theorem bwrite (h : Alone p R O s) (hi : i ∈ O) :
    ∃ s', Bio.exec p (.bwrite i) s = .ok ((), s') ∧ Alone p R O s' := by
  have ho : (s.buf i).owner = some p := (h.owner i).trans (if_pos hi)
  exact ⟨_, if_pos ho, ⟨h.inv.wf, h.inv.refcnt, h.inv.owner⟩, h.pins, h.refs, h.owner, h.caches⟩

theorem releasesleep (h : Alone p R (i :: O) s) (hO : i ∉ O) :
    ∃ s', Bio.exec p (.releasesleep i) s = .ok ((), s') ∧ Alone p R O s' := by
  have ho : (s.buf i).owner = some p := (h.owner i).trans (if_pos mem_cons_self)
  refine h.set (x := { s.buf i with owner := none }) (if_pos ho) trivial ⟨rfl, rfl⟩ (if_neg hO).symm
    fun k hk => ?_
  rw [mem_cons, or_iff_right hk]

theorem unref (h : Alone p ((i, b) :: R) O s) (hi : i ∉ R.map Prod.fst) (hO : i ∉ O) :
    ∃ s', Bio.exec p (.unref i) s = .ok ((), s') ∧ Alone p R O s' := by
  have hr : s.refs i = [p] := (h.refs i).trans (if_pos mem_cons_self)
  have ho : (s.buf i).owner ≠ some p := by rw [h.owner, if_neg hO]; exact nofun
  have hbuf : ∀ k, ((s.cache.unref i).buf k).owner = (s.buf k).owner ∧
      ((s.cache.unref i).buf k).dev = (s.buf k).dev ∧
      ((s.cache.unref i).buf k).blockno = (s.buf k).blockno := fun k => by
    rw [Bcache.unref_buf]
    by_cases hk : k = i
    · subst hk; rw [Bcache.buf_set_self]; exact ⟨rfl, rfl, rfl⟩
    · rw [Bcache.buf_set_of_ne _ hk]; exact ⟨rfl, rfl, rfl⟩
  have hexec : Bio.exec p (.unref i) s = .ok ((), _) := rfl
  have hpre : Pre p (.unref i) s := ⟨h.mem_refs mem_cons_self, ho⟩
  refine ⟨_, hexec, (h.inv.exec hpre hexec).1, h.pins, fun k => ?_,
    fun k => (hbuf k).1.trans (h.owner k), fun x hx => ?_⟩
  · show update s.refs i ((s.refs i).erase p) k = _
    by_cases hk : k = i
    · subst hk; simp [hr, hi]
    · rw [update_of_ne hk, h.refs]
      exact if_congr (by rw [map_cons, mem_cons, or_iff_right hk]) rfl rfl
  · obtain ⟨hd, hb⟩ := h.caches x (mem_cons_of_mem _ hx)
    exact ⟨(hbuf x.1).2.1.trans hd, (hbuf x.1).2.2.trans hb⟩

end Alone

end Bio

namespace Kernel

variable {A : Aux} {sb : Superblock} {s s' : Kernel A} {p : Pid} {i : BufId} {b : Nat}
  {R : List (BufId × Nat)}

/-- A run of process `p` during recovery. -/
abbrev Recovery (sb : Superblock) (p : Pid) {α : Type} (x : Prog (kIface A) α)
    (s : Kernel A) (a : α) (s' : Kernel A) : Prop :=
  Solo (system sb) p (fun s => s.up = false) x s a s'

/-- Between its operations, process `p` holds the buffers in `R`, and nobody else uses any. -/
def Quiet (p : Pid) (R : List (BufId × Nat)) (s : Kernel A) : Prop :=
  s.up = false ∧ s.bio.Alone p R (R.map Prod.fst)

theorem Recovery.bio (sb : Superblock) (site : Site) {o : BioOp} {r : o.Res} {bio : Bio}
    (hup : s.up = false) (he : Bio.exec p o s.bio = .ok (r, bio))
    (hg : Proper sb p (.bio site o) s) :
    ∃ s', Recovery sb p (op (.bio site o)) s r s' ∧ s'.up = false ∧ s'.bio = bio := by
  refine ⟨{ s.record site o with bio }, .call hup hg ?_ (.ret ..),
    (s.record_eq site o).2.2.trans hup, rfl⟩
  show exec p (.bio site o) s = _
  simp only [exec, he]

theorem bread_run (site : Site) (h : Quiet p R s) (hlen : R.length < NBUF)
    (hb : ∀ x ∈ R, x.2 ≠ b) : ∃ i s', Recovery sb p (bread site ROOTDEV b) s i s' ∧
      i ∉ R.map Prod.fst ∧ Quiet p ((i, b) :: R) s' := by
  obtain ⟨hup, h⟩ := h
  obtain ⟨i, _, he, hi, h⟩ := h.bget hlen hb
  obtain ⟨s₁, h₁, hup, rfl⟩ := Recovery.bio sb site hup he (by cases site <;> rfl)
  obtain ⟨_, he, h⟩ := h.acquiresleep mem_cons_self hi
  obtain ⟨s₂, h₂, hup, rfl⟩ := Recovery.bio sb site hup he (by cases site <;> trivial)
  obtain ⟨_, he, h⟩ := h.load mem_cons_self
  obtain ⟨s₃, h₃, hup, rfl⟩ := Recovery.bio sb site hup he (by cases site <;> trivial)
  exact ⟨i, s₃, h₁.bind (h₂.bind (h₃.bind (.ret ..))), hi, hup, h⟩

theorem brelse_run (site : Site) (h : Quiet p ((i, b) :: R) s) (hi : i ∉ R.map Prod.fst) :
    ∃ s', Recovery sb p (brelse site i) s () s' ∧ Quiet p R s' := by
  obtain ⟨hup, h⟩ := h
  obtain ⟨_, he, h⟩ := h.releasesleep hi
  obtain ⟨s₁, h₁, hup, rfl⟩ := Recovery.bio sb site hup he (by cases site <;> trivial)
  obtain ⟨_, he, h⟩ := h.unref hi hi
  obtain ⟨s₂, h₂, hup, rfl⟩ := Recovery.bio sb site hup he (by cases site <;> trivial)
  exact ⟨s₂, h₁.bind h₂, hup, h⟩

theorem Quiet.swap {x y : BufId × Nat} (h : Quiet p (x :: y :: R) s) :
    Quiet p (y :: x :: R) s := by
  have hperm : List.Perm (x :: y :: R) (y :: x :: R) := .swap y x R
  obtain ⟨hup, h⟩ := h
  refine ⟨hup, h.inv, h.pins, fun k => (h.refs k).trans ?_, fun k => (h.owner k).trans ?_,
    fun z hz => h.caches z (hperm.mem_iff.2 hz)⟩
  · exact if_congr (hperm.map Prod.fst).mem_iff rfl rfl
  · exact if_congr (hperm.map Prod.fst).mem_iff rfl rfl

theorem lh_run (sb : Superblock) (h : Quiet p R s) : Recovery sb p (op .lh) s s.log.block s :=
  .call h.1 trivial rfl (.ret ..)

theorem setLh_run (sb : Superblock) (h : Quiet p R s) (block : List Nat) :
    ∃ s', Recovery sb p (op (.setLh block)) s () s' ∧ Quiet p R s' :=
  ⟨_, .call h.1 trivial rfl (.ret ..), h⟩

theorem data_run (h : Quiet p R s) (i : BufId) :
    ∃ d, Recovery sb p (op (.bio .log (.data i))) s d s :=
  ⟨_, .call h.1 trivial rfl (.ret ..)⟩

theorem setData_run (h : Quiet p R s) (hi : i ∈ R.map Prod.fst) (d : Block) :
    ∃ s', Recovery sb p (op (.bio .log (.setData i d))) s () s' ∧ Quiet p R s' := by
  obtain ⟨_, he, h'⟩ := h.2.setData hi d
  obtain ⟨s₁, h₁, hup, rfl⟩ := Recovery.bio sb .log h.1 he trivial
  exact ⟨s₁, h₁, hup, h'⟩

theorem bwrite_run (site : Site) (h : Quiet p R s) (hi : i ∈ R.map Prod.fst) :
    ∃ s', Recovery sb p (op (.bio site (.bwrite i))) s () s' ∧ Quiet p R s' := by
  obtain ⟨_, he, h'⟩ := h.2.bwrite hi
  obtain ⟨s₁, h₁, hup, rfl⟩ := Recovery.bio sb site h.1 he (by cases site <;> trivial)
  exact ⟨s₁, h₁, hup, h'⟩

theorem writeHead_run (sb : Superblock) (site : Site) (h : Quiet p [] s) :
    ∃ s', Recovery sb p (writeHead sb site) s () s' ∧ Quiet p [] s' := by
  obtain ⟨i, s₁, h₁, hi, h⟩ := bread_run .log h (by decide) fun _ hx => (nomatch hx)
  have h₂ := lh_run sb h
  obtain ⟨d, h₃⟩ := data_run h i
  obtain ⟨s₄, h₄, h⟩ := setData_run h mem_cons_self (putHead d s₁.log.block)
  obtain ⟨s₅, h₅, h⟩ := bwrite_run site h mem_cons_self
  obtain ⟨s₆, h₆, h⟩ := brelse_run .log h hi
  exact ⟨s₆, h₁.bind (h₂.bind (h₃.bind (h₄.bind (h₅.bind h₆)))), h⟩

theorem readHead_run (sb : Superblock) (h : Quiet p [] s) :
    ∃ s', Recovery sb p (readHead sb) s () s' ∧ Quiet p [] s' := by
  obtain ⟨i, s₁, h₁, hi, h⟩ := bread_run .log h (by decide) fun _ hx => (nomatch hx)
  obtain ⟨d, h₂⟩ := data_run h i
  obtain ⟨s₃, h₃, h⟩ := setLh_run sb h (headBlocks d)
  obtain ⟨s₄, h₄, h⟩ := brelse_run .log h hi
  exact ⟨s₄, h₁.bind (h₂.bind (h₃.bind h₄)), h⟩

theorem installTransFrom_run (tail : Nat) (block : List Nat) (h : Quiet p [] s)
    (hhome : ∀ b ∈ block, ¬sb.InLog b) (hlen : tail + block.length ≤ sb.nlog - 1) :
    ∃ s', Recovery sb p (installTransFrom sb true tail block) s () s' ∧ Quiet p [] s' := by
  induction block generalizing s tail with
  | nil => exact ⟨s, .ret .., h⟩
  | cons b block ih =>
    rw [length_cons] at hlen
    have hne : sb.logstart + tail + 1 ≠ b := by
      rintro rfl
      exact hhome _ mem_cons_self (inLog_tail (by omega))
    obtain ⟨i, s₁, h₁, -, h⟩ := bread_run (b := sb.logstart + tail + 1) .log h (by decide)
      fun _ hx => (nomatch hx)
    obtain ⟨j, s₂, h₂, hj, h⟩ := bread_run (b := b) .log h (by simp [NBUF, MAXOPBLOCKS])
      fun x hx => mem_singleton.1 hx ▸ hne
    obtain ⟨d, h₃⟩ := data_run h i
    obtain ⟨s₄, h₄, h⟩ := setData_run h mem_cons_self d
    obtain ⟨s₅, h₅, h⟩ := bwrite_run (.install tail) h mem_cons_self
    have hij : i ∉ [j] := fun hi => hj (mem_singleton.2 (mem_singleton.1 hi).symm)
    obtain ⟨s₆, h₆, h⟩ := brelse_run .log h.swap hij
    obtain ⟨s₇, h₇, h⟩ := brelse_run .log h not_mem_nil
    obtain ⟨s₈, h₈, h⟩ := ih (tail + 1) h (fun b hb => hhome b (mem_cons_of_mem _ hb))
      (by omega)
    exact ⟨s₈, h₁.bind (h₂.bind (h₃.bind (h₄.bind (h₅.bind (h₆.bind (h₇.bind h₈)))))), h⟩

/-- On a disk with a well-formed header, `initlog` returns. -/
theorem initlog_run (hsb : 0 < sb.nlog) {disk base : Nat → Block} (aux : A.St)
    (hh : Header sb (onDisk sb disk)) (hbase : ∀ b, ¬sb.InLog b → recView sb disk b = base b) :
    ∃ s', Recovery sb 0 (initlog sb) (boot sb disk base aux) () s' ∧ s'.up = true := by
  have h : Quiet 0 [] (boot sb disk base aux) :=
    ⟨rfl, .boot disk, fun _ => rfl, fun _ => rfl, fun _ => rfl, fun _ hx => (nomatch hx)⟩
  obtain ⟨s₁, h₁, h⟩ := readHead_run sb h
  have hA : At sb 0 (boot sb disk base aux).core [] [] (boot sb disk base aux) :=
    ⟨rfl, rfl, fun _ hx => (nomatch hx), fun i ho => nomatch ho⟩
  have hinv : Inv sb (boot sb disk base aux) := boot_inv hh hbase
  have hblock : s₁.log.block = onDisk sb disk := by
    obtain ⟨hA, -⟩ := h₁.safe (G := outline sb hsb) hinv (readHead_safe hA rfl hh)
    exact congrArg Core.block hA.core
  have h₂ := lh_run sb h
  obtain ⟨s₃, h₃, h⟩ := installTransFrom_run 0 s₁.log.block h
    (by rw [hblock]; exact fun b hb => (hh.home b hb).1)
    (by rw [hblock, Nat.zero_add]; exact hh.length.1)
  obtain ⟨s₄, h₄, h⟩ := setLh_run sb h []
  obtain ⟨s₅, h₅, h⟩ := writeHead_run sb .erase h
  have h₆ : Recovery sb 0 (op .initDone) s₅ () { s₅ with up := true, committer := none } :=
    .call h.1 trivial rfl (.ret ..)
  exact ⟨_, (h₁.bind ((h₂.bind h₃).bind (h₄.bind h₅))).bind h₆, rfl⟩

/-! ## Crash atomicity -/

/-- A crash in `c`, then recovery, with any number of crashes more before it completes. -/
def Recovers (sb : Superblock) (c c' : Config (kIface A) (Kernel A) Pid) : Prop :=
  ∃ c₀, Crash sb c c₀ ∧ Relation.ReflTransGen
    (fun c c' => c.st.up = false ∧ ((system sb).Step c c' ∨ Crash sb c c')) c₀ c' ∧ c'.st.up = true

theorem spec_record (s : Kernel A) (site : Site) (o : BioOp) :
    (s.record site o).spec = s.spec ∨ ∃ i, site = .head ∧ o = .bwrite i := by
  cases o with
  | bwrite i =>
    cases site with
    | head => exact .inr ⟨i, rfl, rfl⟩
    | client | copyin | log | logFrom | logCopy | logWrite | install | erase => exact .inl rfl
  | bget | acquiresleep | load | data | setData | releasesleep | unref | bpin | bunpin =>
    left; cases site <;> rfl

/-- Only the first `write_head` of a commit changes what recovery will leave. -/
theorem spec_exec {o : KOp A} {r : o.Res} (he : exec p o s = .ok (r, s')) :
    s'.spec = s.spec ∨ ∃ i, o = .bio .head (.bwrite i) := by
  cases o with
  | bio site o =>
    obtain ⟨bio, -, rfl⟩ := exec_bio_ok he
    rcases s.spec_record site o with h | ⟨i, rfl, rfl⟩
    · exact .inl h
    · exact .inr ⟨i, rfl⟩
  | logWrite | beginOp | endOp | aux =>
    left
    simp only [exec] at he
    split at he <;> cases he <;> rfl
  | commitDone | lh | setLh | initDone => left; cases he; rfl

theorem committer_exec {o : KOp A} {r : o.Res} (he : exec p o s = .ok (r, s'))
    (hup : s.up = false) (hup' : s'.up = true) : s'.committer = none := by
  have same : s'.up = s.up → s'.committer = none := fun e =>
    absurd (hup'.symm.trans (e.trans hup)) nofun
  cases o with
  | bio site o =>
    obtain ⟨bio, -, rfl⟩ := exec_bio_ok he
    exact same (s.record_eq site o).2.2
  | logWrite | beginOp | endOp | aux =>
    simp only [exec] at he
    split at he <;> cases he <;> exact same rfl
  | commitDone | lh | setLh => cases he; exact same rfl
  | initDone => cases he; rfl

section
variable {c c' : Config (kIface A) (Kernel A) Pid} {hsb : 0 < sb.nlog}

theorem recovery_step (h : c.Good (outline sb hsb)) (hup : c.st.up = false)
    (hs : (system sb).Step c c' ∨ Crash sb c c') :
    c'.st.spec = c.st.spec ∧ (c'.st.up = true → c'.st.committer = none) := by
  rcases hs with hs | hs
  · cases hs with
    | op next allowed he =>
      refine ⟨?_, committer_exec he hup⟩
      rcases spec_exec he with hspec | ⟨i, rfl⟩
      · exact hspec
      · have hpre := (sitePre_bwrite.1 (h.pre next allowed).2).2.1
        exact absurd (hup.symm.trans hpre.2.2.2.2.2.2) nofun
    | start _ call => exact absurd (hup.symm.trans call.1) nofun
    | env he => exact he.elim
  · cases hs
    exact ⟨rfl, nofun⟩

/-- What holds from a crash until recovery completes. -/
theorem recovered_of_recovers (h : c.Good (outline sb hsb)) (hc : Recovers sb c c') :
    c'.Good (outline sb hsb) ∧ c'.st.spec = c.st.spec ∧ c'.st.committer = none := by
  obtain ⟨c₀, hc, hr, hup⟩ := hc
  have h₀ := good_step h (.inr hc)
  have : c'.Good (outline sb hsb) ∧ c'.st.spec = c.st.spec ∧
      (c'.st.up = true → c'.st.committer = none) := by
    clear hup
    induction hr with
    | refl => cases hc; exact ⟨h₀, rfl, nofun⟩
    | tail _ hs ih =>
      obtain ⟨hspec, hcm⟩ := recovery_step ih.1 hs.1 hs.2
      exact ⟨good_step ih.1 hs.2, hspec.trans ih.2.1, hcm⟩
  exact ⟨this.1, this.2.1, this.2.2 hup⟩

theorem exists_recovers (h : c.Good (outline sb hsb)) (aux : A.St) : ∃ c', Recovers sb c c' := by
  have hl := h.inv.log
  obtain ⟨s', hrun, hup⟩ := initlog_run hsb aux hl.header hl.recovered
  let c₀ := start sb c.st.disk c.st.spec aux
  refine ⟨⟨s', update c₀.prog 0 (.ret ())⟩, c₀, .intro c aux, ?_, hup⟩
  have hprog : c₀.prog 0 = initlog sb := rfl
  refine (hrun.reaches hprog rfl).lift id fun c c' hs => ?_
  exact ⟨hs.1, .inl hs.2⟩

/-- A recovery is part of a run: what holds along runs holds after it, and it may crash again. -/
theorem Recovers.runs (h : Recovers sb c c') : Runs sb c c' := by
  obtain ⟨c₀, hc, hr, -⟩ := h
  exact .head (.inr hc) (hr.lift id fun _ _ hs => hs.2)

theorem crash_atomicity (hsb : 0 < sb.nlog) {disk : Nat → Block} (hd : onDisk sb disk = [])
    {aux : A.St} (hr : Runs sb (start sb disk disk aux) c) :
    (∃ c', Recovers sb c c') ∧ ∀ c', Recovers sb c c' → ∀ b, ¬sb.InLog b → c'.st.disk b =
      if c.st.headed then overlay c.st.base c.st.atCommit c.st.group b else c.st.base b := by
  have good : c.Good (outline sb hsb) := good_of_empty hd hr
  refine ⟨exists_recovers good aux, fun c' hc b hb => ?_⟩
  obtain ⟨good', hspec, hcm⟩ := recovered_of_recovers good hc
  have hl := good'.inv.log
  have hrec := hl.recovered b hb
  rw [recView, hl.quiet hcm, if_neg not_mem_nil, hspec, spec] at hrec
  rw [hrec]
  split <;> rfl

end

/-! ## A committed group -/

def fsCall (o : FsCall .none) : Prog (fsIface .none) o.Res := Prog.perform (E := fsIface .none) o

/-- One operation writes block `b` twice. -/
def writeTwice (b : Nat) (d d' : Block) : Prog (fsIface .none) Unit := do
  fsCall .beginOp
  let i ← fsCall (.bread ROOTDEV b)
  fsCall (.setData i d)
  fsCall (.logWrite i)
  fsCall (.brelse i)
  let i ← fsCall (.bread ROOTDEV b)
  fsCall (.setData i d')
  fsCall (.logWrite i)
  fsCall (.brelse i)
  fsCall .endOp

/-- An empty disk. -/
def blank : Config (kIface .none) (Kernel .none) Pid :=
  start .mkfs (fun _ => .zero) (fun _ => .zero) ()

/-- After `initlog`, process 1 fills block 46 with ones and then with sevens, and has executed `n`
operations so far. -/
def sevens (n : Nat) : List (Move (kIface .none) (Kernel .none) Pid) :=
  replicate 19 (.op 0) ++
    [.startIf Kernel.up 1 ((writeTwice 46 (.ofFn fun _ => 1) (.ofFn fun _ => 7)).interp
      (impl .mkfs))] ++
    replicate n (.op 1)

theorem runs_sevens {n : Nat} {P : Config (kIface .none) (Kernel .none) Pid → Bool}
    (h : ((sevens n).foldlM (Move.play exec fun p o s => decide (Proper .mkfs p o s)) blank).any P =
      true) :
    ∃ c, Runs .mkfs blank c ∧ P c = true := by
  obtain ⟨c, hc, hP⟩ := (Option.any_eq_true _ _).1 h
  have hlegal : ∀ m ∈ sevens n, m.Legal (system .mkfs) := by
    intro m hm
    simp only [sevens, mem_append, mem_singleton, mem_replicate] at hm
    rcases hm with (⟨-, rfl⟩ | rfl) | ⟨-, rfl⟩
    · trivial
    · exact fun s hup => ⟨hup, _, rfl⟩
    · trivial
  have hallow (p : Pid) (o : KOp .none) (s : Kernel .none)
      (h : decide (Proper .mkfs p o s) = true) :
      Proper .mkfs p o s :=
    of_decide_eq_true h
  have hr := Move.Legal.reaches hlegal hallow hc
  exact ⟨c, hr.lift id fun _ _ hs => .inl hs, hP⟩

/-- A crash right after the first `write_head` of the commit: the home block is still empty, and
recovery fills it with sevens. -/
theorem crash_atomicity_committed : ∃ c c' : Config (kIface .none) (Kernel .none) Pid,
    Runs .mkfs blank c ∧ c.st.headed = true ∧ (c.st.disk 46).get 0 = 0 ∧ Recovers .mkfs c c' ∧
      (c'.st.disk 46).get 0 = 7 := by
  obtain ⟨c, hr, hc⟩ := runs_sevens (n := 38) (P := fun c => decide (c.st.headed = true ∧
    c.st.group = [46] ∧ (c.st.disk 46).get 0 = 0 ∧ (c.st.atCommit 46).get 0 = 7))
    (by decide +kernel)
  obtain ⟨headed, group, home, seven⟩ := of_decide_eq_true hc
  obtain ⟨⟨c', hc'⟩, hdisk⟩ := crash_atomicity (by decide) rfl hr
  refine ⟨c, c', hr, headed, home, hc', ?_⟩
  rw [hdisk c' hc' 46 (by decide), if_pos headed, overlay, group, if_pos mem_cons_self]
  exact seven

end Kernel

end Xv6
