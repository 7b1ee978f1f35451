import Xv6.Kernel.Commit

/-!
# `bread` and `brelse` that are not interrupted

What they do to the buffers when no other process runs.
-/

namespace Xv6

open Lib Function

namespace Kernel

variable {A : Aux} {sb : Superblock} {hsb : 0 < sb.nlog} {s s₀ s' : Kernel A} {p : Pid}
  {i : BufId} {b : Nat}

/-- The operations of `commit`. -/
def OfCommit : KOp A → Prop
  | .bio _ (.bget dev _) => dev = ROOTDEV
  | .bio .client (.setData ..) | .bio (.copyin _) (.setData ..) => False
  | .bio .. | .lh | .setLh _ => True
  | _ => False

theorem OfCommit.proper {o : KOp A} (h : OfCommit o) (s : Kernel A) : Proper sb p o s := by
  cases o with
  | bio site o => cases site <;> cases o <;> first | exact h | trivial
  | lh | setLh => trivial
  | logWrite | beginOp | endOp | commitDone | initDone | aux => exact h.elim

theorem bread_all {site : Site} : (bread site ROOTDEV b : Prog (kIface A) BufId).All OfCommit := by
  refine ⟨by cases site <;> rfl, fun i => ⟨?_, fun _ => ⟨?_, fun _ => trivial⟩⟩⟩ <;>
    cases site <;> trivial

theorem brelse_all {site : Site} : (brelse site i : Prog (kIface A) Unit).All OfCommit := by
  refine ⟨?_, fun _ => ⟨?_, fun _ => trivial⟩⟩ <;> cases site <;> trivial

/-! ## `bread` and `brelse` -/

variable {site : Site} {α : Type} {Q : α → Kernel A → Prop} {tol : Option Panic → Prop}

/-- A `bread` that is not interrupted: buffer `i` is now the locked copy of block `b`, either the
valid copy from before or what is on disk. -/
structure Bread (p : Pid) (b : Nat) (s : Kernel A) (i : BufId) (s' : Kernel A) : Prop where
  same : s' = { s with bio := { s.bio with cache := s'.bio.cache, refs := s'.bio.refs } }
  wf : s'.bio.cache.Wf
  other : ∀ j, j ≠ i → s'.buf j = s.buf j
  free : (s.buf i).owner = none
  owner : (s'.buf i).owner = some p
  caches : s'.Caches i b
  valid : (s'.buf i).valid
  copy : s.Caches i b ∧ (s.buf i).valid ∧ (s'.buf i).data = (s.buf i).data ∨
    (s'.buf i).data = s.disk b ∧ (s.Caches i b ∧ (s.buf i).valid = false ∨
      (∀ j, ¬s.Caches j b) ∧ (s.buf i).refcnt = 0)

theorem bread_got {k : BufId → Prog (kIface A) α} {c : Bcache} {refs : BufId → List Pid}
    (wf : s.bio.cache.Wf) (hc : s.bio.cache.bget ROOTDEV b = .ok (i, c))
    (waits : (s.Caches i b ∨ (s.buf i).refcnt = 0) → (s.buf i).owner ≠ none → tol none)
    (next : ∀ s', Bread p b s i s' → (k i).Wp (exec p) tol Q s') :
    ((op (.bio site (.acquiresleep i))).bind fun _ => (op (.bio site (.load i))).bind
      fun _ => k i).Wp
      (exec p) tol Q { s with bio := { s.bio with cache := c, refs } } := by
  have hrec : ∀ s : Kernel A, s.record site (.acquiresleep i) = s := fun _ => by cases site <;> rfl
  have hrec' : ∀ s : Kernel A, s.record site (.load i) = s := fun _ => by cases site <;> rfl
  have hcases := wf.bget_cases hc
  have howner : (c.buf i).owner = (s.buf i).owner := by
    cases hcases with
    | hit _ _ state | recycle _ _ state => rw [state, Bcache.buf_set_self]; rfl
  have hfind : s.Caches i b ∨ (s.buf i).refcnt = 0 := by
    cases hcases with
    | hit hd hb _ => exact .inl ⟨hd, hb⟩
    | recycle _ unused _ => exact .inr unused
  have hcaches : (c.buf i).dev = ROOTDEV ∧ (c.buf i).blockno = b := by
    cases hcases with
    | hit hd hb state => rw [state, Bcache.buf_set_self]; exact ⟨hd, hb⟩
    | recycle _ _ state => rw [state, Bcache.buf_set_self]; exact ⟨rfl, rfl⟩
  have hother : ∀ j, j ≠ i → c.buf j = s.buf j := fun j hj => by
    cases hcases with
    | hit _ _ state | recycle _ _ state => rw [state, Bcache.buf_set_of_ne _ hj]; rfl
  have hcopy : s.Caches i b ∧ (c.buf i).valid = (s.buf i).valid ∧ (c.buf i).data = (s.buf i).data ∨
      (c.buf i).valid = false ∧ (∀ j, ¬s.Caches j b) ∧ (s.buf i).refcnt = 0 := by
    cases hcases with
    | hit hd hb state => rw [state, Bcache.buf_set_self]; exact .inl ⟨⟨hd, hb⟩, rfl, rfl⟩
    | recycle miss unused state =>
      rw [state, Bcache.buf_set_self]
      exact .inr ⟨rfl, fun j hj => miss j hj.1 hj.2, unused⟩
  have hwf := wf.bget hc
  refine .call (fun _ s₁ he => ?_) (fun he => ?_) fun e he => ?_
  · obtain ⟨bio, hb, rfl⟩ := exec_bio_ok he
    clear he
    rw [hrec]
    simp only [Bio.exec] at hb
    split at hb <;> cases hb
    rename_i hfree
    have free : (s.buf i).owner = none := howner.symm.trans hfree
    refine .call (fun _ s₂ he => ?_) (fun he => ?_) fun e he => ?_
    · obtain ⟨bio, hb, rfl⟩ := exec_bio_ok he
      clear he
      rw [hrec']
      simp only [Bio.exec] at hb
      refine next _ ?_
      split at hb <;> rename_i hv <;> cases hb
      · simp only [Bio.set, Bio.buf, Bcache.buf_set_self] at hv
        refine ⟨rfl, hwf.set rfl rfl, fun j hj => ?_, free, ?_, ?_, ?_, .inl ?_⟩ <;>
          simp only [Caches, Kernel.buf, Bio.set, Bio.buf]
        · rw [Bcache.buf_set_of_ne _ hj]; exact hother j hj
        · rw [Bcache.buf_set_self]
        · rw [Bcache.buf_set_self]; exact hcaches
        · rw [Bcache.buf_set_self]; exact hv
        · rw [Bcache.buf_set_self]
          rcases hcopy with ⟨hi, hv', hd⟩ | ⟨hv', -⟩
          · exact ⟨hi, hv'.symm.trans hv, hd⟩
          · rw [hv'] at hv; cases hv
      · simp only [Bio.set, Bio.buf, Bcache.buf_set_self] at hv
        have hlock : (c.set i { c.buf i with owner := some p }).Wf := hwf.set rfl rfl
        have hwf' : ((c.set i { c.buf i with owner := some p }).set i { (c.set i { c.buf i with
            owner := some p }).buf i with
              data := s.bio.disk ((c.set i { c.buf i with owner := some p }).buf i).blockno
              valid := true }).Wf := hlock.set rfl rfl
        refine ⟨rfl, hwf', fun j hj => ?_, free, ?_, ?_, ?_, .inr ⟨?_, ?_⟩⟩ <;>
          simp only [Caches, Kernel.buf, Bio.set, Bio.buf]
        · rw [Bcache.buf_set_of_ne _ hj, Bcache.buf_set_of_ne _ hj]; exact hother j hj
        · rw [Bcache.buf_set_self, Bcache.buf_set_self]
        · rw [Bcache.buf_set_self, Bcache.buf_set_self]; exact hcaches
        · rw [Bcache.buf_set_self]
        · rw [Bcache.buf_set_self, Bcache.buf_set_self]
          show s.disk (c.buf i).blockno = _
          rw [hcaches.2]
        · rcases hcopy with ⟨hi, hv', -⟩ | ⟨-, h⟩
          · exact .inl ⟨hi, hv'.symm.trans (by simpa using hv)⟩
          · exact .inr h
    · change exec p (.bio site (.load i)) _ = .blocked at he
      simp only [exec, Bio.exec] at he
      split at he <;> rename_i he' <;> cases he
      split at he' <;> cases he'
    · change exec p (.bio site (.load i)) _ = .panic e at he
      simp only [exec, Bio.exec] at he
      split at he <;> rename_i he' <;> cases he
      split at he' <;> cases he'
  · change exec p (.bio site (.acquiresleep i)) _ = .blocked at he
    simp only [exec, Bio.exec] at he
    split at he <;> rename_i he' <;> cases he
    split at he' <;> cases he'
    rename_i hn
    exact waits hfind fun e => hn (howner.trans e)
  · change exec p (.bio site (.acquiresleep i)) _ = .panic e at he
    simp only [exec, Bio.exec] at he
    split at he <;> rename_i he' <;> cases he
    split at he' <;> cases he'

theorem bread_wp {k : BufId → Prog (kIface A) α} (wf : s.bio.cache.Wf)
    (waits : ∀ i, (s.Caches i b ∨ (s.buf i).refcnt = 0) → (s.buf i).owner ≠ none → tol none)
    (noBuffers : tol (some .bgetNoBuffers))
    (next : ∀ i s', Bread p b s i s' → (k i).Wp (exec p) tol Q s') :
    ((bread site ROOTDEV b).bind k).Wp (exec p) tol Q s := by
  refine .call (fun i s₁ he => ?_) (fun he => ?_) fun e he => ?_
  · obtain ⟨bio, hb, rfl⟩ := exec_bio_ok he
    have hrec : s.record site (.bget ROOTDEV b) = s := by cases site <;> rfl
    rw [hrec]
    clear he
    simp only [Bio.exec] at hb
    split at hb <;> cases hb
    rename_i c hc
    exact bread_got wf hc (waits i) (next i)
  · change exec p (.bio site (.bget ROOTDEV b)) s = .blocked at he
    simp only [exec, Bio.exec] at he
    split at he <;> rename_i he' <;> cases he
    split at he' <;> cases he'
  · change exec p (.bio site (.bget ROOTDEV b)) s = .panic e at he
    simp only [exec, Bio.exec] at he
    split at he <;> rename_i he' <;> cases he
    split at he' <;> cases he'
    rename_i hb
    rw [Bcache.bget_error hb]
    exact noBuffers

/-- A `brelse` that is not interrupted. -/
structure Brelse (s : Kernel A) (i : BufId) (s' : Kernel A) : Prop where
  same : s' = { s with
    bio := { s.bio with cache := s'.bio.cache, refs := s'.bio.refs }, left := s'.left }
  wf : s'.bio.cache.Wf
  other : ∀ j, j ≠ i → s'.buf j = s.buf j
  self : ∃ n, s'.buf i = { s.buf i with owner := none, refcnt := n }

theorem brelse_wp {k : Unit → Prog (kIface A) α} (wf : s.bio.cache.Wf)
    (ho : (s.buf i).owner = some p)
    (next : ∀ s', Brelse s i s' → (k ()).Wp (exec p) tol Q s') :
    ((brelse site i).bind k).Wp (exec p) tol Q s := by
  have hrec : s.record site (.releasesleep i) =
      { s with left := update s.left (s.buf i).blockno (s.buf i).data } := by
    cases site <;> rfl
  have hrec' : ∀ s : Kernel A, s.record site (.unref i) = s := fun _ => by cases site <;> rfl
  have hex : exec p (.bio site (.releasesleep i)) s = .ok ((), { s with
      bio := s.bio.set i { s.buf i with owner := none }
      left := update s.left (s.buf i).blockno (s.buf i).data }) := by
    simp only [exec, Bio.exec, hrec]
    rw [if_pos (show (s.bio.buf i).owner = some p from ho)]
    rfl
  refine .call (fun _ s₁ he => ?_) (fun he => absurd (hex.symm.trans he) (by simp)) fun e he =>
    absurd (hex.symm.trans he) (by simp)
  cases hex.symm.trans he
  refine next _ ⟨?_, ?_, ?_, ?_⟩
  · simp only [hrec']
    rfl
  · have hfree : (s.bio.cache.set i { s.buf i with owner := none }).Wf := wf.set rfl rfl
    exact hfree.unref i
  · intro j hj
    simp only [Kernel.buf, Bio.buf, Bcache.unref_buf, Bio.set]
    rw [Bcache.buf_set_of_ne _ hj, Bcache.buf_set_of_ne _ hj]
  · simp only [Kernel.buf, Bio.buf, Bcache.unref_buf, Bio.set]
    rw [Bcache.buf_set_self, Bcache.buf_set_self]
    exact ⟨_, rfl⟩

end Kernel

end Xv6
