import Xv6.Kernel.Recovery
import Xv6.Bio.Concurrent

/-!
# Pins and absorption

What `log_write`, `write_log` and `install_trans` rely on: the blocks in `log.lh.block` stay in the
cache until they are installed, by one pin each.
-/

namespace Xv6

open Lib List

namespace Kernel

variable {A : Aux} {sb : Superblock} {c : Config (kIface A) (Kernel A) Pid}

/-- What the pins and the log guarantee about each other. -/
structure PinLaw (sb : Superblock) (c : Config (kIface A) (Kernel A) Pid) : Prop where
  nodup : c.st.log.block.Nodup
  refcnt : ∀ i, (c.st.buf i).refcnt = (c.st.bio.refs i).length + c.st.bio.pins i
  -- one pin for each block that `install_trans` has not reached, and no other
  pinned : ∀ b ∈ c.st.pending, ∃ i, c.st.Caches i b ∧ c.st.bio.pins i = 1 ∧
    ∀ j, c.st.Caches j b → j = i
  unpinned : ∀ i, c.st.bio.pins i ≠ 0 → ∃ b ∈ c.st.pending, c.st.Caches i b
  -- such a block is not recycled
  kept : ∀ c', (system sb).Step c c' → ∀ b ∈ c.st.pending, ∀ i, c.st.Caches i b → c'.st.Caches i b
  -- `bread` in `write_log` finds it in the cache
  hit : ∀ {p tail b k i s'}, c.prog p = .call (.bio (.logFrom tail) (.bget ROOTDEV b)) k →
    exec p (.bio (.logFrom tail) (.bget ROOTDEV b)) c.st = .ok (i, s') →
    c.st.log.block[tail]? = some b ∧ c.st.Caches i b ∧ (c.st.buf i).valid ∧
      (s'.buf i).valid ∧ (s'.buf i).data = (c.st.buf i).data
  -- and what it copies is what the last holder left
  copied : ∀ {p tail i d k}, c.prog p = .call (.bio (.logCopy tail) (.setData i d)) k →
    ∃ b, c.st.log.block[tail]? = some b ∧ d = c.st.left b
  -- `install_trans` drops the pin of each block in turn
  dropped : ∀ {p site i k}, c.prog p = .call (.bio site (.bunpin i)) k →
    c.st.up = true ∧ c.st.bio.pins i = 1 ∧
      ∃ b, c.st.log.block[c.st.unpinned]? = some b ∧ c.st.Caches i b
  -- and none is left when `log.lh.n` is set to 0
  cleared : ∀ {p block k}, c.prog p = .call (.setLh block) k → c.st.up = true →
    block = [] ∧ c.st.unpinned = c.st.log.n ∧ ∀ i, c.st.bio.pins i = 0

variable {s s' : Kernel A} {p : Pid} {i : BufId} {b : Nat}

theorem Inv.caches_of_pins (h : Inv sb s) (hi : s.bio.pins i ≠ 0) :
    ∃ b ∈ s.pending, s.Caches i b := by
  rw [(h.buf i).pins] at hi
  split at hi
  · rename_i hc
    exact ⟨_, hc.2, hc.1, rfl⟩
  · exact absurd rfl hi

theorem Inv.caches_of_exec (h : Inv sb s) {o : KOp A} {r : o.Res} (he : exec p o s = .ok (r, s'))
    (hpin : s.bio.pins i ≠ 0) (hi : s.Caches i b) : s'.Caches i b := by
  have hr : 0 < (s.bio.buf i).refcnt := by
    have := h.bio.refcnt i
    omega
  have bio : ∀ {o : BioOp} {r : o.Res} {bio : Bio}, Bio.exec p o s.bio = .ok (r, bio) →
      (bio.buf i).dev = ROOTDEV ∧ (bio.buf i).blockno = b := fun he => by
    obtain ⟨hd, hb⟩ := h.bio.block_of_exec he hr
    exact ⟨hd.trans hi.1, hb.trans hi.2⟩
  cases o with
  | bio site o =>
    obtain ⟨bio', hb, rfl⟩ := exec_bio_ok he
    exact bio hb
  | logWrite j =>
    simp only [exec] at he
    split at he <;> cases he
    · exact hi
    · exact bio (show Bio.exec p (.bpin j) s.bio = .ok ((), _) from rfl)
  | beginOp | endOp | aux =>
    simp only [exec] at he
    split at he <;> cases he <;> exact hi
  | commitDone | lh | setLh | initDone => cases he; exact hi

theorem Inv.hit_of_pending (h : Inv sb s) {site : Site} (hb : b ∈ s.pending)
    (he : exec p (.bio site (.bget ROOTDEV b)) s = .ok (i, s')) :
    s.Caches i b ∧ (s.buf i).valid ∧ SameCopy (s'.buf i) (s.buf i) := by
  obtain ⟨j, hj, hv⟩ := h.cached b hb
  obtain ⟨bio, hbio, rfl⟩ := exec_bio_ok he
  simp only [Bio.exec] at hbio
  split at hbio
  · rename_i k c hc
    cases hbio
    cases h.bio.wf.bget_cases hc with
    | hit hdev hblockno state =>
      have hi : s.Caches i b := ⟨hdev, hblockno⟩
      obtain rfl := h.eq_of_caches hi hj
      refine ⟨hi, hv, ?_⟩
      show SameCopy (c.buf i) _
      rw [state, Bcache.buf_set_self]
      exact .rfl
    | recycle miss unused state => exact absurd hj.2 (miss j hj.1)
  · cases hbio

theorem pins_and_absorption (hsb : 0 < sb.nlog) {disk : Nat → Block} (hd : onDisk sb disk = [])
    {aux : A.St} (hr : Runs sb (start sb disk disk aux) c) : PinLaw sb c := by
  have good : c.Good (outline sb hsb) := good_of_empty hd hr
  have h : Inv sb c.st := good.inv
  refine ⟨h.log.lh.nodup, h.bio.refcnt, ?_, fun i => h.caches_of_pins, ?_, ?_, ?_, ?_, ?_⟩
  · intro b hb
    obtain ⟨i, hi, -⟩ := h.cached b hb
    exact ⟨i, hi, h.pins_of_caches hb hi, fun j hj => h.eq_of_caches hj hi⟩
  · intro c' hs b hb i hi
    cases hs with
    | op _ _ he => exact h.caches_of_exec he (by rw [h.pins_of_caches hb hi]; decide) hi
    | start => exact hi
    | env he => exact he.elim
  · intro p tail b k i s' next he
    obtain ⟨-, hup, hu, hb⟩ := good.pre next rfl
    have hmem : b ∈ c.st.pending := by
      rw [pending, if_pos hup, hu, drop_zero]
      exact mem_of_getElem? hb
    obtain ⟨hi, hv, hsame⟩ := h.hit_of_pending hmem he
    exact ⟨hb, hi, hv, hsame.2.2.1.trans hv, hsame.2.2.2.2⟩
  · intro p tail i d k next
    obtain ⟨-, -, -, -, hcopy⟩ := good.pre next trivial
    exact hcopy tail rfl
  · intro p site i k next
    have hpre := good.pre next (by cases site <;> trivial)
    obtain ⟨-, hup, -, -, b, hi, hb⟩ := sitePre_bunpin.1 hpre.2
    exact ⟨hup, h.pins_of_caches (mem_pending hup hb) hi, b, hb, hi⟩
  · intro p block k next hup
    obtain ⟨-, -, hclear⟩ := good.pre next trivial
    obtain ⟨hblock, hu⟩ := hclear hup
    refine ⟨hblock, hu, fun i => ?_⟩
    by_contra hpin
    obtain ⟨b, hb, -⟩ := h.caches_of_pins hpin
    rw [pending, if_pos hup, hu, Log.n, drop_length] at hb
    cases hb

/-- Process 1 is about to copy a block of sevens to the log. -/
def copiesSevens (c : Config (kIface .none) (Kernel .none) Pid) : Bool :=
  match c.prog 1 with
  | .call (.bio (.logCopy 0) (.setData _ d)) _ => d.get 0 = 7
  | _ => false

/-- A block that was logged twice in one operation, in `write_log`: it is in the log once, with one
pin, and the copy has what the second holder left. -/
theorem pins_and_absorption_sevens : ∃ c : Config (kIface .none) (Kernel .none) Pid,
    Runs .mkfs blank c ∧ c.st.passed = [46, 46] ∧ c.st.pending = [46] ∧
      (∃ i, c.st.Caches i 46 ∧ c.st.bio.pins i = 1) ∧ (c.st.left 46).get 0 = 7 ∧
      PinLaw .mkfs c := by
  obtain ⟨c, hr, hc⟩ := runs_sevens (n := 25) (P := fun c => copiesSevens c &&
    decide (c.st.passed = [46, 46] ∧ c.st.pending = [46] ∧ c.st.log.block = [46]))
    (by decide +kernel)
  obtain ⟨hcopy, hc⟩ := Bool.and_eq_true_iff.1 hc
  obtain ⟨passed, pending, block⟩ := of_decide_eq_true hc
  have law : PinLaw .mkfs c := pins_and_absorption (by decide) rfl hr
  refine ⟨c, hr, passed, pending, ?_, ?_, law⟩
  · obtain ⟨i, hi, hpin, -⟩ := law.pinned 46 (by simp [pending])
    exact ⟨i, hi, hpin⟩
  · unfold copiesSevens at hcopy
    split at hcopy
    · rename_i next
      obtain ⟨b, hb, rfl⟩ := law.copied next
      rw [block] at hb
      cases hb
      exact of_decide_eq_true hcopy
    · cases hcopy

end Kernel

end Xv6
