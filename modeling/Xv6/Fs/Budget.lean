import Xv6.Fs.Blank
import Xv6.Fs.Contents
import Mathlib.Algebra.Order.BigOperators.Group.Finset
import Mathlib.Data.Finset.Option
import Mathlib.Order.Interval.Finset.Nat

/-!
# The blocks that one operation logs

An operation reserves `MAXOPBLOCKS` blocks of the log. `filewrite` therefore writes at most three
blocks' worth of bytes in one operation: up to four blocks of data, of which the first one exists
already if the write begins inside it, with the bitmap blocks of the new ones, the indirect block
with its bitmap block, and the block of the inode. Whatever an operation writes, the image stays in
order (`writes_keep_image`).
-/

namespace Xv6

open Lib Kernel Finset

namespace Fs

variable {sb : Superblock} {p : Pid} {v v' : FsView} {out : Set Nat} {D D' : Nat →
  Dinode} {E : Set Nat}
  {b c n bn : Nat} {ip : IId}

/-- The indexes in `span`, as a finite set. -/
def spanFin (off N : Nat) : Finset Nat :=
  if N = 0 then ∅ else Finset.Icc (off / BSIZE) ((off + N - 1) / BSIZE)

variable {off N : Nat}

theorem mem_spanFin (h : bn ∈ span off N) : bn ∈ spanFin off N := by
  obtain ⟨j, hj, hlt, rfl⟩ := h
  have hN : N ≠ 0 := by omega
  rw [spanFin, if_neg hN, mem_Icc]
  exact ⟨Nat.div_le_div_right hj, Nat.div_le_div_right (by omega)⟩

/-- Three blocks' worth of bytes lie in at most four blocks, and in at most three if they begin at
the start of a block. -/
theorem spanFin_le (hN : N ≤ 3 * BSIZE) (h : bn ∈ spanFin off N) :
    off / BSIZE ≤ bn ∧ bn ≤ off / BSIZE + 3 ∧ (off % BSIZE = 0 → bn ≤ off / BSIZE + 2) := by
  unfold spanFin at h
  split at h
  · simp at h
  · rw [mem_Icc] at h
    simp only [BSIZE] at *
    omega

theorem card_spanFin (hN : N ≤ 3 * BSIZE) : (spanFin off N).card ≤ 4 := by
  have hsub : spanFin off N ⊆ Finset.Icc (off / BSIZE) (off / BSIZE + 3) := fun bn hbn => by
    have := spanFin_le hN hbn
    exact mem_Icc.2 ⟨this.1, this.2.1⟩
  refine (card_le_card hsub).trans ?_
  rw [Nat.card_Icc]
  omega

variable {r : Slot → Option Nat}

/-- At most three of the blocks are new: if the first byte is not the first one of its block, that
block is there. -/
theorem card_spanFin_new (hN : N ≤ 3 * BSIZE)
    (hfirst : off % BSIZE ≠ 0 → r (slotOf (off / BSIZE)) ≠ none) :
    ((spanFin off N).filter fun bn => r (slotOf bn) = none).card ≤ 3 := by
  by_cases hoff : off % BSIZE = 0
  · have hsub : (spanFin off N).filter (fun bn => r (slotOf bn) = none) ⊆
        Finset.Icc (off / BSIZE) (off / BSIZE + 2) := fun bn hbn => by
      have := spanFin_le hN (mem_filter.1 hbn).1
      exact mem_Icc.2 ⟨this.1, this.2.2 hoff⟩
    refine (card_le_card hsub).trans ?_
    rw [Nat.card_Icc]
    omega
  · have hsub : (spanFin off N).filter (fun bn => r (slotOf bn) = none) ⊆
        Finset.Icc (off / BSIZE + 1) (off / BSIZE + 3) := fun bn hbn => by
      obtain ⟨hbn, hnone⟩ := mem_filter.1 hbn
      have := spanFin_le hN hbn
      have hne : bn ≠ off / BSIZE := fun e => hfirst hoff (e ▸ hnone)
      exact mem_Icc.2 ⟨by omega, this.2.1⟩
    refine (card_le_card hsub).trans ?_
    rw [Nat.card_Icc]
    omega

/-- The blocks of a file that `writei` may log. -/
def budget (sb : Superblock) (off N : Nat) (r r' : Slot → Option Nat) (i : Nat) : Finset Nat :=
  (spanFin off N).biUnion (fun bn => (r' (slotOf bn)).toFinset) ∪
    ((spanFin off N).filter fun bn => r (slotOf bn) = none).biUnion
      (fun bn => ((r' (slotOf bn)).map sb.bblock).toFinset) ∪
    ((r' (.addr (Fin.last NDIRECT))).toFinset ∪
      ((r' (.addr (Fin.last NDIRECT))).map sb.bblock).toFinset) ∪ {i}

variable {i : Nat} {r' : Slot → Option Nat}

theorem mem_budget
    (h : c ∈ writeSet sb (span off N) r r' ∪ {i}) : c ∈ budget sb off N r r' i := by
  unfold budget
  rcases h with (⟨bn, hbn, b, hb, rfl | ⟨hnone, rfl⟩⟩ | ⟨b, hb, rfl | rfl⟩) | h
  · refine mem_union_left _ (mem_union_left _ (mem_union_left _ ?_))
    exact mem_biUnion.2 ⟨bn, mem_spanFin hbn, Option.mem_toFinset.2 hb⟩
  · refine mem_union_left _ (mem_union_left _ (mem_union_right _ ?_))
    refine mem_biUnion.2 ⟨bn, mem_filter.2 ⟨mem_spanFin hbn, hnone⟩, ?_⟩
    rw [hb]
    exact mem_singleton_self _
  · refine mem_union_left _ (mem_union_right _ (mem_union_left _ ?_))
    exact Option.mem_toFinset.2 hb
  · refine mem_union_left _ (mem_union_right _ (mem_union_right _ ?_))
    rw [hb]
    exact mem_singleton_self _
  · exact mem_union_right _ (mem_singleton.2 h)

theorem card_toFinset_le (o : Option Nat) : o.toFinset.card ≤ 1 := by
  cases o <;> simp

theorem card_biUnion_option_le (s : Finset Nat) (f : Nat → Option Nat) :
    (s.biUnion fun bn => (f bn).toFinset).card ≤ s.card := by
  have := card_biUnion_le_card_mul s (fun bn => (f bn).toFinset) 1 fun bn _ => card_toFinset_le _
  rwa [Nat.mul_one] at this

theorem card_budget (hN : N ≤ 3 * BSIZE)
    (hfirst : off % BSIZE ≠ 0 → r (slotOf (off / BSIZE)) ≠ none) :
    (budget sb off N r r' i).card ≤ MAXOPBLOCKS := by
  have hdata : ((spanFin off N).biUnion (fun bn => (r' (slotOf bn)).toFinset) ∪
      ((spanFin off N).filter fun bn => r (slotOf bn) = none).biUnion
        (fun bn => ((r' (slotOf bn)).map sb.bblock).toFinset)).card ≤ 4 + 3 := by
    refine (card_union_le ..).trans (Nat.add_le_add ?_ ?_)
    · exact (card_biUnion_option_le _ _).trans (card_spanFin hN)
    · exact (card_biUnion_option_le _ _).trans (card_spanFin_new hN hfirst)
  have hind : ((r' (.addr (Fin.last NDIRECT))).toFinset ∪
      ((r' (.addr (Fin.last NDIRECT))).map sb.bblock).toFinset).card ≤ 1 + 1 :=
    (card_union_le ..).trans (Nat.add_le_add (card_toFinset_le _) (card_toFinset_le _))
  refine (card_union_le ..).trans (Nat.add_le_add ?_ (card_singleton i).le (b := 9))
  exact (card_union_le ..).trans (Nat.add_le_add hdata hind)

/-- Every inode has a block for each part of its contents. -/
def NoHoles (sb : Superblock) (v : FsView) (D : Nat → Dinode) : Prop :=
  ∀ n, n < sb.ninodes → ∀ bn, bn * BSIZE < (D n).size → ref sb v.cur D (n, slotOf bn) ≠ none

/-- Entry `ip` of the inode table is a copy of the allocated inode `n`. -/
structure InTable (sb : Superblock) (v : FsView) (D : Nat → Dinode) (ip : IId)
    (n : Nat) : Prop where
  lt : n < sb.ninodes
  dev : (v.aux.inode ip).dev = ROOTDEV
  inum : (v.aux.inode ip).inum = n
  dino : (v.aux.inode ip).dino = D n
  type : (D n).type ≠ 0

theorem InTable.holds (h : InTable sb v D ip n) (hi : Image sb out v D E) :
    Holds sb (insert n out) v D E ip n :=
  ⟨hi.mono_out fun _ => .inr, .inl rfl, h.lt, h.dev, h.inum, h.dino, h.type⟩

/-- The bytes that `filewrite` passes to `writei` in one operation fit the reservation of the
operation, whatever the number of bitmap blocks. -/
theorem writei_fits_reservation {src : Src} {off N : Nat} (hsb : sb.Wf) (hi : Image sb ∅ v D ∅)
    (hholes : NoHoles sb v D) (hip : InTable sb v D ip n) (hheld : ∀ i, v.held i = none)
    (ho : 1 ≤ v.log.outstanding) (hoff : off ≤ (D n).size)
    (hN : N ≤ (MAXOPBLOCKS - 1 - 1 - 2) / 2 * BSIZE) (hmax : off + N ≤ MAXFILE * BSIZE) :
    FsWp sb p Halts (fun (r : Int) v' => 0 ≤ r ∧ r ≤ N ∧
      ∃ l, v'.passed = v.passed ++ l ∧ l.toFinset.card ≤ MAXOPBLOCKS)
      (writei sb ip src off N) v := by
  refine (writei_wp hsb (hip.holds hi) hheld ho).mono fun r v' hpost => ?_
  rcases hpost with ⟨-, -, hbad⟩ | ⟨D', S, tot, rfl, -, hw⟩
  · refine absurd ⟨?_, hmax⟩ hbad
    simp only [MAXFILE, NDIRECT, NINDIRECT, BSIZE] at hmax
    omega
  · obtain ⟨l, hl, hmem⟩ := hw.moves.passed
    refine ⟨by omega, by have := hw.le; omega, l, hl, ?_⟩
    refine (card_le_card fun c hc => mem_budget (hmem c (List.mem_toFinset.1 hc))).trans ?_
    refine card_budget hN fun hne => hholes n hip.lt _ ?_
    have := Nat.div_add_mod off BSIZE
    rw [Nat.mul_comm] at this
    omega

theorem writei_fits_reservation_oneFile :
    (∃ s, Shows .mkfs 0 (blankView .mkfs oneFile oneFileTable 0) s) ∧
      FsWp .mkfs 0 Halts (fun (r : Int) v' => 0 ≤ r ∧ r ≤ (3072 : Nat) ∧
        ∃ l, v'.passed = [] ++ l ∧ l.toFinset.card ≤ MAXOPBLOCKS)
        (writei .mkfs ⟨0, by decide⟩ (.kernel (List.replicate 3072 0)) 0 3072)
        (blankView .mkfs oneFile oneFileTable 0) :=
  ⟨⟨_, shows_blank (by decide)⟩,
    writei_fits_reservation (n := 1) (by decide) oneFile_image (fun n _ bn hbn => by
      have hsize : (oneFile n).size = 0 := by unfold oneFile; split <;> rfl
      omega) ⟨by decide, rfl, rfl, rfl, by decide⟩ (fun _ => rfl) (by decide)
      (by decide) (by decide) (by decide)⟩

/-! ## Sequences of writes -/

/-- An image between two calls. `T` says of which inodes the entries of the inode table are copies.
-/
structure Settled (sb : Superblock) (T : IId → Option Nat) (v : FsView) (D : Nat → Dinode) :
    Prop where
  image : Image sb ∅ v D ∅
  noHoles : NoHoles sb v D
  table : ∀ {ip n}, T ip = some n → InTable sb v D ip n
  once : ∀ {ip ip' n}, T ip = some n → T ip' = some n → ip = ip'
  held : ∀ i, v.held i = none
  outstanding : 1 ≤ v.log.outstanding

/-- From `v` to `v'` no file loses a block, and no inode but those in `N` changes. -/
structure Extends (sb : Superblock) (N : Set Nat) (v : FsView) (D : Nat → Dinode) (v' : FsView)
    (D' : Nat → Dinode) :
    Prop where
  kept : ∀ {q c}, ref sb v.cur D q = some c → ref sb v'.cur D' q = some c
  others : ∀ m, m ∉ N → D' m = D m

theorem Written.noHoles {S : Set Nat} {tot : Nat} (h : Written sb out E ip n off N S v D tot v' D')
    (holes : NoHoles sb v D) (hoff : off ≤ (D n).size) : NoHoles sb v' D' := by
  intro m hm bn hbn
  by_cases hin : bn * BSIZE < (D m).size
  · obtain ⟨c, hc⟩ := Option.ne_none_iff_exists'.1 (holes m hm bn hin)
    rw [h.kept hc]
    exact nofun
  -- the block is behind the old end of the file, so it begins among the bytes written
  · obtain rfl : m = n := by
      by_contra hne
      exact hin (h.others m hne ▸ hbn)
    have hbn : bn * BSIZE < max (D m).size (off + tot) := by rwa [h.fields] at hbn
    exact h.mapped bn ⟨bn * BSIZE, by omega, by omega, Nat.mul_div_cancel _ (by decide)⟩

variable {T : IId → Option Nat} {src : Src}

theorem Settled.writei (hsb : sb.Wf) (h : Settled sb T v D) (hip : T ip = some n) :
    FsWp sb p Halts (fun _ v' => ∃ D', Settled sb T v' D' ∧ Extends sb {n} v D v' D')
    (writei sb ip src off N) v := by
  refine (writei_wp hsb ((h.table hip).holds h.image) h.held h.outstanding).mono
    fun r v' hpost => ?_
  obtain ⟨-, rfl, -⟩ | ⟨D', S, tot, -, hacc, hw⟩ := hpost
  · exact ⟨D, h, id, fun _ _ => rfl⟩
  have himage := hw.image
  rw [show (insert n ∅ : Set Nat) \ {n} = ∅ by simp] at himage
  refine ⟨D', ⟨himage, hw.noHoles h.noHoles (by have := hacc.1; omega), fun {ip' m} hm => ?_,
    h.once, fun i => ?_, ?_⟩, hw.kept, hw.others⟩
  · obtain ⟨lt, dev, inum, dino, type⟩ := h.table hm
    by_cases hmn : m = n
    · subst hmn
      obtain rfl := h.once hm hip
      have htype : (D' m).type = (D m).type := by rw [hw.fields]
      refine ⟨lt, ?_, ?_, ?_, htype ▸ type⟩
      all_goals simp [hw.aux, withDino, FsSt.setInode, dev, inum]
    · have hsame : v'.aux.inode ip' = v.aux.inode ip' := by
        rw [hw.aux]
        exact Function.update_of_ne
          (fun e => hmn (Option.some.inj (hm.symm.trans ((congrArg T e).trans hip)))) ..
      rw [← hsame] at dev inum dino
      rw [← hw.others m hmn] at dino type
      exact ⟨lt, dev, inum, dino, type⟩
  · rw [hw.held, h.held]
  · rw [hw.moves.outstanding]
    exact h.outstanding

/-- `writei(ip, src, off, n)` for each of the given arguments. -/
def writeEach (sb : Superblock) : List (IId × Src × Nat × Nat) → FsProg Unit
  | [] => pure ()
  | (ip, src, off, n) :: ws => do
    let _ ← writei sb ip src off n
    writeEach sb ws

/-- Whatever is written to whichever files, also where a call is rejected or stops early: the blocks
in use are those of the metadata and those referenced, no block is referenced twice, and no file has
a hole. -/
theorem writes_keep_image (hsb : sb.Wf) (h : Settled sb T v D) {ws : List (IId × Src × Nat × Nat)}
    (hws : ∀ w ∈ ws, T w.1 ≠ none) :
    FsWp sb p Halts (fun _ v' => ∃ D', Settled sb T v' D' ∧
      Extends sb {n | ∃ w ∈ ws, T w.1 = some n} v D v' D')
      (writeEach sb ws) v := by
  induction ws generalizing v D with
  | nil => exact .ret ⟨D, h, id, fun _ _ => rfl⟩
  | cons w ws ih =>
    obtain ⟨n, hn⟩ := Option.ne_none_iff_exists'.1 (hws w (.head _))
    refine (h.writei hsb hn).bind fun _ v₁ ⟨D₁, h₁, hext⟩ => ?_
    refine (ih h₁ fun w' hw' => hws w' (.tail _ hw')).mono fun _ v' ⟨D', h', hext'⟩ => ?_
    refine ⟨D', h', fun hq => hext'.kept (hext.kept hq), fun m hm => ?_⟩
    rw [hext'.others m fun ⟨w', hw', hm'⟩ => hm ⟨w', .tail _ hw', hm'⟩]
    exact hext.others m fun hmn => hm ⟨w, .head _, hmn ▸ hn⟩

/-- Two writes to one file, of which the second one is rejected. -/
theorem writes_keep_image_oneFile : ∃ T v, Settled .mkfs T v oneFile ∧
    FsWp .mkfs 0 Halts (fun _ v' => ∃ D', Settled .mkfs T v' D') (writeEach .mkfs
      [(⟨0, ninode_pos⟩, .kernel [1], 0, 1), (⟨0, ninode_pos⟩, .kernel [2], 9, 1)]) v := by
  let T (ip : IId) : Option Nat := if ip = ⟨0, ninode_pos⟩ then some 1 else none
  have hT {ip : IId} {n : Nat} (h : T ip = some n) : ip = ⟨0, ninode_pos⟩ ∧ n = 1 := by
    simpa [T, eq_comm] using h
  have h : Settled .mkfs T (blankView .mkfs oneFile oneFileTable 0) oneFile := by
    refine ⟨oneFile_image, fun n _ bn hbn => ?_, fun h => ?_,
      fun h h' => (hT h).1.trans (hT h').1.symm, fun _ => rfl, by decide⟩
    · have hsize : (oneFile n).size = 0 := by unfold oneFile; split <;> rfl
      omega
    · obtain ⟨-, rfl⟩ := hT h
      exact ⟨by decide, rfl, rfl, rfl, by decide⟩
  refine ⟨T, _, h, (writes_keep_image (by decide) h (by simp [T])).mono fun _ _ hpost => ?_⟩
  obtain ⟨D', h', -⟩ := hpost
  exact ⟨D', h'⟩

end Fs

end Xv6
