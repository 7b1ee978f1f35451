import Xv6.Fs.Code
import Xv6.Kernel.Sequential
import Xv6.Lib.Ownership

/-!
# The file system image

The inodes, the free bitmap and the indirect blocks as they lie in the blocks of the file system,
and the ownership law: a block below `sb.size` is marked as used exactly if it is a metadata block
or referenced, and no block is referenced from two places.

While an operation works on an inode, its copy on disk is out of date and blocks are in its hands.
The law is therefore stated for inodes `D` that may differ from those on disk, and for a set `E` of
blocks that are marked as used and not referenced.
-/

namespace Xv6

open Lib Kernel Function List

namespace Superblock

/-- The blocks before the data blocks: boot block, superblock, log, inodes and bitmap. -/
def nmeta (sb : Superblock) : Nat := sb.bmapstart + sb.size / BPB + 1

/-- A superblock as `mkfs` writes it. The loop of `balloc` counts with an `int`, and a directory
entry has 16 bits for an inode number. -/
structure Wf (sb : Superblock) : Prop where
  nlog : 0 < sb.nlog
  log : sb.logstart + sb.nlog ≤ sb.inodestart
  inodes : sb.inodestart + sb.ninodes / IPB < sb.bmapstart
  data : sb.nmeta ≤ sb.size
  size : sb.size ≤ 2 ^ 31
  ninodes : sb.ninodes ≤ 2 ^ 16

instance (sb : Superblock) : Decidable sb.Wf :=
  decidable_of_iff (0 < sb.nlog ∧ sb.logstart + sb.nlog ≤ sb.inodestart ∧
    sb.inodestart + sb.ninodes / IPB < sb.bmapstart ∧ sb.nmeta ≤ sb.size ∧ sb.size ≤ 2 ^ 31 ∧
    sb.ninodes ≤ 2 ^ 16) ⟨fun ⟨h₁, h₂, h₃, h₄, h₅, h₆⟩ => ⟨h₁, h₂, h₃, h₄, h₅, h₆⟩,
      fun h => ⟨h.nlog, h.log, h.inodes, h.data, h.size, h.ninodes⟩⟩

example : mkfs.Wf := by decide

variable {sb : Superblock} {b c n : Nat}

theorem Wf.not_inLog (h : sb.Wf) (hb : sb.inodestart ≤ b) : ¬sb.InLog b := fun hl => by
  have := h.log
  have := hl.2
  omega

theorem Wf.iblock (h : sb.Wf) (hn : n < sb.ninodes) :
    sb.inodestart ≤ sb.iblock n ∧ sb.iblock n < sb.bmapstart := by
  have := h.inodes
  simp only [Superblock.iblock, IPB] at this ⊢
  omega

theorem Wf.bblock (hb : b < sb.size) : sb.bmapstart ≤ sb.bblock b ∧ sb.bblock b < sb.nmeta := by
  simp only [Superblock.bblock, nmeta, BPB, BSIZE]
  omega

theorem Wf.bmapstart_lt (sb : Superblock) : sb.bmapstart < sb.nmeta := by
  simp only [nmeta, BPB, BSIZE]
  omega

theorem Wf.inodestart_lt (h : sb.Wf) : sb.inodestart < sb.nmeta := by
  have h₁ := h.inodes
  have h₂ := bmapstart_lt sb
  simp only [IPB] at h₁
  omega

theorem Wf.iblock_lt (h : sb.Wf) (hn : n < sb.ninodes) : sb.iblock n < sb.nmeta :=
  (h.iblock hn).2.trans (bmapstart_lt sb)

theorem Wf.bblock_not_inLog (h : sb.Wf) (hb : b < sb.size) : ¬sb.InLog (sb.bblock b) := by
  have h₁ := (bblock hb).1
  have h₂ := h.inodes
  simp only [IPB] at h₂
  exact h.not_inLog (by omega)

theorem Wf.iblock_not_inLog (h : sb.Wf) (hn : n < sb.ninodes) : ¬sb.InLog (sb.iblock n) :=
  h.not_inLog (h.iblock hn).1

theorem Wf.data_not_inLog (h : sb.Wf) (hb : sb.nmeta ≤ b) : ¬sb.InLog b :=
  h.not_inLog (h.inodestart_lt.le.trans hb)

theorem Wf.iblock_ne_bblock (h : sb.Wf) (hn : n < sb.ninodes) (hb : b < sb.size) :
    sb.iblock n ≠ sb.bblock b := by
  have h₁ := (h.iblock hn).2
  have h₂ := (bblock hb).1
  omega

theorem Wf.lt_of_lt_size (h : sb.Wf) (hb : b < sb.size) : b < 2 ^ 32 := by
  have := h.size
  omega

end Superblock

namespace Fs

abbrev FsView := Kernel.View fsAux

/-! ## Inodes, bitmap and block map -/

section
variable (sb : Superblock) (cur : Nat → Block)

/-- Inode `n` on disk. -/
def ino (n : Nat) : Dinode := (cur (sb.iblock n)).dinode (n % IPB)

/-- Block `b` is marked in the bitmap. -/
def Used (b : Nat) : Prop := b < sb.size ∧ (cur (sb.bblock b)).bit (b % BPB) = true

/-- Entry `j` of the indirect block `a`. -/
def entry (a j : Nat) : Nat := (cur a).u32 (4 * j)

/-- Where an inode stores a block number: in `addrs` or in its indirect block. -/
inductive Slot where
  | addr (k : Fin (NDIRECT + 1))
  | entry (j : Nat)
  deriving DecidableEq

/-- Block number 0 refers to no block. -/
def nz (a : Nat) : Option Nat := if a = 0 then none else some a

def slotRef (x : Dinode) : Slot → Option Nat
  | .addr k => nz (x.addrs k)
  | .entry j =>
    if j < NINDIRECT ∧ x.addrs (Fin.last NDIRECT) ≠ 0 then
      nz (entry cur (x.addrs (Fin.last NDIRECT)) j)
    else none

/-- The block that slot `q.2` of inode `q.1` refers to. -/
def ref (D : Nat → Dinode) (q : Nat × Slot) : Option Nat :=
  if q.1 < sb.ninodes then slotRef cur (D q.1) q.2 else none

end

variable {b : Nat}

theorem nz_eq_some {a : Nat} : nz a = some b ↔ a = b ∧ b ≠ 0 := by
  unfold nz
  split
  · rename_i h
    exact ⟨nofun, fun ⟨hab, hb⟩ => absurd (hab ▸ h) hb⟩
  · rename_i h
    exact ⟨fun e => ⟨Option.some.inj e, Option.some.inj e ▸ h⟩, fun e => e.1 ▸ rfl⟩

variable {cur cur' : Nat → Block} {x : Dinode}

theorem slotRef_congr
    (h : x.addrs (Fin.last NDIRECT) ≠ 0 →
      cur' (x.addrs (Fin.last NDIRECT)) = cur (x.addrs (Fin.last NDIRECT))) :
    slotRef cur' x = slotRef cur x := by
  funext q
  cases q with
  | addr k => rfl
  | entry j =>
    simp only [slotRef]
    split
    · rename_i hj
      rw [entry, h hj.2, entry]
    · rfl

/-- A new block number in a slot of `addrs` that was 0. The new block is empty if it is to be the
indirect block. -/
theorem slotRef_setAddr {k : Fin (NDIRECT + 1)}
    (hk : x.addrs k = 0) (hb : b ≠ 0) (hzero : cur b = .zero) :
    slotRef cur (x.setAddr k b) = update (slotRef cur x) (.addr k) (some b) := by
  funext q
  by_cases hq : q = .addr k
  · subst hq
    rw [update_self, slotRef, Dinode.addrs_setAddr_self, nz, if_neg hb]
  · rw [update_of_ne hq]
    cases q with
    | addr j => rw [slotRef, slotRef, Dinode.addrs_setAddr_of_ne _ (fun e : j = k => hq (e ▸ rfl))]
    | entry j =>
      simp only [slotRef]
      by_cases hlast : Fin.last NDIRECT = k
      · subst hlast
        rw [Dinode.addrs_setAddr_self, entry, hzero, Block.u32_zero, hk]
        simp [nz]
      · rw [Dinode.addrs_setAddr_of_ne _ hlast]

variable {sb : Superblock} {D : Nat → Dinode} {n : Nat} {q : Slot}

theorem ref_eq_some :
    ref sb cur D (n, q) = some b ↔ n < sb.ninodes ∧ slotRef cur (D n) q = some b := by
  unfold ref
  split
  · rename_i hn
    exact ⟨fun h => ⟨hn, h⟩, fun h => h.2⟩
  · rename_i hn
    exact ⟨nofun, fun h => absurd h.1 hn⟩

theorem ref_update {o : Option Nat} (hn : n < sb.ninodes)
    (h : slotRef cur x = update (slotRef cur (D n)) q o) :
    ref sb cur (update D n x) = update (ref sb cur D) (n, q) o := by
  funext ⟨m, r⟩
  by_cases hm : m = n
  · subst hm
    simp only [ref, if_pos hn, update_self, h]
    by_cases hr : r = q
    · subst hr
      rw [update_self, update_self]
    · rw [update_of_ne hr, update_of_ne fun e => hr (Prod.mk.inj e).2, ref, if_pos hn]
  · rw [update_of_ne fun e => hm (Prod.mk.inj e).1]
    simp only [ref, update_of_ne hm]

variable {D' : Nat → Dinode}

theorem ref_congr
    (h : ∀ n, n < sb.ninodes → slotRef cur' (D' n) = slotRef cur (D n)) :
    ref sb cur' D' = ref sb cur D := by
  funext q
  unfold ref
  split
  · rename_i hn
    rw [h q.1 hn]
  · rfl

theorem ref_addrs
    (h : ∀ n, (D' n).addrs = (D n).addrs) : ref sb cur D' = ref sb cur D :=
  ref_congr fun n _ => by
    funext q
    cases q <;> simp only [slotRef, h]

theorem used_congr {c : Nat} {w : Bool} (hb : b < sb.size)
    (hbit : ∀ bj, bj < BPB → (cur' (sb.bblock b)).bit bj =
      if bj = b % BPB then w else (cur (sb.bblock b)).bit bj)
    (other : ∀ c, c < sb.size → sb.bblock c ≠ sb.bblock b →
      cur' (sb.bblock c) = cur (sb.bblock c)) :
    Used sb cur' c ↔ if c = b then w = true else Used sb cur c := by
  have hBPB : 0 < BPB := by decide
  by_cases hcb : c = b
  · subst hcb
    rw [if_pos rfl, Used, hbit _ (Nat.mod_lt _ hBPB), if_pos rfl]
    exact and_iff_right hb
  · rw [if_neg hcb]
    refine and_congr_right fun hc => ?_
    by_cases hblock : sb.bblock c = sb.bblock b
    · have hmod : c % BPB ≠ b % BPB := fun hmod => hcb <| by
        have hdiv : c / BPB = b / BPB := Nat.add_right_cancel hblock
        rw [← Nat.div_add_mod c BPB, ← Nat.div_add_mod b BPB, hdiv, hmod]
      rw [hblock, hbit _ (Nat.mod_lt _ hBPB), if_neg hmod]
    · rw [other c hc hblock]

theorem bit_index {bj : Nat} (h : bj < BPB) : bj / 8 < BSIZE := by
  simp only [BPB, BSIZE] at h ⊢
  omega

/-- A block that an eviction cannot change. -/
def Clean (v : FsView) (b : Nat) : Prop := v.cur b = v.disk b ∨ b ∈ v.log.block

/-- From `v` to `v'`, the blocks in `T` may be changed and passed to `log_write`, those in `S`
changed without it. Others are left alone as far as they are clean. -/
structure Moves (T S : Set Nat) (v v' : FsView) : Prop where
  disk : v'.disk = v.disk
  outstanding : v'.log.outstanding = v.log.outstanding
  inOp : v'.inOp = v.inOp
  grow : ∀ b ∈ v.log.block, b ∈ v'.log.block
  passed : ∃ l, v'.passed = v.passed ++ l ∧ ∀ b ∈ l, b ∈ T
  logged : ∀ b, b ∉ S → Clean v b → v'.cur b = v.cur b ∨ b ∈ v'.log.block
  keep : ∀ b, b ∉ T → b ∉ S → Clean v b → v'.cur b = v.cur b

namespace Moves

variable {T T' S S' : Set Nat} {v v' v'' : FsView} {b : Nat}

/-- Nothing but the buffers held and the rest of the kernel differs. -/
theorem of_held (v : FsView) (held : BufId → Option Nat) (x : FsSt) :
    Moves ∅ ∅ v { v with held, aux := x } :=
  ⟨rfl, rfl, rfl, fun _ => id, ⟨[], (append_nil _).symm, nofun⟩, fun _ _ _ => .inl rfl,
    fun _ _ _ _ => rfl⟩

theorem refl (v : FsView) : Moves ∅ ∅ v v := of_held v v.held v.aux

theorem of_aux (v : FsView) (x : FsSt) : Moves ∅ ∅ v { v with aux := x } := of_held v v.held x

theorem clean (h : Moves T S v v') (hb : b ∉ S) (hc : Clean v b) : Clean v' b := by
  rcases h.logged b hb hc with hcur | hl
  · rcases hc with hd | hl
    · left
      rw [hcur, hd, h.disk]
    · exact .inr (h.grow b hl)
  · exact .inr hl

theorem trans (h : Moves T S v v') (h' : Moves T' S' v' v'') : Moves (T ∪ T') (S ∪ S') v v'' where
  disk := h'.disk.trans h.disk
  outstanding := h'.outstanding.trans h.outstanding
  inOp := h'.inOp.trans h.inOp
  grow b hb := h'.grow b (h.grow b hb)
  passed := by
    obtain ⟨l, hl, hT⟩ := h.passed
    obtain ⟨l', hl', hT'⟩ := h'.passed
    refine ⟨l ++ l', by rw [hl', hl, append_assoc], fun b hb => ?_⟩
    exact (mem_append.1 hb).imp (hT b) (hT' b)
  logged b hS hc := by
    have hS₁ : b ∉ S := fun hb => hS (.inl hb)
    rcases h'.logged b (fun hb => hS (.inr hb)) (h.clean hS₁ hc) with hcur | hl
    · rw [hcur]
      exact (h.logged b hS₁ hc).imp_right (h'.grow b)
    · exact .inr hl
  keep b hT hS hc := by
    have hT₁ : b ∉ T := fun hb => hT (.inl hb)
    have hS₁ : b ∉ S := fun hb => hS (.inl hb)
    rw [h'.keep b (fun hb => hT (.inr hb)) (fun hb => hS (.inr hb)) (h.clean hS₁ hc),
      h.keep b hT₁ hS₁ hc]

theorem mono (h : Moves T S v v') (hT : T ⊆ T') (hS : S ⊆ S') : Moves T' S' v v' where
  disk := h.disk
  outstanding := h.outstanding
  inOp := h.inOp
  grow := h.grow
  passed := by
    obtain ⟨l, hl, hlT⟩ := h.passed
    exact ⟨l, hl, fun b hb => hT (hlT b hb)⟩
  logged b hb := h.logged b fun hS' => hb (hS hS')
  keep b hbT hbS := h.keep b (fun hT' => hbT (hT hT')) fun hS' => hbS (hS hS')

end Moves

theorem Evicts.keep {v : FsView} (h : v.Evicts cur) (hc : Clean v b) :
    cur b = v.cur b := by
  rcases h b with h | ⟨hd, hl, -⟩
  · exact h
  · rcases hc with hc | hc
    · rw [hd, hc]
    · exact absurd hc hl

/-- The blocks that the ownership law depends on: inodes, bitmap and indirect blocks. -/
def Vital (sb : Superblock) (D : Nat → Dinode) (b : Nat) : Prop :=
  sb.inodestart ≤ b ∧ b < sb.nmeta ∨
    ∃ n, n < sb.ninodes ∧ (D n).addrs (Fin.last NDIRECT) = b ∧ b ≠ 0

/-- The law, while the inodes in `out` are out of date on disk. -/
structure Image (sb : Superblock) (out : Set Nat) (v : FsView) (D : Nat → Dinode) (E : Set Nat) :
    Prop where
  owns : Owns {b | Used sb v.cur b} {b | b < sb.nmeta} (ref sb v.cur D) E
  inodes : ∀ n, n < sb.ninodes → n ∉ out → D n = ino sb v.cur n
  fits : ∀ n, n < sb.ninodes → (D n).Fits
  free : ∀ n, n < sb.ninodes → (D n).type = 0 → ∀ k, (D n).addrs k = 0
  clean : ∀ b, Vital sb D b → Clean v b

namespace Image

variable {sb : Superblock} {out : Set Nat} {v v' : FsView} {D D' : Nat → Dinode} {E T S : Set Nat}
  {b n : Nat}

theorem nmeta_le (h : Image sb out v D E) (hb : ¬Used sb v.cur b) : sb.nmeta ≤ b := by
  by_contra hlt
  exact hb (h.owns.used_iff.2 (.inl (not_le.1 hlt)))

theorem vital_iblock (hsb : sb.Wf) (hn : n < sb.ninodes) : Vital sb D (sb.iblock n) :=
  .inl ⟨(hsb.iblock hn).1, hsb.iblock_lt hn⟩

theorem vital_bblock (hsb : sb.Wf) (hb : b < sb.size) : Vital sb D (sb.bblock b) := by
  have h₁ := Superblock.Wf.bblock hb
  have h₂ := hsb.inodes
  simp only [IPB] at h₂
  exact .inl ⟨by omega, h₁.2⟩

theorem ref_indirect (hn : n < sb.ninodes) (hb : (D n).addrs (Fin.last NDIRECT) ≠ 0) :
    ref sb cur D (n, .addr (Fin.last NDIRECT)) = some ((D n).addrs (Fin.last NDIRECT)) :=
  ref_eq_some.2 ⟨hn, nz_eq_some.2 ⟨rfl, hb⟩⟩

/-- Changes to other blocks than indirect ones leave the references alone. -/
theorem ref_eq (h : Image sb out v D E) (hm : Moves T S v v')
    (other : ∀ n, n < sb.ninodes → (D n).addrs (Fin.last NDIRECT) ≠ 0 →
      (D n).addrs (Fin.last NDIRECT) ∉ T ∧ (D n).addrs (Fin.last NDIRECT) ∉ S) :
    ref sb v'.cur D = ref sb v.cur D :=
  ref_congr fun n hn => slotRef_congr fun ha =>
    hm.keep _ (other n hn ha).1 (other n hn ha).2 (h.clean _ (.inr ⟨n, hn, rfl, ha⟩))

theorem of_moves (hsb : sb.Wf) (h : Image sb out v D E) (hm : Moves T S v v')
    (hT : ∀ b, Vital sb D b → b ∉ T) (hS : ∀ b, Vital sb D b → b ∉ S) : Image sb out v' D E := by
  have hcur : ∀ b, Vital sb D b → v'.cur b = v.cur b := fun b hb =>
    hm.keep b (hT b hb) (hS b hb) (h.clean b hb)
  have hused : ∀ b, Used sb v'.cur b ↔ Used sb v.cur b := fun b => by
    refine and_congr_right fun hb => ?_
    rw [hcur _ (vital_bblock hsb hb)]
  have href : ref sb v'.cur D = ref sb v.cur D := h.ref_eq hm fun n hn ha =>
    have hv : Vital sb D _ := .inr ⟨n, hn, rfl, ha⟩
    ⟨hT _ hv, hS _ hv⟩
  refine ⟨?_, fun n hn hout => ?_, h.fits, h.free, fun b hb => hm.clean (hS b hb) (h.clean b hb)⟩
  · rw [href, show {b | Used sb v'.cur b} = {b | Used sb v.cur b} from Set.ext hused]
    exact h.owns
  · rw [ino, hcur _ (vital_iblock hsb hn), ← ino]
    exact h.inodes n hn hout

/-- One bit of the bitmap changed, and blocks that are of no concern to the law. -/
theorem of_bit {w : Bool} {E' : Set Nat} (hsb : sb.Wf) (h : Image sb out v D E) (hb : b < sb.size)
    (hm : Moves T S v v') (hT : ∀ c, Vital sb D c → c ∈ T → c = sb.bblock b)
    (hS : ∀ c, Vital sb D c → c ∉ S) (hbit : ∀ bj, bj < BPB → (v'.cur (sb.bblock b)).bit bj =
      if bj = b % BPB then w else (v.cur (sb.bblock b)).bit bj)
    (owns : ∀ U : Set Nat, (∀ c, c ∈ U ↔ if c = b then w = true else Used sb v.cur c) →
      Owns U {b | b < sb.nmeta} (ref sb v.cur D) E') : Image sb out v' D E' := by
  have hcur : ∀ c, Vital sb D c → c ≠ sb.bblock b → v'.cur c = v.cur c := fun c hc hne =>
    hm.keep c (fun hcT => hne (hT c hc hcT)) (hS c hc) (h.clean c hc)
  have href : ref sb v'.cur D = ref sb v.cur D := h.ref_eq hm fun n hn ha => by
    have hv : Vital sb D _ := .inr ⟨n, hn, rfl, ha⟩
    refine ⟨fun hmem => ?_, hS _ hv⟩
    exact h.owns.ref_reserved (ref_indirect hn ha) (hT _ hv hmem ▸ (Superblock.Wf.bblock hb).2)
  refine ⟨?_, fun n hn hout => ?_, h.fits, h.free, fun c hc => hm.clean (hS c hc) (h.clean c hc)⟩
  · rw [href]
    exact owns _ fun c => used_congr hb hbit fun c hc hne => hcur _ (vital_bblock hsb hc) hne
  · rw [ino, hcur _ (vital_iblock hsb hn) (hsb.iblock_ne_bblock hn hb), ← ino]
    exact h.inodes n hn hout

end Image

/-! ## Allocation -/

/-- What `balloc` did when it returned `b`. -/
structure Allocated (sb : Superblock) (v : FsView) (b : Nat) (v' : FsView) : Prop where
  lt : b < sb.size
  free : ¬Used sb v.cur b
  moves : Moves {sb.bblock b, b} ∅ v v'
  bit : v'.cur (sb.bblock b) = (v.cur (sb.bblock b)).setBit (b % BPB)
  zero : v'.cur b = .zero
  logged : b ∈ v'.log.block
  held : v'.held = v.held
  aux : v'.aux = v.aux

namespace Image

variable {sb : Superblock} {out : Set Nat} {v v' : FsView} {D D' : Nat → Dinode} {E T S : Set Nat}
  {b n : Nat}

theorem alloc (hsb : sb.Wf) (h : Image sb out v D E) (ha : Allocated sb v b v') :
    Image sb out v' D (insert b E) := by
  refine h.of_bit (w := true) hsb ha.lt ha.moves (fun c hc hcT => ?_) (fun _ _ => id)
    (fun bj hbj => ?_)
    fun U hU => ?_
  · rcases hcT with hcT | hcT
    · exact hcT
    · obtain rfl : c = b := hcT
      rcases hc with hc | ⟨n, hn, hadr, hne⟩
      · exact absurd (h.nmeta_le ha.free) (not_le.2 hc.2)
      · subst hadr
        exact absurd (h.owns.used_of_ref (ref_indirect hn hne)) ha.free
  · rw [ha.bit, Block.bit_setBit (bit_index hbj)]
    split <;> simp_all
  · have hU' : U = insert b {c | Used sb v.cur c} := Set.ext fun c => by
      rw [hU]
      split
      · rename_i hcb
        exact ⟨fun _ => .inl hcb, fun _ => rfl⟩
      · rename_i hcb
        exact ⟨.inr, fun hc => hc.resolve_left hcb⟩
    rw [hU']
    exact h.owns.alloc ha.free

theorem ref_alloc (h : Image sb out v D E) (ha : Allocated sb v b v') :
    ref sb v'.cur D = ref sb v.cur D := h.ref_eq ha.moves fun n hn hne => by
  have hr : ref sb v.cur D (n, .addr (Fin.last NDIRECT)) = _ := ref_indirect hn hne
  refine ⟨fun hmem => ?_, id⟩
  rcases hmem with e | e
  · exact h.owns.ref_reserved hr (e ▸ (Superblock.Wf.bblock ha.lt).2)
  · exact ha.free (e ▸ h.owns.used_of_ref hr)

theorem lt_size (h : Image sb out v D E) (hb : b ∈ E) : b < sb.size := (h.owns.used_of_extra hb).1

/-! ## References -/

theorem pos_of_extra (h : Image sb out v D E) (hb : b ∈ E) : sb.nmeta ≤ b ∧ b ≠ 0 := by
  have hle : sb.nmeta ≤ b := not_lt.1 (h.owns.extra_reserved hb)
  have := Superblock.Wf.bmapstart_lt sb
  exact ⟨hle, by omega⟩

theorem mono_out (h : Image sb out v D E) {out' : Set Nat} (ho : ∀ n ∈ out, n ∈ out') :
    Image sb out' v D E :=
  ⟨h.owns, fun n hn hout => h.inodes n hn fun ho' => hout (ho n ho'), h.fits, h.free, h.clean⟩

/-- A change to the inode `n` in memory that stores the same block numbers. -/
theorem setInode (h : Image sb out v D E) {x : Dinode} (hn : n ∈ out)
    (haddrs : x.addrs = (D n).addrs) (hfits : x.Fits) (hfree : x.type = 0 → ∀ k, x.addrs k = 0) :
    Image sb out v (update D n x) E := by
  have hD : ∀ m, (update D n x m).addrs = (D m).addrs := fun m => by
    by_cases hm : m = n
    · subst hm; rw [update_self, haddrs]
    · rw [update_of_ne hm]
  refine ⟨?_, fun m hm hout => ?_, fun m hm => ?_, fun m hm => ?_, fun b hb => ?_⟩
  · rw [ref_addrs hD]
    exact h.owns
  · rw [update_of_ne (fun e : m = n => hout (e ▸ hn))]
    exact h.inodes m hm hout
  · by_cases hmn : m = n
    · subst hmn; rw [update_self]; exact hfits
    · rw [update_of_ne hmn]; exact h.fits m hm
  · by_cases hmn : m = n
    · subst hmn; rw [update_self]; exact hfree
    · rw [update_of_ne hmn]; exact h.free m hm
  · refine h.clean b (hb.imp_right fun ⟨m, hm, hadr, hne⟩ => ⟨m, hm, ?_, hne⟩)
    rw [← hD]; exact hadr

/-- `addrs[k]` of inode `n` gets a block that was allocated for it. -/
theorem linkAddr (hsb : sb.Wf) (h : Image sb out v D E) {k : Fin (NDIRECT + 1)}
    (hn : n < sb.ninodes)
    (hout : n ∈ out) (hb : b ∈ E) (hk : (D n).addrs k = 0) (htype : (D n).type ≠ 0)
    (hzero : v.cur b = .zero) (hlog : b ∈ v.log.block) :
    Image sb out v (update D n ((D n).setAddr k b)) (E \ {b}) := by
  obtain ⟨-, hb0⟩ := h.pos_of_extra hb
  have hself : update D n ((D n).setAddr k b) n = (D n).setAddr k b := update_self ..
  have hnone : ref sb v.cur D (n, .addr k) = none := by
    rw [ref, if_pos hn, slotRef, hk]
    rfl
  refine ⟨?_, fun m hm hm' => ?_, fun m hm => ?_, fun m hm => ?_, fun c hc => ?_⟩
  · rw [ref_update hn (slotRef_setAddr hk hb0 hzero)]
    exact h.owns.link hb hnone
  · rw [update_of_ne (fun e : m = n => hm' (e ▸ hout))]
    exact h.inodes m hm hm'
  · by_cases hmn : m = n
    · subst hmn
      rw [hself]
      exact (h.fits m hm).setAddr k (hsb.lt_of_lt_size (h.lt_size hb))
    · rw [update_of_ne hmn]; exact h.fits m hm
  · by_cases hmn : m = n
    · subst hmn
      rw [hself]
      exact fun ht => absurd ht htype
    · rw [update_of_ne hmn]; exact h.free m hm
  · rcases hc with hc | ⟨m, hm, hadr, hne⟩
    · exact h.clean c (.inl hc)
    · by_cases hmn : m = n
      · subst hmn
        rw [hself] at hadr
        by_cases hlast : Fin.last NDIRECT = k
        · subst hlast
          rw [Dinode.addrs_setAddr_self] at hadr
          exact .inr (hadr ▸ hlog)
        · rw [Dinode.addrs_setAddr_of_ne _ hlast] at hadr
          exact h.clean c (.inr ⟨m, hm, hadr, hne⟩)
      · rw [update_of_ne hmn] at hadr
        exact h.clean c (.inr ⟨m, hm, hadr, hne⟩)

section Entry

variable {a j : Nat} (hsb : sb.Wf) (h : Image sb out v D E) (hn : n < sb.ninodes) (hb : b ∈ E)
  (ha : (D n).addrs (Fin.last NDIRECT) = a) (ha0 : a ≠ 0) (hj : j < NINDIRECT)
    (hm : Moves {a} ∅ v v')
  (hcur : v'.cur a = (v.cur a).setU32 (4 * j) b)

include hsb h hn hb ha ha0 hj hm hcur

theorem ref_setEntry :
    ref sb v'.cur D = update (ref sb v.cur D) (n, .entry j) (some b) := by
  obtain ⟨-, hb0⟩ := h.pos_of_extra hb
  have hra : ref sb v.cur D (n, .addr (Fin.last NDIRECT)) = some a := by
    rw [← ha]
    exact ref_indirect hn (ha ▸ ha0)
  have hbound : ∀ i, i < NINDIRECT → 4 * i + 4 ≤ BSIZE := fun i hi => by
    simp only [NINDIRECT, BSIZE] at hi ⊢
    omega
  have hslot : slotRef v'.cur (D n) = update (slotRef v.cur (D n)) (.entry j) (some b) := by
    funext q
    cases q with
    | addr k =>
      have hne : Slot.addr k ≠ .entry j := by simp
      rw [update_of_ne hne]
      rfl
    | entry i =>
      by_cases hij : i = j
      · subst hij
        rw [update_self, slotRef, if_pos ⟨hj, ha ▸ ha0⟩, ha, entry, hcur,
          Block.u32_setU32_self (hbound i hj) (hsb.lt_of_lt_size (h.lt_size hb)), nz, if_neg hb0]
      · rw [update_of_ne fun e => hij (Slot.entry.inj e)]
        simp only [slotRef]
        split
        · rename_i hi
          rw [ha, entry, hcur, Block.u32_setU32_of_disjoint (hbound i hi.1) (by omega), entry]
        · rfl
  ext1 ⟨m, q⟩
  by_cases hmn : m = n
  · subst hmn
    simp only [ref, if_pos hn, hslot]
    by_cases hq : q = .entry j
    · subst hq; rw [update_self, update_self]
    · rw [update_of_ne hq, update_of_ne fun e => hq (Prod.mk.inj e).2, ref, if_pos hn]
  · rw [update_of_ne fun e => hmn (Prod.mk.inj e).1]
    simp only [ref]
    split
    · rename_i hm'
      rw [slotRef_congr fun hne => hm.keep _ (fun e => hmn ?_) id
        (h.clean _ (.inr ⟨m, hm', rfl, hne⟩))]
      have := h.owns.inj ((show _ = a from e) ▸ ref_indirect hm' hne) hra
      exact (Prod.mk.inj this).1
    · rfl

/-- Entry `j` of the indirect block of inode `n` gets a block that was allocated for it. -/
theorem linkEntry (hzero : entry v.cur a j = 0) : Image sb out v' D (E \ {b}) := by
  have hra : ref sb v.cur D (n, .addr (Fin.last NDIRECT)) = some a := by
    rw [← ha]
    exact ref_indirect hn (ha ▸ ha0)
  have hdata : sb.nmeta ≤ a := not_lt.1 (h.owns.ref_reserved hra)
  have hother : ∀ c, Vital sb D c → c ≠ a → v'.cur c = v.cur c := fun c hc hca =>
    hm.keep c hca id (h.clean c hc)
  have hnone : ref sb v.cur D (n, .entry j) = none := by
    rw [ref, if_pos hn]
    simp only [slotRef, ha, hzero]
    split <;> rfl
  have hused : ∀ c, Used sb v'.cur c ↔ Used sb v.cur c := fun c => by
    refine and_congr_right fun hc => ?_
    rw [hother _ (vital_bblock hsb hc) fun e => ?_]
    have := (Superblock.Wf.bblock hc).2
    omega
  refine ⟨?_, fun m hm' hout => ?_, h.fits, h.free, fun c hc => hm.clean id (h.clean c hc)⟩
  · rw [h.ref_setEntry hsb hn hb ha ha0 hj hm hcur,
      show {c | Used sb v'.cur c} = {c | Used sb v.cur c} from Set.ext hused]
    exact h.owns.link hb hnone
  · rw [ino, hother _ (vital_iblock hsb hm') (by have := hsb.iblock_lt hm'; omega), ← ino]
    exact h.inodes m hm' hout

end Entry

/-- The copy of inode `n` on disk is brought up to date. -/
theorem update (hsb : sb.Wf) (h : Image sb out v D E) (hn : n < sb.ninodes)
    (hm : Moves {sb.iblock n} ∅ v v')
    (hcur : v'.cur (sb.iblock n) = (v.cur (sb.iblock n)).setDinode (n % IPB) (D n)) :
    Image sb (out \ {n}) v' D E := by
  have hIPB : 0 < IPB := by decide
  have hother : ∀ c, Vital sb D c → c ≠ sb.iblock n → v'.cur c = v.cur c := fun c hc hne =>
    hm.keep c hne id (h.clean c hc)
  have href : ref sb v'.cur D = ref sb v.cur D := h.ref_eq hm fun m hm ha =>
    ⟨fun e => h.owns.ref_reserved (ref_indirect hm ha)
      ((show _ = sb.iblock n from e) ▸ hsb.iblock_lt hn), id⟩
  have hused : ∀ c, Used sb v'.cur c ↔ Used sb v.cur c := fun c => by
    refine and_congr_right fun hc => ?_
    rw [hother _ (vital_bblock hsb hc) (hsb.iblock_ne_bblock hn hc).symm]
  refine ⟨?_, fun m hm' hout => ?_, h.fits, h.free, fun c hc => hm.clean id (h.clean c hc)⟩
  · rw [href, show {c | Used sb v'.cur c} = {c | Used sb v.cur c} from Set.ext hused]
    exact h.owns
  · by_cases hmn : m = n
    · subst hmn
      rw [ino, hcur, Block.dinode_setDinode_self (Nat.mod_lt _ hIPB) (h.fits m hm')]
    · have hD := h.inodes m hm' fun ho => hout ⟨ho, hmn⟩
      rw [hD, ino, ino]
      by_cases hblock : sb.iblock m = sb.iblock n
      · have hmod : m % IPB ≠ n % IPB := fun hmod => hmn <| by
          have hdiv : m / IPB = n / IPB := Nat.add_right_cancel hblock
          rw [← Nat.div_add_mod m IPB, ← Nat.div_add_mod n IPB, hdiv, hmod]
        rw [hblock, hcur, Block.dinode_setDinode_of_ne (Nat.mod_lt _ hIPB) hmod]
      · rw [hother _ (vital_iblock hsb hm') hblock]

end Image

end Fs

end Xv6
