import Xv6.Layout

/-!
# Inodes and directory entries on disk

`struct dinode` and `struct dirent` of `kernel/fs.h` as they lie in a block.
-/

namespace Xv6

open Lib Function List

def IPB : Nat := 16
def BPB : Nat := BSIZE * 8

/-- `struct dinode`. -/
@[ext]
structure Dinode where
  type : Nat
  major : Nat
  minor : Nat
  nlink : Nat
  size : Nat
  addrs : Fin (NDIRECT + 1) → Nat

namespace Dinode

def zero : Dinode := ⟨0, 0, 0, 0, 0, fun _ => 0⟩

/-- The values fit into the fields. -/
structure Fits (x : Dinode) : Prop where
  type : x.type < 2 ^ 16
  major : x.major < 2 ^ 16
  minor : x.minor < 2 ^ 16
  nlink : x.nlink < 2 ^ 16
  size : x.size < 2 ^ 32
  addrs : ∀ k, x.addrs k < 2 ^ 32

/-- The fields in the order of the structure. -/
def fields (x : Dinode) : List Bytes.Field :=
  ⟨0, 2, x.type⟩ :: ⟨2, 2, x.major⟩ :: ⟨4, 2, x.minor⟩ :: ⟨6, 2, x.nlink⟩ :: ⟨8, 4, x.size⟩ ::
    (finRange (NDIRECT + 1)).map fun k => ⟨12 + 4 * k.val, 4, x.addrs k⟩

/-- Where the fields lie does not depend on their values. -/
theorem fields_layout (x : Dinode) : x.fields.map (fun y => (y.off, y.width)) =
    (0, 2) :: (2, 2) :: (4, 2) :: (6, 2) :: (8, 4) ::
      (range (NDIRECT + 1)).map fun k => (12 + 4 * k, 4) := rfl

theorem fields_pairwise (x : Dinode) :
    x.fields.Pairwise fun x y => x.off + x.width ≤ y.off := by
  have h : (x.fields.map fun y => (y.off, y.width)).Pairwise fun x y => x.1 + x.2 ≤ y.1 := by
    rw [fields_layout]
    decide
  rwa [pairwise_map] at h

theorem fields_le {x : Dinode} {y : Bytes.Field} (hy : y ∈ x.fields) : y.off + y.width ≤ 64 := by
  have h : ∀ z ∈ x.fields.map fun y => (y.off, y.width), z.1 + z.2 ≤ 64 := by
    rw [fields_layout]
    decide
  exact h _ (mem_map_of_mem hy)

/-- `addrs[k] = a`. -/
def setAddr (x : Dinode) (k : Fin (NDIRECT + 1)) (a : Nat) : Dinode :=
  { x with addrs := update x.addrs k a }

theorem addrs_setAddr_self (x : Dinode) (k : Fin (NDIRECT + 1)) (a : Nat) :
    (x.setAddr k a).addrs k = a :=
  update_self ..

theorem addrs_setAddr_of_ne (x : Dinode) {j k : Fin (NDIRECT + 1)} (h : j ≠ k) (a : Nat) :
    (x.setAddr k a).addrs j = x.addrs j :=
  update_of_ne h ..

theorem Fits.setAddr {x : Dinode} (h : x.Fits) (k : Fin (NDIRECT + 1)) {a : Nat} (ha : a < 2 ^ 32) :
    (x.setAddr k a).Fits := by
  refine ⟨h.type, h.major, h.minor, h.nlink, h.size, fun j => ?_⟩
  by_cases hj : j = k
  · subst hj
    rw [addrs_setAddr_self]
    exact ha
  · rw [addrs_setAddr_of_ne _ hj]
    exact h.addrs j

end Dinode

namespace Block

/-- `((struct dinode*)bp->data)[k]`. -/
def dinode (d : Block) (k : Nat) : Dinode where
  type := d.u16 (64 * k)
  major := d.u16 (64 * k + 2)
  minor := d.u16 (64 * k + 4)
  nlink := d.u16 (64 * k + 6)
  size := d.u32 (64 * k + 8)
  addrs j := d.u32 (64 * k + (12 + 4 * j.val))

def setDinode (d : Block) (k : Nat) (x : Dinode) : Block :=
  ofFn (Bytes.store d.get (64 * k) x.fields)

theorem dinode_setDinode_self {d : Block} {k : Nat} {x : Dinode} (hk : k < IPB) (hx : x.Fits) :
    (d.setDinode k x).dinode k = x := by
  have field : ∀ y ∈ x.fields, y.val < 256 ^ y.width →
      Bytes.read (d.setDinode k x).get y.width (64 * k + y.off) = y.val := fun y hy hv => by
    have := Dinode.fields_le hy
    have hsize : 64 * k + y.off + y.width ≤ BSIZE := by
      simp only [IPB] at hk
      simp only [BSIZE]
      omega
    rw [setDinode, read_ofFn _ hsize, Bytes.read_store_of_mem hy x.fields_pairwise hv]
  ext j
  · exact field ⟨0, 2, x.type⟩ (by simp [Dinode.fields]) hx.type
  · exact field ⟨2, 2, x.major⟩ (by simp [Dinode.fields]) hx.major
  · exact field ⟨4, 2, x.minor⟩ (by simp [Dinode.fields]) hx.minor
  · exact field ⟨6, 2, x.nlink⟩ (by simp [Dinode.fields]) hx.nlink
  · exact field ⟨8, 4, x.size⟩ (by simp [Dinode.fields]) hx.size
  · refine field ⟨12 + 4 * j.val, 4, x.addrs j⟩ ?_ (hx.addrs j)
    simp only [Dinode.fields, mem_cons, mem_map]
    exact .inr (.inr (.inr (.inr (.inr ⟨j, mem_finRange j, rfl⟩))))

theorem dinode_setDinode_of_ne {d : Block} {j k : Nat} {x : Dinode} (hj : j < IPB) (hjk : j ≠ k) :
    (d.setDinode k x).dinode j = d.dinode j := by
  have field : ∀ {w o : Nat}, o + w ≤ 64 →
      Bytes.read (d.setDinode k x).get w (64 * j + o) = Bytes.read d.get w (64 * j + o) := by
    intro w o ho
    have hsize : 64 * j + o + w ≤ BSIZE := by
      simp only [IPB] at hj
      simp only [BSIZE]
      omega
    rw [setDinode, read_ofFn _ hsize]
    refine Bytes.read_store_of_disjoint fun y hy => ?_
    have := Dinode.fields_le hy
    omega
  ext i
  · exact field (o := 0) (by decide)
  · exact field (o := 2) (by decide)
  · exact field (o := 4) (by decide)
  · exact field (o := 6) (by decide)
  · exact field (o := 8) (by decide)
  · exact field (by have := i.2; simp only [NDIRECT] at this; omega)

end Block

/-! ## Directory entries -/

/-- `struct dirent`; the name is `DIRSIZ` bytes. -/
structure Dirent where
  inum : Nat
  name : List UInt8
  deriving DecidableEq, Repr

/-- A file name as `strncmp` and `strncpy` with the bound `DIRSIZ` see it. -/
def cstr (s : List UInt8) : List UInt8 := (s.take DIRSIZ).takeWhile (· ≠ 0)

def namecmp (s t : List UInt8) : Bool := cstr s = cstr t

namespace Dirent

def zero : Dirent := ⟨0, replicate DIRSIZ 0⟩

/-- `strncpy(de.name, name, DIRSIZ); de.inum = inum;` -/
def mk' (name : List UInt8) (inum : Nat) : Dirent :=
  ⟨inum % 2 ^ 16, (cstr name ++ replicate DIRSIZ 0).take DIRSIZ⟩

/-- The 16 bytes of an entry. -/
def bytes (de : Dirent) : List UInt8 :=
  UInt8.ofNat de.inum :: UInt8.ofNat (de.inum / 256) :: de.name

def ofBytes (bs : List UInt8) : Dirent :=
  ⟨(bs.getD 0 0).toNat + 256 * (bs.getD 1 0).toNat, bs.drop 2⟩

theorem ofBytes_bytes {de : Dirent} (h : de.inum < 2 ^ 16) : ofBytes de.bytes = de := by
  have hinum : de.inum % 256 + 256 * (de.inum / 256 % 256) = de.inum := by omega
  obtain ⟨inum, name⟩ := de
  simp only [ofBytes, bytes, getD_cons_zero, getD_cons_succ, drop_succ_cons,
    drop_zero, UInt8.toNat_ofNat', Dirent.mk.injEq, and_true]
  exact hinum

end Dirent

end Xv6
