import Xv6.Lib.Bytes

/-!
# Disk blocks

The contents of a disk block, with the accesses that the C code makes through pointers to
`uchar`, `ushort`, `uint` and structures: little-endian numbers at byte offsets.
-/

namespace Xv6

open Lib Function

def BSIZE : Nat := 1024

/-- The contents of one disk block. -/
def Block : Type := Fin BSIZE → UInt8

namespace Block

instance : Inhabited Block := ⟨fun _ => 0⟩

/-- The byte at offset `i`, 0 outside the block. -/
def get (d : Block) (i : Nat) : UInt8 := if h : i < BSIZE then d ⟨i, h⟩ else 0

def ofFn (f : Nat → UInt8) : Block := fun i => f i

/-- `memset(b->data, 0, BSIZE)`. -/
def zero : Block := ofFn fun _ => 0

variable {i : Nat}

theorem get_ofFn (f : Nat → UInt8) (h : i < BSIZE) : (ofFn f).get i = f i := by
  rw [get, dif_pos h]; rfl

theorem get_of_le (d : Block) (h : BSIZE ≤ i) : d.get i = 0 := by
  rw [get, dif_neg (by omega)]

variable {d : Block}

@[simp] theorem get_zero (i : Nat) : zero.get i = 0 := by
  by_cases h : i < BSIZE
  · rw [zero, get_ofFn _ h]
  · exact get_of_le _ (by omega)

/-- The `uint` at byte offset `o`. -/
def u32 (d : Block) (o : Nat) : Nat := Bytes.read d.get 4 o

/-- The `ushort` at byte offset `o`. -/
def u16 (d : Block) (o : Nat) : Nat := Bytes.read d.get 2 o

def setU32 (d : Block) (o v : Nat) : Block := ofFn (Bytes.write d.get 4 o v)

/-- Overwrite the bytes from offset `o` on. -/
def splice (d : Block) (o : Nat) (bs : List UInt8) : Block := ofFn (Bytes.splice d.get o bs)

variable {o : Nat}

theorem read_ofFn (f : Nat → UInt8) {w : Nat} (h : o + w ≤ BSIZE) :
    Bytes.read (ofFn f).get w o = Bytes.read f w o :=
  Bytes.read_congr fun i _ _ => get_ofFn f (by omega)

@[simp] theorem u32_zero (o : Nat) : zero.u32 o = 0 := by
  simp [u32, Bytes.read]

variable {v : Nat}

theorem u32_setU32_self (ho : o + 4 ≤ BSIZE) (hv : v < 2 ^ 32) :
    (d.setU32 o v).u32 o = v := by
  rw [u32, setU32, read_ofFn _ ho, Bytes.read_write_of_lt _ _ (by simpa using hv)]

variable {o' : Nat}

theorem u32_setU32_of_disjoint (ho : o' + 4 ≤ BSIZE)
    (h : o' + 4 ≤ o ∨ o + 4 ≤ o') : (d.setU32 o v).u32 o' = d.u32 o' := by
  rw [u32, setU32, read_ofFn _ ho, Bytes.read_write_of_disjoint h, u32]

/-! ## Bits -/

/-- Replace the byte at offset `o`. -/
def setByte (d : Block) (o : Nat) (v : UInt8) : Block := ofFn (update d.get o v)

/-- `bp->data[bi/8] & (1 << (bi % 8))`. -/
def bit (d : Block) (bi : Nat) : Bool := (d.get (bi / 8)).toNat.testBit (bi % 8)

/-- `bp->data[bi/8] |= 1 << (bi % 8)`. -/
def setBit (d : Block) (bi : Nat) : Block :=
  d.setByte (bi / 8) (UInt8.ofNat ((d.get (bi / 8)).toNat ||| 2 ^ (bi % 8)))

theorem get_setByte_self {v : UInt8} (h : o < BSIZE) :
    (d.setByte o v).get o = v := by
  rw [setByte, get_ofFn _ h, update_self]

theorem get_setByte_of_ne {v : UInt8} (h : o' ≠ o) :
    (d.setByte o v).get o' = d.get o' := by
  by_cases ho : o' < BSIZE
  · rw [setByte, get_ofFn _ ho, update_of_ne h]
  · rw [get_of_le _ (by omega), get_of_le _ (by omega)]

variable {bi bj : Nat}

/-- The bits of a block after a change to the byte of bit `bi`. -/
theorem bit_setByte (hj : bj / 8 < BSIZE) (hv : v < 256) :
    (d.setByte (bi / 8) (UInt8.ofNat v)).bit bj =
      if bj / 8 = bi / 8 then v.testBit (bj % 8) else d.bit bj := by
  split
  · rename_i h
    rw [bit, h, get_setByte_self (h ▸ hj), UInt8.toNat_ofNat', Nat.mod_eq_of_lt hv]
  · rename_i h
    rw [bit, get_setByte_of_ne h, bit]

theorem bit_setBit (hj : bj / 8 < BSIZE) :
    (d.setBit bi).bit bj = (d.bit bj || decide (bj = bi)) := by
  have hlt : (d.get (bi / 8)).toNat ||| 2 ^ (bi % 8) < 2 ^ 8 :=
    Nat.or_lt_two_pow (d.get (bi / 8)).toNat_lt
      (Nat.pow_lt_pow_right (by decide) (Nat.mod_lt _ (by decide)))
  rw [setBit, bit_setByte hj hlt]
  split
  · rename_i h
    rw [Nat.testBit_or, Nat.testBit_two_pow, bit, h]
    congr 1
    simp only [eq_comm, decide_eq_decide]
    omega
  · rename_i h
    have : bj ≠ bi := by rintro rfl; exact h rfl
    simp [this]

end Block

end Xv6
