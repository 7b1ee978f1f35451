import Xv6.Fs.Inode
import Mathlib.Data.List.TakeWhile
import Mathlib.Algebra.BigOperators.Group.Finset.Basic

/-!
# Inodes as the directory layer sees them

An inode with its content as one byte string, and the directory entries in the content of a
directory.
-/

namespace Xv6

open List

namespace Dir

/-- `kernel/stat.h`; 0 is the type of a free inode. -/
inductive IType where
  | free | dir | file | device
  deriving DecidableEq, Repr

/-- An inode with its block addresses and the bytes that they lead to; its size is their number. The
fields of type `short` are bit patterns. -/
structure Node where
  type : IType
  major : Nat
  minor : Nat
  nlink : Nat
  addrs : List Nat
  data : List UInt8
  deriving DecidableEq, Repr

/-! ## Bytes -/

/-- `n` bytes at offset `off`. -/
def slice (data : List UInt8) (off n : Nat) : List UInt8 := (data.drop off).take n

/-- Overwrite the bytes from `off` on, beyond the end if need be. -/
def splice (data : List UInt8) (off : Nat) (bs : List UInt8) : List UInt8 :=
  data.take off ++ bs ++ data.drop (off + bs.length)

section
variable {data bs : List UInt8} {off i n : Nat}

theorem length_slice : (slice data off n).length = min n (data.length - off) := by
  simp [slice]

theorem length_splice (h : off ≤ data.length) :
    (splice data off bs).length = max data.length (off + bs.length) := by
  simp only [splice, length_append, length_take, length_drop]
  omega

theorem slice_splice_self (h : off ≤ data.length) :
    slice (splice data off bs) off bs.length = bs := by
  have hl : (data.take off).length = off := length_take_of_le h
  simp only [slice, splice, append_assoc]
  rw [drop_append_of_le_length hl.ge, drop_of_length_le hl.le, nil_append,
    take_left]

theorem splice_nil : splice data off [] = data := by
  simp [splice]

/-- Two writes, the second one where the first one ends. -/
theorem splice_splice {bs' : List UInt8} (h : off ≤ data.length) :
    splice (splice data off bs) (off + bs.length) bs' = splice data off (bs ++ bs') := by
  have hl : (data.take off ++ bs).length = off + bs.length := by
    rw [length_append, length_take_of_le h]
  have hd : (data.take off ++ bs ++ data.drop (off + bs.length)).drop
      (off + bs.length + bs'.length) =
      data.drop (off + (bs ++ bs').length) := by
    rw [← drop_drop, drop_left' hl, drop_drop, length_append, Nat.add_assoc]
  rw [splice, splice, take_left' hl, hd, splice, append_assoc _ bs bs']

theorem slice_splice_of_disjoint (h : off ≤ data.length)
    (hd : i + n ≤ off ∨ off + bs.length ≤ i) : slice (splice data off bs) i n = slice data i n := by
  apply ext_getElem?
  intro k
  simp only [slice, splice, getElem?_take, getElem?_drop, append_assoc]
  split
  · rcases hd with hd | hd
    · rw [getElem?_append_left (by rw [length_take]; omega), getElem?_take,
        if_pos (by omega)]
    · rw [getElem?_append_right (by rw [length_take]; omega),
        getElem?_append_right (by rw [length_take]; omega), getElem?_drop,
        length_take_of_le h]
      congr 1
      omega
  · rfl

end

/-! ## Entries -/

/-- `sizeof(struct dirent)`. -/
def DESIZE : Nat := 16

def entry (data : List UInt8) (k : Nat) : Dirent := .ofBytes (slice data (DESIZE * k) DESIZE)

def entries (data : List UInt8) : List Dirent := (range (data.length / DESIZE)).map (entry data)

def dotName : List UInt8 := [46]

def dotdotName : List UInt8 := [46, 46]

section
variable {data bs : List UInt8} {j k : Nat}

theorem entry_splice_self (hk : DESIZE * k ≤ data.length) (hb : bs.length = DESIZE) :
    entry (splice data (DESIZE * k) bs) k = .ofBytes bs := by
  rw [entry, ← hb, slice_splice_self (hb ▸ hk)]

theorem entry_splice_of_ne (hk : DESIZE * k ≤ data.length) (hb : bs.length = DESIZE) (h : j ≠ k) :
    entry (splice data (DESIZE * k) bs) j = entry data j := by
  rw [entry, entry, slice_splice_of_disjoint hk]
  simp only [hb, DESIZE] at hk ⊢
  omega

end

end Dir

/-! ## What an entry names -/

namespace Dirent

/-- The entry is called `.` or `..`. -/
def isDot (de : Dirent) : Bool := namecmp Dir.dotName de.name || namecmp Dir.dotdotName de.name

variable {de : Dirent}

theorem length_bytes (h : de.name.length = DIRSIZ) : de.bytes.length = Dir.DESIZE := by
  simp only [bytes, length_cons, h, DIRSIZ, Dir.DESIZE]

theorem length_mk' (name : List UInt8) (inum : Nat) :
    (mk' name inum).bytes.length = Dir.DESIZE := by
  apply length_bytes
  simp [mk', DIRSIZ]

theorem length_zero : zero.bytes.length = Dir.DESIZE := rfl

@[simp] theorem ofBytes_zero : ofBytes zero.bytes = zero := rfl

variable {name : List UInt8} {inum : Nat}

theorem ofBytes_mk' :
    ofBytes (mk' name inum).bytes = mk' name inum :=
  ofBytes_bytes (Nat.mod_lt _ (by decide))

theorem inum_mk' (h : inum < 2 ^ 16) : (mk' name inum).inum = inum :=
  Nat.mod_eq_of_lt h

theorem cstr_name_mk' : cstr (mk' name inum).name = cstr name := by
  have hlen : (cstr name).length ≤ DIRSIZ := by
    have := (List.takeWhile_prefix (l := name.take DIRSIZ) (· ≠ 0)).length_le
    rw [length_take] at this
    exact this.trans (min_le_left ..)
  have hne : ∀ c ∈ cstr name, (fun c : UInt8 => decide (c ≠ 0)) c = true := fun c hc =>
    mem_takeWhile_imp (p := fun c : UInt8 => decide (c ≠ 0)) hc
  rw [mk', cstr, take_take, min_self, take_append, take_of_length_le hlen,
    takeWhile_append_of_pos hne, take_replicate, takeWhile_replicate]
  simp

end Dirent

namespace Dir

/-- An entry can be written to slot `k`: the slot is empty, or the first one behind the content. -/
def FreeSlot (data : List UInt8) (k : Nat) : Prop :=
  data.length = DESIZE * k ∨ k < data.length / DESIZE ∧ (entry data k).inum = 0

theorem FreeSlot.le {data : List UInt8} {k : Nat} (h : FreeSlot data k) :
    DESIZE * k ≤ data.length := by
  rcases h with h | ⟨h, -⟩
  · exact h.ge
  · simp only [DESIZE] at h ⊢
    omega

/-- The first of the slots `k`, …, `n - 1` with `P`. -/
def firstFrom (P : Nat → Bool) (n k : Nat) : Option Nat := (range' k (n - k)).find? P

section
variable {P : Nat → Bool} {n k j : Nat}

theorem firstFrom_of_le (h : n ≤ k) : firstFrom P n k = none := by
  rw [firstFrom, Nat.sub_eq_zero_of_le h]
  rfl

theorem firstFrom_of_lt (h : k < n) :
    firstFrom P n k = if P k then some k else firstFrom P n (k + 1) := by
  rw [firstFrom, show n - k = n - (k + 1) + 1 by omega, range'_succ, find?_cons]
  cases P k <;> rfl

theorem firstFrom_eq_some (h : firstFrom P n k = some j) : k ≤ j ∧ j < n ∧ P j = true := by
  have hm := mem_range'_1.1 (mem_of_find?_eq_some h)
  exact ⟨hm.1, by omega, find?_some h⟩

theorem firstFrom_eq_none : firstFrom P n k = none ↔ ∀ j, k ≤ j → j < n → P j = false := by
  rw [firstFrom, find?_eq_none]
  constructor
  · intro h j hk hj
    exact Bool.eq_false_of_not_eq_true (h j (mem_range'_1.2 ⟨hk, by omega⟩))
  · intro h j hj
    obtain ⟨hk, hj⟩ := mem_range'_1.1 hj
    rw [h j hk (by omega)]
    exact Bool.false_ne_true

/-- If at most one slot qualifies, it is the first one. -/
theorem firstFrom_eq_of_unique (unique : ∀ i j, i < n → j < n → P i = true → P j = true → i = j)
    (hk : k ≤ j) (hj : j < n) (h : P j = true) : firstFrom P n k = some j := by
  cases hf : firstFrom P n k with
  | none =>
    rw [firstFrom_eq_none.1 hf j hk hj] at h
    cases h
  | some i =>
    obtain ⟨-, hi, hP⟩ := firstFrom_eq_some hf
    rw [unique i j hi hj hP h]

end

/-- The number of slots. -/
def slotCount (data : List UInt8) : Nat := data.length / DESIZE

/-- The slot of a new entry: the first empty one, or the one behind the last. -/
def emptySlot (data : List UInt8) : Nat :=
  (firstFrom (fun k => (entry data k).inum == 0) (slotCount data) 0).getD (slotCount data)

/-- No slot is empty and there is no space for another one. -/
def Full (data : List UInt8) : Prop := MAXFILE * BSIZE < DESIZE * emptySlot data + DESIZE

namespace Node

/-- An entry is written to slot `k`, after which the block addresses are `a`. -/
def writeEntry (x : Node) (a : List Nat) (k : Nat) (de : Dirent) : Node :=
  { x with addrs := a, data := splice x.data (DESIZE * k) de.bytes }

end Node

end Dir

end Xv6
