import Mathlib.Algebra.Order.Ring.Nat
import Mathlib.Tactic.Ring

/-!
# Byte memories and little-endian numbers

A byte memory is a function from addresses to bytes. `read` and `write` access unsigned
little-endian numbers of any width, `splice` overwrites a range with a list of bytes.
-/

namespace Xv6.Lib.Bytes

open List

variable {m m' : Nat → UInt8} {o w v : Nat}

/-- The number in the `w` bytes from address `o` on. -/
def read (m : Nat → UInt8) : Nat → Nat → Nat
  | 0, _ => 0
  | w + 1, o => (m o).toNat + 256 * read m w (o + 1)

/-- Store the low `w` bytes of `v` from address `o` on. -/
def write (m : Nat → UInt8) (w o v : Nat) : Nat → UInt8 :=
  fun i => if o ≤ i ∧ i < o + w then UInt8.ofNat (v / 256 ^ (i - o)) else m i

def splice (m : Nat → UInt8) (o : Nat) (bs : List UInt8) : Nat → UInt8 :=
  fun i => if o ≤ i then (bs[i - o]?).getD (m i) else m i

/-- The low `w` bytes of `v`. -/
def number (w v : Nat) : List UInt8 := (range w).map fun i => UInt8.ofNat (v / 256 ^ i)

theorem read_lt (m : Nat → UInt8) (w o : Nat) : read m w o < 256 ^ w := by
  induction w generalizing o with
  | zero => simp [read]
  | succ w ih =>
    have hb : (m o).toNat < 256 := (m o).toNat_lt
    have := ih (o + 1)
    rw [read, pow_succ]
    omega

theorem read_congr (h : ∀ i, o ≤ i → i < o + w → m i = m' i) : read m w o = read m' w o := by
  induction w generalizing o with
  | zero => rfl
  | succ w ih =>
    rw [read, read, h o (by omega) (by omega), ih fun i hi hi' => h i (by omega) (by omega)]

variable {i : Nat}

theorem write_of_lt (h : i < o) : write m w o v i = m i := by
  rw [write, if_neg (by omega)]

theorem write_of_le (h : o + w ≤ i) : write m w o v i = m i := by
  rw [write, if_neg (by omega)]

variable {w' o' : Nat}

/-- A store leaves the numbers elsewhere alone. -/
theorem read_write_of_disjoint (h : o' + w' ≤ o ∨ o + w ≤ o') :
    read (write m w o v) w' o' = read m w' o' := by
  refine read_congr fun i hi hi' => ?_
  rcases h with h | h
  · exact write_of_lt (by omega)
  · exact write_of_le (by omega)

theorem read_write_self (m : Nat → UInt8) (w o v : Nat) :
    read (write m w o v) w o = v % 256 ^ w := by
  induction w generalizing m o v with
  | zero => simp [read, Nat.mod_one]
  | succ w ih =>
    have tail : read (write m (w + 1) o v) w (o + 1) =
        read (write m w (o + 1) (v / 256)) w (o + 1) := by
      refine read_congr fun i hi hi' => ?_
      rw [write, write, if_pos (by omega), if_pos (by omega), Nat.div_div_eq_div_mul, ← pow_succ',
        show i - (o + 1) + 1 = i - o by omega]
    have head : (write m (w + 1) o v o).toNat = v % 256 := by
      rw [write, if_pos (by omega)]
      simp
    rw [read, tail, ih, head, pow_succ', Nat.mod_mul]

theorem read_write_of_lt (m : Nat → UInt8) (o : Nat) (h : v < 256 ^ w) :
    read (write m w o v) w o = v := by
  rw [read_write_self, Nat.mod_eq_of_lt h]

/-! ## Records -/

/-- A field of a record: its offset, its width in bytes and its value. -/
structure Field where
  off : Nat
  width : Nat
  val : Nat

/-- Store the fields of a record at address `o`, one after the other. -/
def store (m : Nat → UInt8) (o : Nat) (fields : List Field) : Nat → UInt8 :=
  fields.foldl (fun m x => write m x.width (o + x.off) x.val) m

variable {fields : List Field}

theorem read_store_of_disjoint
    (h : ∀ x ∈ fields, o' + w' ≤ o + x.off ∨ o + x.off + x.width ≤ o') :
    read (store m o fields) w' o' = read m w' o' := by
  induction fields generalizing m with
  | nil => rfl
  | cons x fields ih =>
    have tail := @ih (write m x.width (o + x.off) x.val) fun y hy => h y (mem_cons_of_mem _ hy)
    exact tail.trans (read_write_of_disjoint (h x mem_cons_self))

/-- A field is read back, if no other field overlaps it. -/
theorem read_store_of_mem {x : Field} (hx : x ∈ fields)
    (h : fields.Pairwise fun x y => x.off + x.width ≤ y.off) (hv : x.val < 256 ^ x.width) :
    read (store m o fields) x.width (o + x.off) = x.val := by
  induction fields generalizing m with
  | nil => cases hx
  | cons y fields ih =>
    obtain ⟨hy, h⟩ := pairwise_cons.1 h
    rcases mem_cons.1 hx with rfl | hx
    · have tail : read (store (write m x.width (o + x.off) x.val) o fields) x.width (o + x.off) =
          read (write m x.width (o + x.off) x.val) x.width (o + x.off) := by
        refine read_store_of_disjoint fun z hz => ?_
        have := hy z hz
        omega
      exact tail.trans (read_write_of_lt _ _ hv)
    · exact ih hx h

variable {bs : List UInt8}

theorem splice_of_lt (h : i < o) : splice m o bs i = m i := by
  rw [splice, if_neg (by omega)]

theorem splice_of_le (h : o + bs.length ≤ i) :
    splice m o bs i = m i := by
  rw [splice, if_pos (by omega), getElem?_eq_none (by omega), Option.getD_none]

@[simp] theorem length_number : (number w v).length = w := by rw [number, length_map, length_range]

theorem splice_number : splice m o (number w v) = write m w o v := by
  funext i
  by_cases hlo : o ≤ i
  · by_cases hhi : i < o + w
    · have hlt : i - o < (number w v).length := by rw [length_number]; omega
      rw [splice, if_pos hlo, getElem?_eq_getElem hlt, Option.getD_some, write, if_pos ⟨hlo, hhi⟩]
      simp only [number, getElem_map, getElem_range]
    · rw [splice_of_le (by rw [length_number]; omega), write_of_le (by omega)]
  · rw [splice_of_lt (by omega), write_of_lt (by omega)]

end Xv6.Lib.Bytes
