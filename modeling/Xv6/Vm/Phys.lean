import Xv6.Vm.Space

/-!
# Physical memory and copies between the kernel and user space

`walk` without allocation, `walkaddr`, `copyout`, `copyin` and `copyinstr` of `kernel/vm.c` on
memory that is bytes and nothing else: page tables are read from the same bytes that are copied.
Addresses are 64-bit numbers. The machine records the addresses that are read and written. The
buffer in the kernel that the bytes come from or go to is a list.
-/

namespace Xv6.Phys

open Lib Vm

abbrev Ram := Nat → UInt8

structure St where
  ram : Ram
  touched : List Nat

inductive Panic where
  | walk
  deriving DecidableEq, Repr

inductive Op where
  -- 8 bytes
  | word (a : Nat)
  | load (a : Nat)
  | store (a : Nat) (b : UInt8)
  | panic (e : Panic)
  -- more rounds than there are bytes
  | stop

abbrev iface : Iface where
  Op := Op
  Res
    | .word _ => Nat
    | .load _ => UInt8
    | _ => Unit

def step : (o : Op) → St → Outcome Panic (iface.Res o × St)
  | .word a, s => .ok (Bytes.read s.ram 8 a, { s with touched := List.range' a 8 ++ s.touched })
  | .load a, s => .ok (s.ram a, { s with touched := a :: s.touched })
  | .store a b, s => .ok ((), ⟨Function.update s.ram a b, a :: s.touched⟩)
  | .panic e, _ => .panic e
  | .stop, _ => .blocked

abbrev Code (α : Type) := Prog iface α

def op (o : Op) : Code (iface.Res o) := Prog.perform (E := iface) o

/-! ## `walk` and `walkaddr` -/

/-- `PX(level, va)`. -/
def px (level va : Nat) : Nat := va / 2 ^ (12 + 9 * level) % 512

/-- `PTE2PA(pte)`. -/
def pte2pa (pte : Nat) : Nat := pte / 2 ^ 10 * 2 ^ 12 % 2 ^ 64

/-- `PGROUNDDOWN(a)`. -/
def pgrounddown (a : Nat) : Nat := a / PGSIZE * PGSIZE

def walkFrom (va : Nat) : (level pagetable : Nat) → Code (Option Nat)
  | 0, pagetable => pure (some (pagetable + 8 * px 0 va))
  | level + 1, pagetable => do
    let pte : Nat ← op (.word (pagetable + 8 * px (level + 1) va))
    if pte.testBit 0 then walkFrom va level (pte2pa pte) else pure none

/-- `walk(pagetable, va, 0)`: the address of the entry, if there is one. -/
def walk (pagetable va : Nat) : Code (Option Nat) :=
  if MAXVA ≤ va then do
    op (.panic .walk)
    pure none
  else walkFrom va 2 pagetable

def walkaddr (pagetable va : Nat) : Code Nat :=
  if MAXVA ≤ va then pure 0
  else do
    let r ← walk pagetable va
    match r with
    | none => pure 0
    | some a =>
      let pte : Nat ← op (.word a)
      if pte.testBit 0 = false then pure 0
      else if pte.testBit 4 = false then pure 0
      else pure (pte2pa pte)

/-! ## Copies -/

/-- `memmove` from the kernel. -/
def memmoveOut (a : Nat) : List UInt8 → Code Unit
  | [] => pure ()
  | b :: bs => do
    op (.store a b)
    memmoveOut (a + 1) bs

/-- `memmove` of `n` bytes to the kernel. -/
def memmoveIn (a : Nat) : (n : Nat) → Code (List UInt8)
  | 0 => pure []
  | n + 1 => do
    let b : UInt8 ← op (.load a)
    let bs ← memmoveIn (a + 1) n
    pure (b :: bs)

/-- The loop of `copyout`, at most `rounds` times. -/
def copyoutFrom (pagetable : Nat) : (rounds dstva : Nat) → List UInt8 → Code Int
  | 0, _, _ => do
    op .stop
    pure 0
  | rounds + 1, dstva, src =>
    if src.length = 0 then pure 0
    else do
      let va0 := pgrounddown dstva
      let pa0 ← walkaddr pagetable va0
      if pa0 = 0 then pure (-1)
      else
        let n := min (PGSIZE - (dstva - va0)) src.length
        memmoveOut (pa0 + (dstva - va0)) (src.take n)
        copyoutFrom pagetable rounds ((va0 + PGSIZE) % 2 ^ 64) (src.drop n)

/-- `copyout` of the bytes `src`; every round copies at least one. -/
def copyout (pagetable dstva : Nat) (src : List UInt8) : Code Int :=
  copyoutFrom pagetable (src.length + 1) dstva src

/-- The loop of `copyin`; the result comes with the bytes that went to the kernel. -/
def copyinFrom (pagetable : Nat) : (rounds srcva len : Nat) → Code (Int × List UInt8)
  | 0, _, _ => do
    op .stop
    pure (0, [])
  | rounds + 1, srcva, len =>
    if len = 0 then pure (0, [])
    else do
      let va0 := pgrounddown srcva
      let pa0 ← walkaddr pagetable va0
      if pa0 = 0 then pure (-1, [])
      else
        let n := min (PGSIZE - (srcva - va0)) len
        let bs ← memmoveIn (pa0 + (srcva - va0)) n
        let (r, rest) ← copyinFrom pagetable rounds ((va0 + PGSIZE) % 2 ^ 64) (len - n)
        pure (r, bs ++ rest)

def copyin (pagetable srcva len : Nat) : Code (Int × List UInt8) :=
  copyinFrom pagetable (len + 1) srcva len

/-- The inner loop of `copyinstr`: the bytes up to a NUL or `n` of them, and `got_null`. -/
def stringFrom (p : Nat) : (n : Nat) → Code (List UInt8 × Bool)
  | 0 => pure ([], false)
  | n + 1 => do
    let b : UInt8 ← op (.load p)
    if b = 0 then pure ([0], true)
    else
      let (bs, gotNull) ← stringFrom (p + 1) n
      pure (b :: bs, gotNull)

/-- The loop of `copyinstr`; a page without a NUL takes `n` from `max`. -/
def copyinstrFrom (pagetable : Nat) : (rounds srcva max : Nat) → Code (Int × List UInt8)
  | 0, _, _ => do
    op .stop
    pure (0, [])
  | rounds + 1, srcva, max =>
    if max = 0 then pure (-1, [])
    else do
      let va0 := pgrounddown srcva
      let pa0 ← walkaddr pagetable va0
      if pa0 = 0 then pure (-1, [])
      else
        let n := min (PGSIZE - (srcva - va0)) max
        let (bs, gotNull) ← stringFrom (pa0 + (srcva - va0)) n
        if gotNull then pure (0, bs)
        else
          let (r, rest) ← copyinstrFrom pagetable rounds ((va0 + PGSIZE) % 2 ^ 64) (max - n)
          pure (r, bs ++ rest)

def copyinstr (pagetable srcva max : Nat) : Code (Int × List UInt8) :=
  copyinstrFrom pagetable (max + 1) srcva max

end Xv6.Phys
