import Xv6.Lib.Bytes

/-!
# User memory

An address space as `copyin` and `copyout` of `vm.c` see it: they move bytes page by page and stop
at the first page that is not mapped.
-/

namespace Xv6

open Lib

def PGSIZE : Nat := 4096
def MAXVA : Nat := 2 ^ 38

/-- A user address space: the mapped pages and their bytes. -/
structure UserMem where
  mapped : Nat → Bool
  byte : Nat → UInt8

namespace UserMem

/-- `walkaddr(pagetable, va) != 0`. -/
def walkaddr (m : UserMem) (va : Nat) : Bool := va < MAXVA && m.mapped (va / PGSIZE)

/-- The bytes that `copyin` moves page by page, and whether it gets to the end. -/
def copyin (m : UserMem) : (fuel va len : Nat) → Bool × List UInt8
  | 0, _, len => (len = 0, [])
  | fuel + 1, va, len =>
    if len = 0 then (true, [])
    else
      let va0 := va / PGSIZE * PGSIZE
      if m.walkaddr va0 then
        let n := min (PGSIZE - (va - va0)) len
        let (ok, bs) := m.copyin fuel (va0 + PGSIZE) (len - n)
        (ok, (List.range n).map (fun k => m.byte (va + k)) ++ bs)
      else (false, [])

/-- `copyout`, page by page. -/
def copyout (m : UserMem) : (fuel va : Nat) → List UInt8 → Bool × UserMem
  | 0, _, bs => (bs = [], m)
  | fuel + 1, va, bs =>
    if bs = [] then (true, m)
    else
      let va0 := va / PGSIZE * PGSIZE
      if m.walkaddr va0 then
        let n := PGSIZE - (va - va0)
        UserMem.copyout { m with byte := Bytes.splice m.byte va (bs.take n) } fuel (va0 + PGSIZE)
          (bs.drop n)
      else (false, m)

end UserMem

end Xv6
