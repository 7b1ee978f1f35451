import Xv6.Lib.Prog
import Xv6.Lib.Radix
import Xv6.Layout
import Xv6.Proc.Table
import Xv6.UserMem

/-!
# Physical pages and user page tables

`kernel/kalloc.c` and `kernel/vm.c`: the free list, page tables of three levels in physical pages,
and what `proc.c` and `exec.c` build from them, with the entries of the process table and the files
as far as pages depend on them. Pages are numbered by their address divided by `PGSIZE`, virtual
pages likewise. The contents of a page are there twice, as page-table entries and as bytes: a store
to one is a store to the other. Pages come from `kalloc` and go to `kfree` filled with junk. Any
call of `kalloc` may fail, whether or not pages are left.

A page-table entry is its flags and the page it points to. The code reads what it finds in files and
user memory from its parameters: an ELF file is a list of program headers, an argument of `exec` is
whether it could be fetched.
-/

namespace Xv6.Vm

open Lib Function

/-! ## Layout -/

/-- The first page of RAM and the page after the last one. -/
def kernPage : Nat := 0x80000000 / PGSIZE
def stopPage : Nat := (0x80000000 + 128 * 1024 * 1024) / PGSIZE

/-- The number of virtual pages below `MAXVA`, and the two topmost ones. -/
def maxVpn : Nat := MAXVA / PGSIZE
def trampoline : Nat := maxVpn - 1
def trapframe : Nat := maxVpn - 2

/-- `PGROUNDUP(sz) / PGSIZE`. -/
def pages (sz : Nat) : Nat := (sz + PGSIZE - 1) / PGSIZE

structure Pte where
  page : Nat
  v : Bool
  r : Bool
  w : Bool
  x : Bool
  u : Bool
  deriving DecidableEq, Repr

namespace Pte

def zero : Pte := ⟨0, false, false, false, false, false⟩

/-- `PA2PTE(pagetable) | PTE_V`. -/
def node (page : Nat) : Pte := ⟨page, true, false, false, false, false⟩

/-- `*pte & (PTE_R|PTE_W|PTE_X)`. -/
def rwx (e : Pte) : Bool := e.r || e.w || e.x

/-- Where a valid entry points. -/
def ptr (e : Pte) : Option Nat := if e.v then some e.page else none

/-- A page-table entry in memory. -/
def ofWord (w : Nat) : Pte :=
  ⟨w / 2 ^ 10 % 2 ^ 52, w.testBit 0, w.testBit 1, w.testBit 2, w.testBit 3, w.testBit 4⟩

/-- The entry as a number. -/
def bits (e : Pte) : Nat :=
  e.page * 2 ^ 10 + (e.v.toNat + 2 * e.r.toNat + 4 * e.w.toNat + 8 * e.x.toNat + 16 * e.u.toNat)

end Pte

/-- The entries in a page of bytes. -/
def entries (d : Nat → UInt8) : Fin 512 → Pte := fun i => .ofWord (Bytes.read d 8 (8 * i))

/-- `PX(level, va)` for page `vpn`. -/
def px (vpn level : Nat) : Fin 512 := Fin.ofNat 512 (vpn / 512 ^ level)

abbrev Tables := Radix.Heap Nat Pte 512

/-- The valid leaf entry of a virtual page. -/
def mapping (pt : Tables) (root vpn : Nat) : Option Pte := Radix.lookup Pte.ptr pt 2 root (px vpn)

/-- The page-table pages of a page table. -/
def tablePages (pt : Tables) (root : Nat) : List Nat := Radix.tables Pte.ptr pt 2 root

/-! ## The machine -/

/-- Physical memory: the contents of pages, the free list, and which calls of `kalloc` fail. -/
structure Mem where
  -- the first page after `end`
  first : Nat
  -- the page of the trampoline, in the text of the kernel
  tramp : Nat
  pt : Tables
  data : Nat → Nat → UInt8
  freelist : List Nat
  fails : Nat → Bool
  kallocs : Nat

inductive FileKind where
  | none | pipe (page : Nat) | other
  deriving DecidableEq, Repr

structure File where
  ref : Nat
  kind : FileKind
  writable : Bool
  deriving DecidableEq, Repr

abbrev FileId := Fin NFILE
abbrev Fd := Fin NOFILE

/-- `struct proc`: its life cycle, its memory and its files. -/
structure UProc where
  state : ProcState
  parent : Option Slot
  pagetable : Option Nat
  sz : Nat
  trapframe : Option Nat
  ofile : Fd → Option FileId

def UProc.zero : UProc := ⟨.unused, none, none, 0, none, fun _ => none⟩

/-- `readopen` and `writeopen` of a pipe. -/
structure PipeEnds where
  readopen : Bool
  writeopen : Bool

structure Kern where
  proc : Slot → UProc
  file : FileId → File
  -- by the page of the pipe
  pipe : Nat → PipeEnds

structure St where
  mem : Mem
  kern : Kern

inductive Panic where
  | kfree | walk | mappagesSize | remap
  | unmapAligned | unmapWalk | unmapNotMapped | unmapNotLeaf
  | freewalkLeaf | copyExist | copyPresent | uvmclear | loadseg | uvminit
  | fileclose | filedup | initExiting
  deriving DecidableEq, Repr

inductive Op where
  | kalloc
  | kfree (page : Nat)
  | pte (page : Nat) (i : Fin 512)
  | setPte (page : Nat) (i : Fin 512) (e : Pte)
  -- `memset(page, 0, PGSIZE)`
  | clear (page : Nat)
  -- `memmove(page + off, bs, n)` for the `n` bytes `bs`
  | fill (page off : Nat) (bs : List UInt8)
  -- `memmove(dst, src, n)`
  | move (dst src n : Nat)
  | tramp
  | kern
  | setKern (k : Kern)
  | panic (e : Panic)
  -- deeper than a page table is
  | stop

abbrev iface : Iface where
  Op := Op
  Res
    | .kalloc => Option Nat
    | .pte .. => Pte
    | .tramp => Nat
    | .kern => Kern
    | _ => Unit

/-- The entries in a page of bytes 1, and of bytes 5. -/
def junk1 : Pte := ⟨0x404040404040, true, false, false, false, false⟩
def junk5 : Pte := ⟨0x1414141414141, true, false, true, false, false⟩

example : Pte.ofWord 0x0101010101010101 = junk1 ∧ Pte.ofWord 0x0505050505050505 = junk5 := by decide

/-- A page with new bytes. -/
def Mem.setData (m : Mem) (n : Nat) (d : Nat → UInt8) : Mem :=
  { m with pt := update m.pt n (entries d), data := update m.data n d }

def step : (o : Op) → St → Outcome Panic (iface.Res o × St)
  | .kalloc, s =>
    let m := { s.mem with kallocs := s.mem.kallocs + 1 }
    match s.mem.freelist with
    | [] => .ok (none, { s with mem := m })
    | n :: rest =>
      if s.mem.fails s.mem.kallocs then .ok (none, { s with mem := m })
      else .ok (some n, { s with mem := { m with
        freelist := rest
        pt := update s.mem.pt n fun _ => junk5
        data := update s.mem.data n fun _ => 5 } })
  | .kfree n, s =>
    if s.mem.first ≤ n ∧ n < stopPage then
      .ok ((), { s with mem := { s.mem with
        freelist := n :: s.mem.freelist
        pt := update s.mem.pt n fun _ => junk1
        data := update s.mem.data n fun _ => 1 } })
    else .panic .kfree
  | .pte n i, s => .ok (s.mem.pt n i, s)
  | .setPte n i e, s => .ok ((), { s with mem := { s.mem with
      pt := Radix.set s.mem.pt n i e
      data := update s.mem.data n (Bytes.write (s.mem.data n) 8 (8 * i) e.bits) } })
  | .clear n, s => .ok ((), { s with mem := { s.mem with
      pt := update s.mem.pt n fun _ => Pte.zero
      data := update s.mem.data n fun _ => 0 } })
  | .fill n off bs, s =>
    .ok ((), { s with mem := s.mem.setData n (Bytes.splice (s.mem.data n) off bs) })
  | .move dst src n, s =>
    .ok ((), { s with
      mem := s.mem.setData dst fun o => if o < n then s.mem.data src o else s.mem.data dst o })
  | .tramp, s => .ok (s.mem.tramp, s)
  | .kern, s => .ok (s.kern, s)
  | .setKern k, s => .ok ((), { s with kern := k })
  | .panic e, _ => .panic e
  | .stop, _ => .blocked

abbrev Code (α : Type) := Prog iface α

def op (o : Op) : Code (iface.Res o) := Prog.perform (E := iface) o

def kalloc : Code (Option Nat) := op .kalloc

/-! ## `vm.c` -/

def walkFrom (vpn : Nat) (alloc : Bool) : (level page : Nat) → Code (Option (Nat × Fin 512))
  | 0, page => pure (some (page, px vpn 0))
  | level + 1, page => do
    let e : Pte ← op (.pte page (px vpn (level + 1)))
    if e.v then walkFrom vpn alloc level e.page
    else if alloc then
      let r ← kalloc
      match r with
      | none => pure none
      | some n =>
        op (.clear n)
        op (.setPte page (px vpn (level + 1)) (.node n))
        walkFrom vpn alloc level n
    else pure none

def walk (root vpn : Nat) (alloc : Bool) : Code (Option (Nat × Fin 512)) :=
  if maxVpn ≤ vpn then do
    op (.panic .walk)
    pure none
  else walkFrom vpn alloc 2 root

/-- `walkaddr`; the result is the page, or `none` for 0. -/
def walkaddr (root va : Nat) : Code (Option Nat) :=
  if MAXVA ≤ va then pure none
  else do
    let r ← walk root (va / PGSIZE) false
    match r with
    | none => pure none
    | some (page, i) =>
      let e : Pte ← op (.pte page i)
      pure (if e.v && e.u then some e.page else none)

/-- The loop of `mappages`, with `k` pages to go after this one. -/
def mapFrom (root : Nat) (perm : Pte) : (k vpn page : Nat) → Code Bool
  | k, vpn, page => do
    let r ← walk root vpn true
    match r with
    | none => pure false
    | some (a, i) =>
      let e : Pte ← op (.pte a i)
      if e.v then
        op (.panic .remap)
        pure false
      else
        op (.setPte a i { perm with page, v := true })
        match k with
        | 0 => pure true
        | k + 1 => mapFrom root perm k (vpn + 1) (page + 1)

/-- `mappages`; the flags are those of `perm`. -/
def mappages (root va size page : Nat) (perm : Pte) : Code Bool :=
  if size = 0 then do
    op (.panic .mappagesSize)
    pure false
  else mapFrom root perm ((va + size - 1) / PGSIZE - va / PGSIZE) (va / PGSIZE) page

/-- The loop of `uvmunmap`. -/
def unmapFrom (root : Nat) (free : Bool) : (npages vpn : Nat) → Code Unit
  | 0, _ => pure ()
  | n + 1, vpn => do
    let r ← walk root vpn false
    match r with
    | none => op (.panic .unmapWalk)
    | some (a, i) =>
      let e : Pte ← op (.pte a i)
      if e.v = false then op (.panic .unmapNotMapped)
      else if e = .node e.page then op (.panic .unmapNotLeaf)
      else if free then
        op (.kfree e.page)
        op (.setPte a i .zero)
        unmapFrom root free n (vpn + 1)
      else
        op (.setPte a i .zero)
        unmapFrom root free n (vpn + 1)

def uvmunmap (root va npages : Nat) (free : Bool) : Code Unit :=
  if va % PGSIZE ≠ 0 then op (.panic .unmapAligned)
  else unmapFrom root free npages (va / PGSIZE)

def uvmcreate : Code (Option Nat) := do
  let r ← kalloc
  match r with
  | none => pure none
  | some n =>
    op (.clear n)
    pure (some n)

/-- `uvmdealloc`; the result is the new size. -/
def uvmdealloc (root oldsz newsz : Nat) : Code Nat :=
  if oldsz ≤ newsz then pure oldsz
  else if pages newsz < pages oldsz then do
    uvmunmap root (pages newsz * PGSIZE) (pages oldsz - pages newsz) true
    pure newsz
  else pure newsz

/-- The permissions of a user page. -/
def userPerm : Pte := ⟨0, true, true, true, true, true⟩

/-- `uvminit`; the result is whether memory sufficed. -/
def uvminit (root : Nat) (src : List UInt8) : Code Bool :=
  if PGSIZE ≤ src.length then do
    op (.panic .uvminit)
    pure false
  else do
    let r ← kalloc
    match r with
    | none => pure false
    | some mem =>
      op (.clear mem)
      let ok ← mappages root (0 * PGSIZE) PGSIZE mem userPerm
      if ok then
        op (.fill mem 0 src)
        pure true
      else pure false

/-- The loop of `uvmalloc` from page `a` on, `n` pages. -/
def uvmallocFrom (root old : Nat) : (n a : Nat) → Code Bool
  | 0, _ => pure true
  | n + 1, a => do
    let r ← kalloc
    match r with
    | none =>
      let _ ← uvmdealloc root (a * PGSIZE) (old * PGSIZE)
      pure false
    | some mem =>
      op (.clear mem)
      let ok ← mappages root (a * PGSIZE) PGSIZE mem userPerm
      if ok then uvmallocFrom root old n (a + 1)
      else
        op (.kfree mem)
        let _ ← uvmdealloc root (a * PGSIZE) (old * PGSIZE)
        pure false

/-- `uvmalloc`; the result is 0 on error. -/
def uvmalloc (root oldsz newsz : Nat) : Code Nat :=
  if newsz < oldsz then pure oldsz
  else do
    let ok ← uvmallocFrom root (pages oldsz) (pages newsz - pages oldsz) (pages oldsz)
    pure (if ok then newsz else 0)

/-- The loop of `freewalk` over the entries of a page; `child` frees a lower-level one. -/
def freeEntries (child : Nat → Code Unit) (page : Nat) : List (Fin 512) → Code Unit
  | [] => pure ()
  | i :: is => do
    let e : Pte ← op (.pte page i)
    if e.v && !e.rwx then
      child e.page
      op (.setPte page i .zero)
      freeEntries child page is
    else if e.v then op (.panic .freewalkLeaf)
    else freeEntries child page is

/-- The indices of a page-table page, in order. -/
@[irreducible]
def indices : List (Fin 512) := List.finRange 512

def freewalk : (depth page : Nat) → Code Unit
  | 0, _ => op .stop
  | depth + 1, page => do
    freeEntries (freewalk depth) page indices
    op (.kfree page)

def uvmfree (root sz : Nat) : Code Unit :=
  if 0 < sz then do
    uvmunmap root 0 (pages sz) true
    freewalk 3 root
  else freewalk 3 root

/-- The loop of `uvmcopy` from page `i` on, `n` pages. -/
def uvmcopyFrom (old new : Nat) : (n i : Nat) → Code Bool
  | 0, _ => pure true
  | n + 1, i => do
    let r ← walk old i false
    match r with
    | none =>
      op (.panic .copyExist)
      pure false
    | some (a, k) =>
      let e : Pte ← op (.pte a k)
      if e.v = false then
        op (.panic .copyPresent)
        pure false
      else
        let r ← kalloc
        match r with
        | none =>
          uvmunmap new 0 i true
          pure false
        | some mem =>
          op (.move mem e.page PGSIZE)
          let ok ← mappages new (i * PGSIZE) PGSIZE mem e
          if ok then uvmcopyFrom old new n (i + 1)
          else
            op (.kfree mem)
            uvmunmap new 0 i true
            pure false

def uvmcopy (old new sz : Nat) : Code Bool := uvmcopyFrom old new (pages sz) 0

def uvmclear (root va : Nat) : Code Unit := do
  let r ← walk root (va / PGSIZE) false
  match r with
  | none => op (.panic .uvmclear)
  | some (a, i) =>
    let e : Pte ← op (.pte a i)
    op (.setPte a i { e with u := false })

end Xv6.Vm
