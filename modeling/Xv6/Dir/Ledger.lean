import Xv6.Dir.Protocol
import Mathlib.Algebra.BigOperators.Pi
import Mathlib.Algebra.Order.BigOperators.Group.Finset

/-!
# Who holds which references

Auxiliary state of the runs: how many pointers to each inode, references to each file and loose ends
of pipes a process holds, and the copy of a dinode it relies on. The operations of a process are
booked on its own account, except that a new process gets its references from `fork`.
-/

namespace Xv6.Dir

open Lib

structure Ledger (P : Type) where
  /-- Pointers to inodes, current directories included. -/
  refs : P → IId → ℤ
  files : P → FId → ℤ
  /-- Open ends of pipes that no file refers to. -/
  ends : P → Nat × Bool → ℤ
  /-- Pipes to be freed. -/
  corpses : P → Nat → ℤ
  /-- The dinode as the process last read or wrote it. -/
  seen : P → IId → Node

variable {P : Type}

namespace File

variable (x : File)

/-- The file is one on an inode. -/
def Refers : Prop := x.type = .inode ∨ x.type = .device

instance : Decidable x.Refers := inferInstanceAs (Decidable (_ ∨ _))

/-- An open file on inode `i`. -/
def Holds (i : IId) : Prop := 0 < x.ref ∧ x.Refers ∧ x.ip = i

instance (i : IId) : Decidable (x.Holds i) := inferInstanceAs (Decidable (_ ∧ _))

/-- An open file that is the given end of a pipe. -/
def EndOf (e : Nat × Bool) : Prop := 0 < x.ref ∧ x.type = .pipe ∧ (x.pipe, x.writable) = e

instance (e : Nat × Bool) : Decidable (x.EndOf e) := inferInstanceAs (Decidable (_ ∧ _))

end File

/-- The open files on inode `i`. -/
def fileRefs (file : FId → File) (i : IId) : ℤ := ∑ f, if (file f).Holds i then 1 else 0

/-- The open files that are the given end of a pipe. -/
def fileEnds (file : FId → File) (e : Nat × Bool) : ℤ := ∑ f, if (file f).EndOf e then 1 else 0

/-- Whether an end of a pipe is open. -/
def Pipe.isOpen (x : Option Pipe) (w : Bool) : Bool :=
  match x with
  | none => false
  | some x => if w then x.writeopen else x.readopen

def openEnds (pipe : Nat → Option Pipe) (e : Nat × Bool) : ℤ :=
  if Pipe.isOpen (pipe e.1) e.2 then 1 else 0

/-- A pipe that is closed at both ends. -/
def deadPipes (pipe : Nat → Option Pipe) (pi : Nat) : ℤ :=
  if pipe pi = some ⟨false, false⟩ then 1 else 0

/-! ## What an operation is worth -/

def gainRefs : (o : Op) → o.Res → IId → ℤ
  | .iget _, i => Pi.single i 1
  | .idup i, _ => Pi.single i 1
  | .iputTest i, false => -Pi.single i 1
  | .iputDrop i, _ => -Pi.single i 1
  | .fileclose _, some x => if x.Refers then Pi.single x.ip 1 else 0
  | .setFile _ x, _ => if x.Refers then -Pi.single x.ip 1 else 0
  | _, _ => 0

def gainFiles : (o : Op) → o.Res → FId → ℤ
  | .filealloc, some f => Pi.single f 1
  | .filedup f, _ => Pi.single f 1
  | .fileclose f, _ => -Pi.single f 1
  | _, _ => 0

def gainEnds : (o : Op) → o.Res → Nat × Bool → ℤ
  | .pipeNew, some pi => Pi.single (pi, false) 1 + Pi.single (pi, true) 1
  | .pipeclose pi w, _ => -Pi.single (pi, w) 1
  | .fileclose _, some x => if x.type = .pipe then Pi.single (x.pipe, x.writable) 1 else 0
  | .setFile _ x, _ => if x.type = .pipe then -Pi.single (x.pipe, x.writable) 1 else 0
  | _, _ => 0

def gainCorpses : (o : Op) → o.Res → Nat → ℤ
  | .pipeclose pi _, true => Pi.single pi 1
  | .kfree pi, _ => -Pi.single pi 1
  | _, _ => 0

variable [DecidableEq P]

/-- Give the new process of `p` its part of an account. -/
def hand {A : Type} [AddCommGroup A] (s : St P) (p : P) (part : P → A) (share : P → A) : P → A :=
  match s.child p with
  | some q => Function.update (Function.update share p (share p - part q)) q (share q + part q)
  | none => share

/-- Book an operation of `p`. -/
def enter {A : Type} [AddCommGroup A] (s : St P) (p : P) (o : Op) (gain : A) (part : P → A)
    (share : P → A) : P → A :=
  match o with
  | .runnable => hand s p part share
  | _ => Function.update share p (share p + gain)

/-- The pointer that is a current directory. -/
def cwdCount (c : Option IId) : IId → ℤ := fun i => if c = some i then 1 else 0

/-- The copy of a dinode that an operation leaves the process with. -/
def copyOf (s' : St P) : (o : Op) → o.Res → Option (IId × Node)
  | .load i, _ | .iputTest i, true => some (i, (s'.inode i).node)
  | .iupdate i, _ | .writei i .., _ | .itrunc i, _ => some (i, s'.disk (s'.inode i).inum)
  | _, _ => none

def see (p : P) (copy : Option (IId × Node)) (seen : P → IId → Node) : P → IId → Node :=
  match copy with
  | some (i, x) => Function.update seen p (Function.update (seen p) i x)
  | none => seen

/-- The auxiliary state after an operation of `p`. -/
def Ledger.next (p : P) (o : Op) (r : o.Res) (s s' : St P) (g : Ledger P) : Ledger P where
  refs := enter s p o (gainRefs o r) (fun q => cwdCount (s.cwd q)) g.refs
  files := enter s p o (gainFiles o r) (fun q f => fdFiles (s.ofile q) f) g.files
  ends := enter s p o (gainEnds o r) 0 g.ends
  corpses := enter s p o (gainCorpses o r) 0 g.corpses
  seen := see p (copyOf s' o r) g.seen

end Xv6.Dir
