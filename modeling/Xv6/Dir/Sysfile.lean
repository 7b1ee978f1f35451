import Xv6.Dir.Code

/-!
# The file system calls of `sysfile.c`, `file.c` and `exec.c`

What `argstr` finds in user memory is an argument here: `none` if it fails. So are the bytes that
`copyin` delivers to a write, whether `copyout` succeeds in a read, the ranges of the program file
that the headers make `exec` read, and what pipes and devices return.
-/

namespace Xv6.Dir

open Lib

/-! ## `kernel/fcntl.h` -/

def O_RDONLY : Nat := 0x000
def O_WRONLY : Nat := 0x001
def O_RDWR : Nat := 0x002
def O_CREATE : Nat := 0x200
def O_TRUNC : Nat := 0x400

/-- `omode & flag` as a condition. -/
def has (omode flag : Nat) : Bool := omode &&& flag != 0

/-! ## `sysfile.c` -/

/-- The label `bad` of `sys_link`. -/
def linkBad (ip : IId) : Code Int := do
  ilock ip
  update ip Node.decr
  iunlockput ip
  endOp
  return -1

/-- `sys_link` from `nameiparent` on. -/
def linkNew (ip : IId) (new : Path) : Code Int := do
  let parent ← nameiparent new
  match parent with
  | none => linkBad ip
  | some (dp, name) =>
    ilock dp
    let inum : Nat ← op (.inum ip)
    let ok ← dirlink dp name inum
    if !ok then
      iunlockput dp
      linkBad ip
    else
      iunlockput dp
      iput ip
      endOp
      return 0

def sysLink (old new : Option Path) : Code Int :=
  match old, new with
  | some old, some new => do
    beginOp
    let found ← namei old
    match found with
    | none =>
      endOp
      return -1
    | some (ip, _) =>
      ilock ip
      let x : Node ← op (.inode ip)
      if x.type = .dir then
        iunlockput ip
        endOp
        return -1
      else
        update ip Node.incr
        iunlock ip
        linkNew ip new
  | _, _ => return -1

/-- The loop of `isdirempty` from `off` on. -/
def isdiremptyFrom (dp : IId) : (fuel off : Nat) → Code Bool
  | 0, _ => return true
  | fuel + 1, off => do
    let x : Node ← op (.inode dp)
    if off < x.data.length then
      let bs : List UInt8 ← op (.readi dp off DESIZE)
      if bs.length ≠ DESIZE then panic .isdiremptyReadi
      else if (Dirent.ofBytes bs).inum ≠ 0 then return false
      else isdiremptyFrom dp fuel (off + DESIZE)
    else return true

def isdirempty (dp : IId) : Code Bool := do
  let x : Node ← op (.inode dp)
  isdiremptyFrom dp (x.data.length + 1) (2 * DESIZE)

/-- The label `bad` of `sys_unlink`. -/
def unlinkBad (dp : IId) : Code Int := do
  iunlockput dp
  endOp
  return -1

/-- `sys_unlink` once the entry at `off` is to be erased. -/
def erase (dp ip : IId) (off : Nat) (isDir : Bool) : Code Int := do
  let r : Int ← op (.writei dp off DESIZE Dirent.zero.bytes)
  if r ≠ DESIZE then panic .unlinkWritei
  else
    if isDir then update dp Node.decr
    iunlockput dp
    update ip Node.decr
    iunlockput ip
    endOp
    return 0

def sysUnlink (path : Option Path) : Code Int :=
  match path with
  | none => return -1
  | some path => do
    beginOp
    let parent ← nameiparent path
    match parent with
    | none =>
      endOp
      return -1
    | some (dp, name) =>
      ilock dp
      if namecmp name dotName || namecmp name dotdotName then unlinkBad dp
      else
        let found ← dirlookup dp name
        match found with
        | none => unlinkBad dp
        | some (ip, off) =>
          ilock ip
          let x : Node ← op (.inode ip)
          if x.nlink < 1 ∨ 2 ^ 15 ≤ x.nlink then panic .unlinkNlink
          else if x.type = .dir then
            let empty ← isdirempty ip
            if !empty then
              iunlockput ip
              unlinkBad dp
            else erase dp ip off true
          else erase dp ip off false

variable (sb : Superblock)

/-- `create` once the new inode is allocated. -/
def createIn (dp ip : IId) (name : List UInt8) (type : IType) (major minor : Nat) :
    Code (Option IId) := do
  ilock ip
  update ip fun x => { x with major, minor, nlink := 1 }
  let inum : Nat ← op (.inum ip)
  if type = .dir then
    update dp Node.incr
    let ok ← dirlink ip dotName inum
    if !ok then panic .createDots
    else
      let parent : Nat ← op (.inum dp)
      let ok ← dirlink ip dotdotName parent
      if !ok then panic .createDots
      else
        let ok ← dirlink dp name inum
        if !ok then panic .createDirlink
        else
          iunlockput dp
          return some ip
  else
    let ok ← dirlink dp name inum
    if !ok then panic .createDirlink
    else
      iunlockput dp
      return some ip

def create (path : Path) (type : IType) (major minor : Nat) : Code (Option IId) := do
  let parent ← nameiparent path
  match parent with
  | none => return none
  | some (dp, name) =>
    ilock dp
    let found ← dirlookup dp name
    match found with
    | some (ip, _) =>
      iunlockput dp
      ilock ip
      let x : Node ← op (.inode ip)
      if type = .file ∧ (x.type = .file ∨ x.type = .device) then return some ip
      else
        iunlockput ip
        return none
    | none =>
      let ip ← ialloc sb type
      createIn dp ip name type major minor

def pipeclose (pi : Nat) (writable : Bool) : Code Unit := do
  let last : Bool ← op (.pipeclose pi writable)
  if last then op (.kfree pi)

def fileclose (f : FId) : Code Unit := do
  let closed : Option File ← op (.fileclose f)
  match closed with
  | none => return ()
  | some ff =>
    if ff.type = .pipe then pipeclose ff.pipe ff.writable
    else if ff.type = .inode ∨ ff.type = .device then
      beginOp
      iput ff.ip
      endOp

/-- `sys_open` once it has a file and a descriptor. -/
def openFile (ip : IId) (x : Node) (f : FId) (fd : Fd) (omode : Nat) : Code Int := do
  let ff : File ← op (.file f)
  op (.setFile f { ff with
    type := if x.type = .device then .device else .inode
    major := if x.type = .device then x.major else ff.major
    off := if x.type = .device then ff.off else 0
    ip
    readable := !has omode O_WRONLY
    writable := has omode O_WRONLY || has omode O_RDWR })
  if has omode O_TRUNC ∧ x.type = .file then op (.itrunc ip)
  iunlock ip
  endOp
  return fd.val

/-- `sys_open` with its inode locked. -/
def openInode (ip : IId) (omode : Nat) : Code Int := do
  let x : Node ← op (.inode ip)
  if x.type = .device ∧ (2 ^ 15 ≤ x.major ∨ NDEV ≤ x.major) then
    iunlockput ip
    endOp
    return -1
  else
    let f : Option FId ← op .filealloc
    match f with
    | none =>
      iunlockput ip
      endOp
      return -1
    | some f =>
      let fd : Option Fd ← op (.fdalloc f)
      match fd with
      | none =>
        fileclose f
        iunlockput ip
        endOp
        return -1
      | some fd => openFile ip x f fd omode

def sysOpen (path : Option Path) (omode : Nat) : Code Int :=
  match path with
  | none => return -1
  | some path => do
    beginOp
    if has omode O_CREATE then
      let ip ← create sb path .file 0 0
      match ip with
      | none =>
        endOp
        return -1
      | some ip => openInode ip omode
    else
      let found ← namei path
      match found with
      | none =>
        endOp
        return -1
      | some (ip, _) =>
        ilock ip
        let x : Node ← op (.inode ip)
        if x.type = .dir ∧ omode ≠ O_RDONLY then
          iunlockput ip
          endOp
          return -1
        else openInode ip omode

/-- The calls that only make an inode: `sys_mkdir` and `sys_mknod`. -/
def sysMake (path : Option Path) (type : IType) (major minor : Nat) : Code Int := do
  beginOp
  match path with
  | none =>
    endOp
    return -1
  | some path =>
    let ip ← create sb path type major minor
    match ip with
    | none =>
      endOp
      return -1
    | some ip =>
      iunlockput ip
      endOp
      return 0

def sysMkdir (path : Option Path) : Code Int := sysMake sb path .dir 0 0

/-- `major` and `minor` are passed on as `short`. -/
def sysMknod (path : Option Path) (major minor : Nat) : Code Int :=
  sysMake sb path .device (major % 2 ^ 16) (minor % 2 ^ 16)

def sysChdir (path : Option Path) : Code Int := do
  beginOp
  match path with
  | none =>
    endOp
    return -1
  | some path =>
    let found ← namei path
    match found with
    | none =>
      endOp
      return -1
    | some (ip, _) =>
      ilock ip
      let x : Node ← op (.inode ip)
      if x.type ≠ .dir then
        iunlockput ip
        endOp
        return -1
      else
        iunlock ip
        let c : IId ← op .cwd
        iput c
        endOp
        op (.setCwd (some ip))
        return 0

def sysClose (fd : Fd) : Code Int := do
  let f : Option FId ← op (.fd fd)
  match f with
  | none => return -1
  | some f =>
    op (.fdclear fd)
    fileclose f
    return 0

def sysDup (fd : Fd) : Code Int := do
  let f : Option FId ← op (.fd fd)
  match f with
  | none => return -1
  | some f =>
    let fd : Option Fd ← op (.fdalloc f)
    match fd with
    | none => return -1
    | some fd =>
      op (.filedup f)
      return fd.val

/-- `pipealloc` once both files and the page are there. -/
def pipeFiles (f0 f1 : FId) (pi : Nat) : Code Unit := do
  let ff0 : File ← op (.file f0)
  op (.setFile f0 { ff0 with type := .pipe, readable := true, writable := false, pipe := pi })
  let ff1 : File ← op (.file f1)
  op (.setFile f1 { ff1 with type := .pipe, readable := false, writable := true, pipe := pi })

def pipealloc : Code (Option (FId × FId)) := do
  let f0 : Option FId ← op .filealloc
  match f0 with
  | none => return none
  | some f0 =>
    let f1 : Option FId ← op .filealloc
    match f1 with
    | none =>
      fileclose f0
      return none
    | some f1 =>
      let pi : Option Nat ← op .pipeNew
      match pi with
      | none =>
        fileclose f0
        fileclose f1
        return none
      | some pi =>
        pipeFiles f0 f1 pi
        return some (f0, f1)

/-- The error exits of `sys_pipe`. -/
def pipeBad (fds : List Fd) (rf wf : FId) : Code Int :=
  match fds with
  | [] => do
    fileclose rf
    fileclose wf
    return -1
  | fd :: fds => do
    op (.fdclear fd)
    pipeBad fds rf wf

/-- `mapped` says whether `copyout` succeeds. -/
def sysPipe (mapped : Bool) : Code Int := do
  let files ← pipealloc
  match files with
  | none => return -1
  | some (rf, wf) =>
    let fd0 : Option Fd ← op (.fdalloc rf)
    match fd0 with
    | none => pipeBad [] rf wf
    | some fd0 =>
      let fd1 : Option Fd ← op (.fdalloc wf)
      match fd1 with
      | none => pipeBad [fd0] rf wf
      | some fd1 => if mapped then return 0 else pipeBad [fd0, fd1] rf wf

/-! ## `fork`, `exit`, `exec`, `read`, `write` and `fstat` -/

/-- The loop of `fork` over the descriptors. -/
def dupFiles : List Fd → Code Unit
  | [] => return ()
  | fd :: fds => do
    let f : Option FId ← op (.fd fd)
    match f with
    | none => dupFiles fds
    | some f =>
      op (.filedup f)
      op (.childFd fd f)
      dupFiles fds

/-- The part of `fork` that concerns the file system; `copied` says whether `uvmcopy` succeeds. -/
def fork (copied : Bool) : Code Int := do
  let found : Bool ← op .allocproc
  if !found then return -1
  else if !copied then
    op .freeproc
    return -1
  else
    dupFiles (List.finRange NOFILE)
    let c : IId ← op .cwd
    op (.idup c)
    op (.childCwd c)
    op .runnable
    return 0

/-- The loop of `exit` that closes the files. -/
def closeFiles : List Fd → Code Unit
  | [] => return ()
  | fd :: fds => do
    let f : Option FId ← op (.fd fd)
    match f with
    | none => closeFiles fds
    | some f =>
      fileclose f
      op (.fdclear fd)
      closeFiles fds

/-- The part of `exit` that concerns the file system. -/
def exit : Code Int := do
  closeFiles (List.finRange NOFILE)
  beginOp
  let c : IId ← op .cwd
  iput c
  endOp
  op (.setCwd none)
  op .zombie
  return 0

def readRanges (ip : IId) : List (Nat × Nat) → Code Unit
  | [] => return ()
  | (off, n) :: rest => do
    let _ : List UInt8 ← op (.readi ip off n)
    readRanges ip rest

/-- The part of `exec` that concerns the file system. -/
def execFile (path : Path) (reads : List (Nat × Nat)) : Code Int := do
  beginOp
  let found ← namei path
  match found with
  | none =>
    endOp
    return -1
  | some (ip, _) =>
    ilock ip
    readRanges ip reads
    iunlockput ip
    endOp
    return 0

/-- What a pipe or device does in a call: how often it sleeps and what it returns. -/
structure Transfer where
  rounds : Nat
  result : Int

/-- `piperead` or `pipewrite`, which sleeps `rounds` times. -/
def pipeRounds (pi : Nat) : (rounds : Nat) → Code Unit
  | 0 => op (.pipeAccess pi)
  | rounds + 1 => do
    op (.pipeAccess pi)
    pipeRounds pi rounds

def pipeTransfer (pi : Nat) (io : Transfer) : Code Int := do
  pipeRounds pi io.rounds
  return io.result

def fileread (f : FId) (n : Nat) (mapped : Bool) (io : Transfer) : Code Int := do
  let ff : File ← op (.file f)
  if !ff.readable then return -1
  else if ff.type = .pipe then pipeTransfer ff.pipe io
  else if ff.type = .inode then
    ilock ff.ip
    let y : File ← op (.file f)
    let bs : List UInt8 ← op (.readi ff.ip y.off n)
    if mapped ∧ bs ≠ [] then op (.setOff f (y.off + bs.length))
    iunlock ff.ip
    return if mapped then bs.length else -1
  else if ff.type = .none then panic .fileread
  else return io.result

/-- The loop of `filewrite`; `src i n` are the bytes that `copyin` delivers. -/
def filewriteFrom (f : FId) (ip : IId) (n : Nat) (src : Nat → Nat → List UInt8) :
    (fuel i : Nat) → Code Int
  | 0, _ => return -1
  | fuel + 1, i =>
    if i < n then do
      let n1 := min (n - i) ((MAXOPBLOCKS - 1 - 1 - 2) / 2 * BSIZE)
      beginOp
      ilock ip
      let y : File ← op (.file f)
      let r : Int ← op (.writei ip y.off n1 (src i n1))
      if 0 < r then op (.setOff f (y.off + r.toNat))
      iunlock ip
      endOp
      if r ≠ n1 then return -1
      else filewriteFrom f ip n src fuel (i + n1)
    else return n

def filewrite (f : FId) (n : Nat) (src : Nat → Nat → List UInt8) (io : Transfer) : Code Int := do
  let ff : File ← op (.file f)
  if !ff.writable then return -1
  else if ff.type = .pipe then pipeTransfer ff.pipe io
  else if ff.type = .inode then filewriteFrom f ff.ip n src (n + 1) 0
  else if ff.type = .none then panic .filewrite
  else return io.result

def filestat (f : FId) (mapped : Bool) : Code Int := do
  let ff : File ← op (.file f)
  if ff.type = .inode ∨ ff.type = .device then
    ilock ff.ip
    let _ : Node ← op (.inode ff.ip)
    iunlock ff.ip
    return if mapped then 0 else -1
  else return -1

/-- A call through a descriptor. -/
def withFile (fd : Fd) (k : FId → Code Int) : Code Int := do
  let f : Option FId ← op (.fd fd)
  match f with
  | none => return -1
  | some f => k f

/-! ## Runs -/

/-- The calls of a process. -/
inductive Call where
  | link (old new : Option Path)
  | unlink (path : Option Path)
  | openAt (path : Option Path) (omode : Nat)
  | mkdir (path : Option Path)
  | mknod (path : Option Path) (major minor : Nat)
  | chdir (path : Option Path)
  | close (fd : Fd)
  | dup (fd : Fd)
  | pipe (mapped : Bool)
  | fork (copied : Bool)
  | exit
  | exec (path : Path) (reads : List (Nat × Nat))
  | read (fd : Fd) (n : Nat) (mapped : Bool) (io : Transfer)
  | write (fd : Fd) (n : Nat) (src : Nat → Nat → List UInt8) (io : Transfer)
  | fstat (fd : Fd) (mapped : Bool)

def Call.code : Call → Code Int
  | .link old new => sysLink old new
  | .unlink path => sysUnlink path
  | .openAt path omode => sysOpen sb path omode
  | .mkdir path => sysMkdir sb path
  | .mknod path major minor => sysMknod sb path major minor
  | .chdir path => sysChdir path
  | .close fd => sysClose fd
  | .dup fd => sysDup fd
  | .pipe mapped => sysPipe mapped
  | .fork copied => Dir.fork copied
  | .exit => Dir.exit
  | .exec path reads => execFile path reads
  | .read fd n mapped io => withFile fd fun f => fileread f n mapped io
  | .write fd n src io => withFile fd fun f => filewrite f n src io
  | .fstat fd mapped => withFile fd fun f => filestat f mapped

variable {P : Type} [DecidableEq P] [Fintype P]

/-- Processes that make calls in any interleaving, on the runs whose operations meet `guard`. The
space in the log comes and goes, and so do free blocks; the rest of the kernel takes pages and frees
them, but none that is a pipe; `wait` reaps processes that have exited. -/
def system (guard : P → Op → St P → Prop) : System iface (St P) Panic P where
  exec := exec sb
  guard := guard
  calls p s x := s.stage p = .live ∧ ∃ c : Call, x = (c.code sb).bind fun _ => .ret ()
  env s s' := ∃ room bmap spare free stage, free.Nodup ∧ (∀ pi ∈ free, s.pipe pi = none) ∧
    (∀ q, stage q = s.stage q ∨ s.stage q = .zombie ∧ stage q = .unused) ∧
    s' = { s with room, bmap, spare, free, stage }

end Xv6.Dir
