import Xv6.Dir.Boot

/-!
# Writes through a shared offset

Processes that share one `struct file` write in chunks, and others may run between two chunks. The
lock of the inode protects its content and the offset: when a process unlocks the inode, it has read
the offset, written there and moved the offset on.
-/

namespace Xv6.Dir

open Lib Function List

/-! ## Chunks -/

/-- A chunk that was written, and by whom. -/
structure Chunk (P : Type) where
  proc : P
  off : Nat
  bytes : List UInt8
  deriving DecidableEq

namespace Chunk

variable {P : Type}

/-- The bytes of the chunks, one chunk after the other. -/
def content (h : List (Chunk P)) : List UInt8 := h.flatMap (·.bytes)

/-- The first chunk is at `off`, each other one where the one before ends. -/
def Placed : Nat → List (Chunk P) → Prop
  | _, [] => True
  | off, c :: h => c.off = off ∧ Placed (off + c.bytes.length) h

/-- The chunks of one process. -/
def own [DecidableEq P] (p : P) (h : List (Chunk P)) : List (List UInt8) :=
  (h.filter (·.proc = p)).map (·.bytes)

variable {h : List (Chunk P)} {c : Chunk P} {off : Nat}

@[simp] theorem content_cons : content (c :: h) = c.bytes ++ content h := rfl

@[simp] theorem content_concat : content (h ++ [c]) = content h ++ c.bytes := by
  simp [content]

theorem Placed.concat (placed : Placed off h) (hc : c.off = off + (content h).length) :
    Placed off (h ++ [c]) := by
  induction h generalizing off with
  | nil => exact ⟨hc, trivial⟩
  | cons d h ih =>
    refine ⟨placed.1, ih placed.2 ?_⟩
    rw [hc, content_cons, length_append, Nat.add_assoc]

theorem Placed.le (placed : Placed off h) (hc : c ∈ h) : off ≤ c.off := by
  induction h generalizing off with
  | nil => cases hc
  | cons d h ih =>
    rcases mem_cons.1 hc with rfl | hc
    · exact placed.1.ge
    · exact (Nat.le_add_right ..).trans (ih placed.2 hc)

theorem Placed.pairwise (placed : Placed off h) :
    h.Pairwise fun c d => c.off + c.bytes.length ≤ d.off := by
  induction h generalizing off with
  | nil => exact .nil
  | cons c h ih =>
    refine .cons (fun d hd => ?_) (ih placed.2)
    rw [placed.1]
    exact placed.2.le hd

theorem Placed.slice {data : List UInt8} (placed : Placed off h) (fits : off ≤ data.length)
    (hc : c ∈ h) :
    slice (splice data off (content h)) c.off c.bytes.length = c.bytes := by
  induction h generalizing off data with
  | nil => cases hc
  | cons d h ih =>
    have hlen : off + d.bytes.length ≤ (splice data off d.bytes).length := by
      rw [length_splice fits]
      exact Nat.le_max_right ..
    rw [content_cons, ← splice_splice fits]
    rcases mem_cons.1 hc with rfl | hc
    · rw [placed.1, slice_splice_of_disjoint hlen (.inl le_rfl), slice_splice_self fits]
    · exact ih placed.2 hlen hc

variable [DecidableEq P] {p : P}

variable {bs : List UInt8}

theorem own_concat_self : own p (h ++ [⟨p, off, bs⟩]) = own p h ++ [bs] := by
  simp [own]

theorem own_concat_of_ne {q : P} (hq : q ≠ p) : own q (h ++ [⟨p, off, bs⟩]) = own q h := by
  simp [own, hq.symm]

end Chunk

/-- The arguments of a call of `filewrite`. -/
structure Write where
  n : Nat
  src : Nat → Nat → List UInt8
  io : Transfer

def maxWrite : Nat := (MAXOPBLOCKS - 1 - 1 - 2) / 2 * BSIZE

theorem maxWrite_eq : maxWrite = 3072 := rfl

namespace Write

variable (w : Write) {k : Nat}

def chunk (k : Nat) : List UInt8 :=
  let n1 := min (w.n - maxWrite * k) maxWrite
  (w.src (maxWrite * k) n1).take n1

def chunksFrom (k : Nat) : List (List UInt8) :=
  (range' k ((w.n + maxWrite - 1) / maxWrite - k)).map w.chunk

/-- The chunks that the call is to write. -/
def chunks : List (List UInt8) := w.chunksFrom 0

variable {w}

theorem chunksFrom_of_lt (h : maxWrite * k < w.n) :
    w.chunksFrom k = w.chunk k :: w.chunksFrom (k + 1) := by
  have hk : (w.n + maxWrite - 1) / maxWrite - k = (w.n + maxWrite - 1) / maxWrite -
      (k + 1) + 1 := by
    rw [maxWrite_eq] at h ⊢
    omega
  rw [chunksFrom, hk, range'_succ, map_cons, chunksFrom]

theorem chunksFrom_of_le (h : w.n ≤ maxWrite * k) : w.chunksFrom k = [] := by
  have hk : (w.n + maxWrite - 1) / maxWrite - k = 0 := by
    rw [maxWrite_eq] at h ⊢
    omega
  rw [chunksFrom, hk, range'_zero, map_nil]

end Write

/-- A process that makes these calls. -/
def writeAll (f : FId) : List Write → Code Unit
  | [] => return ()
  | w :: ws => do
    let _ ← filewrite f w.n w.src w.io
    writeAll f ws

/-! ## The rules -/

/-- How far a process is with a chunk. -/
inductive Phase where
  | out | acquired | loaded
  -- the offset is read
  | aimed (off : Nat)
  -- `n` bytes are written there
  | wrote (off n : Nat)

/-- The rules of the processes that write: each is in a phase and has chunks to write. -/
inductive Turn (f : FId) (i : IId) : Protocol iface (Phase × List (List UInt8))
  | log {o : Op} {todo : List (List UInt8)} (ho : o = .beginOp ∨ o = .endOp ∨ o = .commit) :
      Turn f i (.out, todo) o fun _ l => l = (.out, todo)
  | look {todo : List (List UInt8)} : Turn f i (.out, todo) (.file f) fun (y : File) l =>
      (y.type = .inode ∧ y.writable = true ∧ y.ip = i) ∧ l = (.out, todo)
  | acquire {bs : List UInt8} {todo : List (List UInt8)} :
      Turn f i (.out, bs :: todo) (.acquire i) fun _ l => l = (.acquired, bs :: todo)
  | load {todo : List (List UInt8)} :
      Turn f i (.acquired, todo) (.load i) fun _ l => l = (.loaded, todo)
  | aim {todo : List (List UInt8)} :
      Turn f i (.loaded, todo) (.file f) fun (y : File) l => l = (.aimed y.off, todo)
  | write {off n : Nat} {bs : List UInt8} {todo : List (List UInt8)} :
      Turn f i (.aimed off, bs.take n :: todo) (.writei i off n bs) fun (r : Int) l =>
        r = n ∧ l = (.wrote off n, todo)
  | move {off n : Nat} {todo : List (List UInt8)} :
      Turn f i (.wrote off n, todo) (.setOff f (off + n)) fun _ l => l = (.loaded, todo)
  | unlock {todo : List (List UInt8)} :
      Turn f i (.loaded, todo) (.iunlock i) fun _ l => l = (.out, todo)

/-- The program follows the rules. -/
abbrev Writes {α : Type} (f : FId) (i : IId) (l : Phase × List (List UInt8)) (x : Code α)
    (Q : α → Phase × List (List UInt8) → Prop) : Prop :=
  Does (Turn f i) l x Q

section Follow

variable {f : FId} {i : IId} {todo : List (List UInt8)}

namespace Writes

variable {α : Type} {l : Phase × List (List UInt8)} {Q : α → Phase × List (List UInt8) → Prop}

theorem op {o : Op} {R : iface.Res o → Phase × List (List UInt8) → Prop} {x : iface.Res o → Code α}
    (rule : Turn f i l o R) (next : ∀ r l', R r l' → Writes f i l' (x r) Q) :
    Writes f i l ((Dir.op o).bind x) Q :=
  Does.call rule next

variable {x : Code α}

theorem bind {β : Type} {Q' : β → Phase × List (List UInt8) → Prop} {y : α → Code β}
    (h : Writes f i l x Q) (hy : ∀ a l', Q a l' → Writes f i l' (y a) Q') :
    Writes f i l (x.bind y) Q' :=
  Does.bind h hy

theorem ite {c : Prop} [Decidable c] {y : Code α} (hx : c → Writes f i l x Q)
    (hy : ¬c → Writes f i l y Q) :
    Writes f i l (if c then x else y) Q := by
  split
  · exact hx ‹_›
  · exact hy ‹_›

end Writes

theorem ilock_writes {bs : List UInt8} :
    Writes f i (.out, bs :: todo) (ilock i) fun _ l => l = (.loaded, bs :: todo) := by
  refine .op .acquire ?_
  rintro - _ rfl
  exact .call .load fun _ _ h => .ret h

theorem endOp_writes : Writes f i (.out, todo) endOp fun _ l => l = (.out, todo) := by
  refine .call (.log (.inr (.inl rfl))) ?_
  rintro (b : Bool) _ rfl
  cases b with
  | false => exact .ret rfl
  | true => exact .call (.log (.inr (.inr rfl))) fun _ _ h => .ret h

theorem filewriteFrom_writes {w : Write} {fuel k : Nat} (hf : w.n - maxWrite * k < fuel) :
    Writes f i (.out, w.chunksFrom k ++ todo)
    (filewriteFrom f i w.n w.src fuel (min w.n (maxWrite * k)))
      fun _ l => l = (.out, todo) := by
  induction fuel generalizing k with
  | zero => exact absurd hf (Nat.not_lt_zero _)
  | succ fuel ih =>
    rw [filewriteFrom]
    by_cases hk : maxWrite * k < w.n
    · have hmin : min w.n (maxWrite * k) = maxWrite * k := Nat.min_eq_right hk.le
      have hnext : maxWrite * k + min (w.n - maxWrite * k) maxWrite =
          min w.n (maxWrite * (k + 1)) := by
        rw [maxWrite_eq] at hk ⊢
        omega
      have hpos : (0 : Int) < (min (w.n - maxWrite * k) maxWrite : Nat) := by
        rw [maxWrite_eq] at hk ⊢
        omega
      have hfuel : w.n - maxWrite * (k + 1) < fuel := by
        rw [maxWrite_eq] at hk hf ⊢
        omega
      rw [hmin, if_pos hk, Write.chunksFrom_of_lt hk, cons_append]
      refine .op (.log (.inl rfl)) ?_
      rintro - _ rfl
      refine .bind ilock_writes ?_
      rintro - _ rfl
      refine .op .aim ?_
      rintro (y : File) _ rfl
      refine .op .write ?_
      rintro (r : Int) _ ⟨rfl, rfl⟩
      refine .ite (fun _ => ?_) fun h => absurd hpos h
      refine .op .move ?_
      rintro - _ rfl
      refine .op .unlock ?_
      rintro - _ rfl
      refine .bind endOp_writes ?_
      rintro - _ rfl
      refine .ite (fun h => absurd rfl h) fun _ => ?_
      rw [← maxWrite, hnext]
      exact ih hfuel
    · have hmin : min w.n (maxWrite * k) = w.n := Nat.min_eq_left (Nat.le_of_not_lt hk)
      rw [hmin, if_neg (lt_irrefl _), Write.chunksFrom_of_le (Nat.le_of_not_lt hk)]
      exact .ret rfl

theorem writeAll_writes (ws : List Write) :
    Writes f i (.out, ws.flatMap Write.chunks) (writeAll f ws) fun _ l => l = (.out, []) := by
  induction ws with
  | nil => exact .ret rfl
  | cons w ws ih =>
    rw [flatMap_cons, writeAll]
    refine Writes.bind (Q := fun _ l => l = (.out, ws.flatMap Write.chunks)) ?_ ?_
    · refine .op .look ?_
      rintro (y : File) _ ⟨⟨hty, hw, rfl⟩, rfl⟩
      rw [hw, hty]
      have h :=
        @filewriteFrom_writes f y.ip (ws.flatMap Write.chunks) w (w.n + 1) 0 (Nat.lt_succ_self _)
      rwa [Nat.mul_zero, Nat.min_zero] at h
    · rintro - _ rfl
      exact ih

end Follow

/-! ## The system -/

section Shared

variable {P : Type} (sb : Superblock) (f : FId) (i : IId) (jobs : P → List Write)

/-- `writei`, if it is executed, writes everything. -/
def writesAll [DecidableEq P] [Fintype P] (p : P) (o : Op) (s : St P) : Bool :=
  match o with
  | .writei i off n bs =>
    match exec sb p (.writei i off n bs) s with
    | .ok (r, _) => r = (n : Int)
    | _ => true
  | _ => true

/-- No process that is to write has the inode locked. -/
def Unheld (s : St P) : Prop := ∀ p, (s.inode i).lock = some p → jobs p = []

/-- The copy of the content in memory, if there is one, is right. -/
def Fresh (s : St P) : Prop :=
  (s.inode i).valid = true → (s.inode i).node.data = (s.disk (s.inode i).inum).data

/-- What other processes may do: they neither change the content of the file nor its offset. They
may lock the inode, read it in, change it otherwise, and count references. -/
structure Bystander (s s' : St P) : Prop where
  file : s'.file f = { s.file f with ref := (s'.file f).ref }
  inum : (s'.inode i).inum = (s.inode i).inum
  data : (s'.disk (s.inode i).inum).data = (s.disk (s.inode i).inum).data
  lock : (s'.inode i).lock = (s.inode i).lock ∨ Unheld i jobs s ∧ Unheld i jobs s'
  valid : (s.inode i).valid = true → ¬Unheld i jobs s → (s'.inode i).valid = true
  fresh : Fresh i s → Fresh i s'

/-- Processes that write through `f`, on the runs in which every `writei` succeeds; the others do
not write the file. -/
def sharers [DecidableEq P] [Fintype P] : System iface (St P) Panic P where
  exec := exec sb
  guard p o s := writesAll sb p o s = true
  calls _ _ _ := False
  env := Bystander f i jobs

/-- Record a chunk that is written. -/
def record (p : P) : (o : Op) → o.Res → St P → St P → List (Chunk P) → List (Chunk P)
  | .writei _ off n bs, _, _, _, h => h ++ [⟨p, off, bs.take n⟩]
  | _, _, _, _, h => h

/-- File `f` is open for writing on inode entry `i`. -/
structure Shares (s : St P) : Prop where
  type : (s.file f).type = .inode
  writable : (s.file f).writable = true
  ip : (s.file f).ip = i
  unheld : Unheld i jobs s
  fresh : Fresh i s

/-! ## The invariant -/

variable (s₀ : St P)

/-- Where the chunks written so far end. -/
def tip (h : List (Chunk P)) : Nat := (s₀.file f).off + (Chunk.content h).length

structure SharedInv [DecidableEq P] (s : St P × List (Chunk P)) : Prop where
  type : (s.1.file f).type = .inode
  writable : (s.1.file f).writable = true
  ip : (s.1.file f).ip = i
  inum : (s.1.inode i).inum = (s₀.inode i).inum
  data : (s.1.disk (s₀.inode i).inum).data =
    splice (s₀.disk (s₀.inode i).inum).data (s₀.file f).off (Chunk.content s.2)
  fits : s.2 ≠ [] → (s₀.file f).off ≤ (s₀.disk (s₀.inode i).inum).data.length
  placed : Chunk.Placed (s₀.file f).off s.2
  order : ∀ p, Chunk.own p s.2 <+: (jobs p).flatMap Write.chunks
  off : Unheld i jobs s.1 → (s.1.file f).off = tip f s₀ s.2
  fresh : Fresh i s.1

/-- What a process in the phase knows. -/
def Phase.Right (p : P) (s : St P × List (Chunk P)) : Phase → Prop
  | .out => ¬((s.1.inode i).lock = some p ∧ jobs p ≠ [])
  | .acquired => ((s.1.inode i).lock = some p ∧ jobs p ≠ []) ∧ (s.1.file f).off = tip f s₀ s.2
  | .loaded => ((s.1.inode i).lock = some p ∧ jobs p ≠ []) ∧ (s.1.inode i).valid = true ∧
      (s.1.file f).off = tip f s₀ s.2
  | .aimed off => ((s.1.inode i).lock = some p ∧ jobs p ≠ []) ∧ (s.1.inode i).valid = true ∧
      (s.1.file f).off = off ∧ off = tip f s₀ s.2
  | .wrote off n => ((s.1.inode i).lock = some p ∧ jobs p ≠ []) ∧ (s.1.inode i).valid = true ∧
      off + n = tip f s₀ s.2

/-- The knowledge of a process: its phase, and what it is still to write. -/
def Stands [DecidableEq P] (p : P) (l : Phase × List (List UInt8))
    (s : St P × List (Chunk P)) : Prop :=
  l.1.Right f i jobs s₀ p s ∧ Chunk.own p s.2 ++ l.2 = (jobs p).flatMap Write.chunks

variable {f i jobs s₀} {p q : P} {s s' : St P} {h h' : List (Chunk P)} {φ : Phase}
  {todo : List (List UInt8)}

theorem inode_setInode (x : InCore P) : (s.setInode i x).inode i = x := update_self ..

theorem Phase.Right.eq_out (hφ : φ.Right f i jobs s₀ p (s, h)) (hp : (s.inode i).lock ≠ some p) :
    φ = .out := by
  cases φ with
  | out => rfl
  | acquired => exact absurd hφ.1.1 hp
  | loaded => exact absurd hφ.1.1 hp
  | aimed => exact absurd hφ.1.1 hp
  | wrote => exact absurd hφ.1.1 hp

variable [DecidableEq P]

variable {l : Phase × List (List UInt8)}

/-- A process that does not have the lock notices nothing. -/
theorem Stands.other (hl : Stands f i jobs s₀ q l (s, h))
    (hq : (s.inode i).lock ≠ some q) (hq' : (s'.inode i).lock ≠ some q)
    (own : Chunk.own q h' = Chunk.own q h) :
    Stands f i jobs s₀ q l (s', h') := by
  obtain ⟨φ, todo⟩ := l
  obtain ⟨hφ, hown⟩ := hl
  obtain rfl := hφ.eq_out hq
  exact ⟨fun h => hq' h.1, own ▸ hown⟩

theorem Stands.log (hl : Stands f i jobs s₀ q l (s, h)) (busy : P → Bool)
    (committing : Option P) : Stands f i jobs s₀ q l ({ s with busy, committing }, h) := by
  obtain ⟨φ, todo⟩ := l
  cases φ with
  | out => exact hl
  | acquired => exact hl
  | loaded => exact hl
  | aimed => exact hl
  | wrote => exact hl

theorem SharedInv.log (hI : SharedInv f i jobs s₀ (s, h)) (busy : P → Bool)
    (committing : Option P) :
    SharedInv f i jobs s₀ ({ s with busy, committing }, h) :=
  { hI with }

theorem SharedInv.setInode {x : InCore P} (hI : SharedInv f i jobs s₀ (s, h))
    (inum : x.inum = (s.inode i).inum)
    (fresh : x.valid = true → x.node.data = (s.disk (s.inode i).inum).data)
    (off : (∀ p, x.lock = some p → jobs p = []) → (s.file f).off = tip f s₀ h) :
    SharedInv f i jobs s₀ (s.setInode i x, h) := by
  refine { hI with inum := ?_, off := fun hu => ?_, fresh := fun hv => ?_ }
  · rw [inode_setInode, inum, hI.inum]
  · exact off fun p hp => hu p (by rw [inode_setInode, hp])
  · rw [inode_setInode] at hv ⊢
    rw [fresh hv, inum]
    rfl

variable {off : Nat} {bs : List UInt8}

/-- A chunk is written where the chunks before end. -/
theorem SharedInv.write {x : Node} (hI : SharedInv f i jobs s₀ (s, h))
    (held : (s.inode i).lock = some p ∧ jobs p ≠ []) (valid : (s.inode i).valid = true)
    (hoff : off = tip f s₀ h) (hfit : off ≤ (s.inode i).node.data.length)
    (hx : x.data = splice (s.inode i).node.data off bs)
    (hown : Chunk.own p h ++ bs :: todo = (jobs p).flatMap Write.chunks) :
    SharedInv f i jobs s₀ (s.store i x, h ++ [⟨p, off, bs⟩]) := by
  have hdisk : (s.inode i).node.data = (s.disk (s₀.inode i).inum).data := hI.inum ▸ hI.fresh valid
  have hfits : (s₀.file f).off ≤ (s₀.disk (s₀.inode i).inum).data.length := by
    by_cases hn : h = []
    · subst hn
      rw [hdisk, hI.data, hoff, tip, Chunk.content, flatMap_nil, splice_nil] at hfit
      exact hfit
    · exact hI.fits hn
  have hd : x.data = splice (s₀.disk (s₀.inode i).inum).data (s₀.file f).off
      (Chunk.content (h ++ [⟨p, off, bs⟩])) := by
    rw [hx, hdisk, hI.data, hoff, tip, splice_splice hfits, Chunk.content_concat]
  have hinode : (s.store i x).inode i = { s.inode i with node := x } := inode_setInode _
  have hstored : (s.store i x).disk (s.inode i).inum = x := update_self ..
  refine ⟨hI.type, hI.writable, hI.ip, ?_, ?_, fun _ => hfits, hI.placed.concat hoff,
    fun q => ?_, fun hu => ?_, fun _ => ?_⟩
  · rw [hinode, hI.inum]
  · rw [← hI.inum, hstored, hd]
    rw [hI.inum]
  · by_cases hq : q = p
    · subst hq
      exact ⟨todo, by rw [Chunk.own_concat_self, append_assoc, singleton_append, hown]⟩
    · rw [Chunk.own_concat_of_ne hq]
      exact hI.order q
  · exact absurd (hu p (by rw [hinode, held.1])) held.2
  · rw [hinode, hstored]

/-! ## The rules are sound -/

variable {sb} [Fintype P]

variable {o : Op} {r : o.Res}

theorem exec_log (ho : o = .beginOp ∨ o = .endOp ∨ o = .commit)
    (he : exec sb p o s = .ok (r, s')) : ∃ busy committing, s' = { s with busy, committing } := by
  rcases ho with rfl | rfl | rfl
  all_goals
    simp only [exec] at he
    repeat' first | cases he <;> exact ⟨_, _, rfl⟩ | split at he

theorem exec_writei {n : Nat} {r : Int} (hg : writesAll sb p (.writei i off n bs) s = true)
    (he : exec sb p (.writei i off n bs) s = .ok (r, s')) :
    r = n ∧ off ≤ (s.inode i).node.data.length ∧ ((bs.take n).length = n ∧
      ∃ x : Node, x.data = splice (s.inode i).node.data off (bs.take n) ∧ s' = s.store i x) := by
  have hr : r = n := by
    simp only [writesAll, he] at hg
    exact of_decide_eq_true hg
  simp only [exec] at he
  split at he
  · cases he
    omega
  · split at he
    · cases he
      omega
    · split at he
      · cases he
      · cases he
        refine ⟨hr, by omega, by exact_mod_cast hr, _, rfl, rfl⟩

theorem Turn.sound {R : o.Res → Phase × List (List UInt8) → Prop}
    (rule : Turn f i l o R) (hI : SharedInv f i jobs s₀ (s, h)) (hg : writesAll sb p o s = true)
    (hl : Stands f i jobs s₀ p l (s, h)) (he : exec sb p o s = .ok (r, s')) :
    SharedInv f i jobs s₀ (s', record p o r s s' h) ∧
      (∃ l', R r l' ∧ Stands f i jobs s₀ p l' (s', record p o r s s' h)) ∧
      ∀ q, q ≠ p → ∀ l', Stands f i jobs s₀ q l' (s, h) →
      Stands f i jobs s₀ q l' (s', record p o r s s' h) := by
  -- while `p` has the lock, nobody else does
  have others {s' h'} (hp : (s.inode i).lock = some p)
      (hp' : (s'.inode i).lock = none ∨ (s'.inode i).lock = some p)
      (hown : ∀ q, q ≠ p → Chunk.own q h' = Chunk.own q h) :
      ∀ q, q ≠ p → ∀ l', Stands f i jobs s₀ q l' (s, h) → Stands f i jobs s₀ q l' (s', h') := by
    intro q hq l' hl'
    refine hl'.other (fun h => hq (Option.some.inj (h.symm.trans hp))) (fun h => ?_) (hown q hq)
    rcases hp' with hp' | hp'
    · exact nomatch h.symm.trans hp'
    · exact hq (Option.some.inj (h.symm.trans hp'))
  cases rule with
  | @log o todo ho =>
    have hrec : record p o r s s' h = h := by
      rcases ho with rfl | rfl | rfl <;> rfl
    rw [hrec]
    obtain ⟨busy, committing, rfl⟩ := exec_log ho he
    exact ⟨hI.log .., ⟨_, rfl, hl.log ..⟩, fun q _ l' hl' => hl'.log ..⟩
  | look =>
    cases he
    exact ⟨hI, ⟨_, ⟨⟨hI.type, hI.writable, hI.ip⟩, rfl⟩, hl⟩, fun q _ l' hl' => hl'⟩
  | @acquire bs todo =>
    simp only [exec] at he
    split at he
    · cases he
    split at he
    · have hfree := ‹(s.inode i).lock = none›
      have hp : jobs p ≠ [] := by
        intro hp
        have := hl.2
        simp [hp] at this
      have hoff := hI.off fun q hq => by rw [hfree] at hq; cases hq
      cases he
      refine ⟨hI.setInode rfl hI.fresh fun _ => hoff,
        ⟨_, rfl, ⟨⟨by rw [inode_setInode], hp⟩, hoff⟩, hl.2⟩, fun q hq l' hl' => ?_⟩
      refine hl'.other (by simp [hfree]) ?_ rfl
      rw [inode_setInode]
      exact fun h => hq (Option.some.inj h).symm
    · cases he
  | @load todo =>
    obtain ⟨⟨hp, hoff⟩, hown⟩ := hl
    simp only [exec] at he
    split at he
    · cases he
      exact ⟨hI, ⟨_, rfl, ⟨hp, ‹_›, hoff⟩, hown⟩, fun q _ l' hl' => hl'⟩
    split at he
    · cases he
    cases he
    exact ⟨hI.setInode rfl (fun _ => rfl) fun _ => hoff,
      ⟨_, rfl, ⟨⟨by rw [inode_setInode]; exact hp.1, hp.2⟩, by rw [inode_setInode], hoff⟩, hown⟩,
      others hp.1 (.inr (by rw [inode_setInode]; exact hp.1)) fun _ _ => rfl⟩
  | @aim todo =>
    obtain ⟨⟨hp, hv, hoff⟩, hown⟩ := hl
    cases he
    exact ⟨hI, ⟨_, rfl, ⟨hp, hv, rfl, hoff⟩, hown⟩, fun q _ l' hl' => hl'⟩
  | @write off n bs todo =>
    obtain ⟨⟨hp, hv, -, hoff⟩, hown⟩ := hl
    obtain ⟨hr, hfit, hlen, x, hx, rfl⟩ := exec_writei hg he
    refine ⟨hI.write hp hv hoff hfit hx hown, ⟨_, ⟨hr, rfl⟩, ⟨⟨?_, hp.2⟩, ?_, ?_⟩, ?_⟩,
      others hp.1 ?_ fun q hq => ?_⟩
    · exact (congrArg InCore.lock (inode_setInode _)).trans hp.1
    · exact (congrArg InCore.valid (inode_setInode _)).trans hv
    · simp only [record, tip, Chunk.content_concat, length_append, hlen, hoff, Nat.add_assoc]
    · simp only [record]
      rw [Chunk.own_concat_self, append_assoc]
      exact hown
    · exact .inr ((congrArg InCore.lock (inode_setInode _)).trans hp.1)
    · exact Chunk.own_concat_of_ne hq
  | @move off n todo =>
    obtain ⟨⟨hp, hv, hoff⟩, hown⟩ := hl
    cases he
    have hf : (s.setFile f { s.file f with off := off + n }).file f =
        { s.file f with off := off + n } :=
      update_self ..
    refine ⟨⟨?_, ?_, ?_, hI.inum, hI.data, hI.fits, hI.placed, hI.order, fun _ => ?_, hI.fresh⟩,
      ⟨_, rfl, ⟨hp, hv, ?_⟩, hown⟩, others hp.1 (.inr hp.1) fun _ _ => rfl⟩
    · exact (congrArg File.type hf).trans hI.type
    · exact (congrArg File.writable hf).trans hI.writable
    · exact (congrArg File.ip hf).trans hI.ip
    · exact (congrArg File.off hf).trans hoff
    · exact (congrArg File.off hf).trans hoff
  | @unlock todo =>
    obtain ⟨⟨hp, hv, hoff⟩, hown⟩ := hl
    simp only [exec] at he
    split at he
    · cases he
    cases he
    have hfree : (s.setInode i { s.inode i with lock := none }).inode i =
        { s.inode i with lock := none } :=
      inode_setInode _
    refine ⟨hI.setInode rfl hI.fresh fun _ => hoff, ⟨_, rfl, fun h => ?_, hown⟩,
      others hp.1 (.inl (by rw [hfree])) fun _ _ => rfl⟩
    exact absurd ((congrArg InCore.lock hfree).symm.trans h.1) (by simp)

omit [Fintype P] in
theorem Bystander.inv (hb : Bystander f i jobs s s') (hI : SharedInv f i jobs s₀ (s, h)) :
    SharedInv f i jobs s₀ (s', h) where
  type := by rw [hb.file]; exact hI.type
  writable := by rw [hb.file]; exact hI.writable
  ip := by rw [hb.file]; exact hI.ip
  inum := hb.inum.trans hI.inum
  data := by rw [← hI.data, ← hI.inum, ← hb.data]
  fits := hI.fits
  placed := hI.placed
  order := hI.order
  off hu := by
    rw [hb.file]
    refine hI.off ?_
    rcases hb.lock with hlock | hlock
    · exact fun p hp => hu p (hlock.trans hp)
    · exact hlock.1
  fresh := hb.fresh hI.fresh

omit [DecidableEq P] [Fintype P] in
theorem Bystander.held (hb : Bystander f i jobs s s')
    (hp : (s.inode i).lock = some p ∧ jobs p ≠ []) :
    ((s'.inode i).lock = some p ∧ jobs p ≠ []) ∧
    ((s.inode i).valid = true → (s'.inode i).valid = true) := by
  have hheld : ¬Unheld i jobs s := fun hu => hp.2 (hu p hp.1)
  refine ⟨⟨?_, hp.2⟩, fun hv => hb.valid hv hheld⟩
  rcases hb.lock with hlock | hlock
  · exact hlock.trans hp.1
  · exact absurd hlock.1 hheld

omit [Fintype P] in
theorem Bystander.stands (hb : Bystander f i jobs s s')
    (hl : Stands f i jobs s₀ p l (s, h)) : Stands f i jobs s₀ p l (s', h) := by
  obtain ⟨φ, todo⟩ := l
  obtain ⟨hφ, hown⟩ := hl
  have hoff : (s'.file f).off = (s.file f).off := by rw [hb.file]
  refine ⟨?_, hown⟩
  cases φ with
  | out =>
    rintro ⟨hp, hj⟩
    rcases hb.lock with hlock | hlock
    · exact hφ ⟨hlock.symm.trans hp, hj⟩
    · exact hj (hlock.2 p hp)
  | acquired => exact ⟨(hb.held hφ.1).1, hoff.trans hφ.2⟩
  | loaded => exact ⟨(hb.held hφ.1).1, (hb.held hφ.1).2 hφ.2.1, hoff.trans hφ.2.2⟩
  | aimed off => exact ⟨(hb.held hφ.1).1, (hb.held hφ.1).2 hφ.2.1, hoff.trans hφ.2.2.1, hφ.2.2.2⟩
  | wrote off n => exact ⟨(hb.held hφ.1).1, (hb.held hφ.1).2 hφ.2.1, hφ.2.2⟩

variable (sb f i jobs s₀) in
/-- The proof that the rules are sound. -/
def turnsSound : LocalProof ((sharers sb f i jobs).withGhost record) (Turn f i) where
  Inv := SharedInv f i jobs s₀
  At := Stands f i jobs s₀
  Idle l := l = (.out, [])
  Ended _ := False
  Tol _ := True
  live _ h := h
  step := by
    rintro p o ⟨s, h⟩ r ⟨s', h'⟩ l R hI hg hl rule he
    obtain ⟨he, hh⟩ := System.withGhost_ok he
    dsimp only at hh
    subst hh
    obtain ⟨hI', hself, hothers⟩ := rule.sound hI hg hl he
    exact ⟨hI', hself, fun q hq l' hl' => .inl (hothers q hq l' hl')⟩
  panic _ _ _ _ _ := trivial
  env := by
    rintro ⟨s, h⟩ ⟨s', h'⟩ ⟨hb, rfl⟩ hI
    exact ⟨hb.inv hI, fun p l hl => .inl (hb.stands hl)⟩

/-- The configuration in which the processes are about to write. -/
def sharing (f : FId) (jobs : P → List Write) (s : St P) : Config iface (St P × List (Chunk P)) P :=
  ⟨(s, []), fun p => writeAll f (jobs p)⟩

omit [Fintype P] in
theorem Shares.inv (hs : Shares f i jobs s) : SharedInv f i jobs s (s, []) where
  type := hs.type
  writable := hs.writable
  ip := hs.ip
  inum := rfl
  data := splice_nil.symm
  fits h := absurd rfl h
  placed := trivial
  order _ := nil_prefix
  off _ := rfl
  fresh := hs.fresh

theorem Shares.good (hs : Shares f i jobs s) {c : Config iface (St P × List (Chunk P)) P}
    (run : ((sharers sb f i jobs).withGhost record).Reaches (sharing f jobs s) c) :
    c.Good (turnsSound sb f i jobs s).outline := by
  have inv : (turnsSound sb f i jobs s).Inv (sharing f jobs s).st := hs.inv
  refine (turnsSound sb f i jobs s).reaches (fun hx => hx.elim) ⟨inv, fun p => ?_⟩ run
  have hp : (turnsSound sb f i jobs s).At p (.out, (jobs p).flatMap Write.chunks)
      (sharing f jobs s).st :=
    ⟨fun h => h.2 (hs.unheld p h.1), rfl⟩
  refine ((turnsSound sb f i jobs s).safe (writeAll_writes (jobs p)) hp).mono ?_
  rintro - s' ⟨l, rfl, hl⟩
  exact ⟨_, rfl, hl⟩

/-- Writes through a shared offset are not lost: in every run the chunks lie one after the other
from the initial offset on, each where it was written, and make up what changed in the content; each
process has written its chunks in their order. When all are done, all chunks are written and the
offset is behind the last one. -/
theorem shared_writes (hs : Shares f i jobs s) {c : Config iface (St P × List (Chunk P)) P}
    (run : ((sharers sb f i jobs).withGhost record).Reaches (sharing f jobs s) c) :
    Chunk.Placed (s.file f).off c.st.2 ∧
    c.st.2.Pairwise (fun c d => c.off + c.bytes.length ≤ d.off) ∧
    (c.st.1.disk (s.inode i).inum).data =
      splice (s.disk (s.inode i).inum).data (s.file f).off (Chunk.content c.st.2) ∧
    (∀ d ∈ c.st.2, slice (c.st.1.disk (s.inode i).inum).data d.off d.bytes.length = d.bytes) ∧
    (∀ p, Chunk.own p c.st.2 <+: (jobs p).flatMap Write.chunks) ∧
    ((∀ p, c.prog p = .ret ()) →
      (∀ p, Chunk.own p c.st.2 = (jobs p).flatMap Write.chunks) ∧
      (c.st.1.file f).off = (s.file f).off + (c.st.2.map fun d => d.bytes.length).sum) := by
  have good := hs.good run
  have hI : SharedInv f i jobs s c.st := good.inv
  refine ⟨hI.placed, hI.placed.pairwise, hI.data, fun d hd => ?_, hI.order, fun done => ?_⟩
  · rw [hI.data]
    exact hI.placed.slice (hI.fits (ne_nil_of_mem hd)) hd
  · have known : ∀ p, Stands f i jobs s p (.out, []) c.st := by
      intro p
      have hp := good.safe p
      rw [done p] at hp
      obtain ⟨l, rfl, hl⟩ := hp
      exact hl
    refine ⟨fun p => (append_nil _).symm.trans (known p).2, ?_⟩
    have hu : Unheld i jobs c.st.1 := fun p hp => by_contra fun hj => (known p).1 ⟨hp, hj⟩
    rw [hI.off hu, tip, Chunk.content, length_flatMap]

/-! ## Two processes with one chunk each -/

/-- Every file is open on inode 2, which is empty. -/
def openState : St Bool :=
  { bootState (fun n => if n = 2 then ⟨.file, 0, 0, 1, [], []⟩ else rootDisk n) with
    inode := fun _ => ⟨2, 1, none, false, rootDisk 0⟩
    file := fun _ => ⟨.inode, 2, true, true, 0, ⟨0, ninode_pos⟩, 0, 0⟩ }

def twoJobs (p : Bool) : List Write :=
  if p then [⟨2, fun _ n => [65, 66].take n, ⟨0, 0⟩⟩] else [⟨1, fun _ n => [67].take n, ⟨0, 0⟩⟩]

theorem shares_openState : Shares ⟨0, by decide⟩ ⟨0, by decide⟩ twoJobs openState :=
  ⟨rfl, rfl, rfl, nofun, nofun⟩

/-- One process finds the inode locked by the other one. -/
theorem shared_writes_two : ∃ c : Config iface (St Bool × List (Chunk Bool)) Bool,
    ((sharers { Superblock.mkfs with ninodes := 4 } ⟨0, by decide⟩ ⟨0, by decide⟩ twoJobs).withGhost
      record).Reaches
      (sharing ⟨0, by decide⟩ twoJobs openState) c ∧
    (c.st.1.disk 2).data = [65, 66, 67] ∧
    (c.st.1.file ⟨0, by decide⟩).off = (c.st.2.map fun d => d.bytes.length).sum ∧
    ∀ p, Chunk.own p c.st.2 = (twoJobs p).flatMap Write.chunks := by
  let S :=
    (sharers (P := Bool) { Superblock.mkfs with ninodes := 4 } ⟨0, by decide⟩ ⟨0, by decide⟩
      twoJobs).withGhost record
  let moves : List (Move iface (St Bool × List (Chunk Bool)) Bool) :=
    [(6, true), (2, false), (2, true), (7, false), (2, true)].flatMap fun m =>
      replicate m.1 (.op m.2)
  have run : (moves.foldlM
      (Move.play S.exec fun p o s => writesAll { Superblock.mkfs with ninodes := 4 } p o s.1)
      (sharing ⟨0, by decide⟩ twoJobs openState)).any
        (fun c => (c.prog true).isRet && (c.prog false).isRet &&
        (c.st.1.disk 2).data == [65, 66, 67]) = true := by
    decide
  obtain ⟨c, hc, hb⟩ := (Option.any_eq_true _ _).1 run
  simp only [Bool.and_eq_true, beq_iff_eq] at hb
  have reaches : S.Reaches (sharing ⟨0, by decide⟩ twoJobs openState) c := by
    refine Move.Legal.reaches (fun m hm => ?_) (fun _ _ _ h => h) hc
    obtain ⟨n, -, hm⟩ := mem_flatMap.1 hm
    rw [(mem_replicate.1 hm).2]
    trivial
  have done : ∀ p, c.prog p = .ret () := by
    rintro (_ | _)
    · exact Prog.eq_ret hb.1.2
    · exact Prog.eq_ret hb.1.1
  obtain ⟨-, -, -, -, -, h⟩ := shared_writes shares_openState reaches
  exact ⟨c, reaches, hb.2, (h done).2.trans (Nat.zero_add _), (h done).1⟩

end Shared

end Xv6.Dir
