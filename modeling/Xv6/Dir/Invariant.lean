import Xv6.Dir.Ledger

/-!
# The invariant of the file system calls

What holds in every state, and what the knowledge of a process means, in four parts: inodes, files,
pipes and processes. An operation concerns one or two of them.
-/

namespace Xv6.Dir

open Lib Finset

variable {P : Type}

/-! ## The invariant -/

section

variable [Fintype P] (s : St P) (g : Ledger P)

/-- The process has a pointer to the inode, or an open file on it. -/
def Used (p : P) (i : IId) : Prop := 0 < g.refs p i ∨ ∃ f, 0 < g.files p f ∧ (s.file f).Holds i

structure InodeInv : Prop where
  law : ∀ i, ((s.inode i).ref : ℤ) = fileRefs s.file i + ∑ p, g.refs p i
  nonneg : ∀ p i, 0 ≤ g.refs p i
  unique : ∀ i j, 0 < (s.inode i).ref → 0 < (s.inode j).ref →
    (s.inode i).inum = (s.inode j).inum → i = j
  -- an entry that nobody has locked agrees with the disk
  core : ∀ i, (s.inode i).lock = none → 0 < (s.inode i).ref → (s.inode i).valid = true →
    (s.inode i).node = s.disk (s.inode i).inum ∧ (s.disk (s.inode i).inum).type ≠ .free
  user : ∀ i p, (s.inode i).lock = some p → Used s g p i

structure FileInv : Prop where
  law : ∀ f, ((s.file f).ref : ℤ) = ∑ p, g.files p f
  nonneg : ∀ p f, 0 ≤ g.files p f
  closed : ∀ f, (s.file f).ref = 0 → (s.file f).type = .none

structure PipeInv : Prop where
  law : ∀ e, openEnds s.pipe e = fileEnds s.file e + ∑ p, g.ends p e
  nonneg : ∀ p e, 0 ≤ g.ends p e
  dead : ∀ pi, deadPipes s.pipe pi = ∑ p, g.corpses p pi
  corpses : ∀ p pi, 0 ≤ g.corpses p pi
  nodup : s.free.Nodup
  free : ∀ pi ∈ s.free, s.pipe pi = none

structure ProcInv : Prop where
  gone : ∀ q, s.stage q = .unused ∨ s.stage q = .zombie → (s.ofile q = fun _ => none) ∧
    s.cwd q = none
  used : ∀ q, s.stage q = .used ↔ ∃ p, s.child p = some q
  inj : ∀ p p' q, s.child p = some q → s.child p' = some q → p = p'

structure Inv : Prop where
  inode : InodeInv s g
  file : FileInv s g
  pipe : PipeInv s g
  proc : ProcInv s

end

/-! ## Knowledge -/

/-- The process has locked the entry. -/
def Loc.Locks (l : Loc) (i : IId) : Prop :=
  (∃ n, l.Uses (i, n) ∧ l.held n ≠ none) ∨
    ∃ n, l.mid = .loading (i, n) ∨ l.mid = .dead (i, n) ∨ l.mid = .void (i, n)

/-- What `l` says about entry `i`, which is `x`; the process has `r` pointers to it and has last
seen it as `y` on disk. -/
structure SlotAt (p : P) (l : Loc) (disk : Nat → Node) (i : IId) (x : InCore P) (r : ℤ)
    (y : Node) : Prop where
  refs : r = l.refs (i, x.inum)
  inum : ∀ n, l.Uses (i, n) → x.inum = n
  lock : x.lock = some p ↔ l.Locks i
  held : ∀ n z w, l.Uses (i, n) → l.held n = some (z, w) →
    x.valid = true ∧ x.node = z ∧ disk n = w ∧ w.type ≠ .free ∧ y = w
  loading : ∀ n, l.mid = .loading (i, n) → l.Uses (i, n) ∧ l.held n = none ∧
    (x.valid = true → x.node = disk n ∧ (disk n).type ≠ .free)
  doomed : ∀ n, l.mid = .doomed (i, n) → 0 < l.refs (i, n) ∧ l.held n ≠ none
  dead : ∀ n, l.mid = .dead (i, n) → 0 < l.refs (i, n) ∧ l.held n = none
  void : ∀ n, l.mid = .void (i, n) → 0 < l.refs (i, n) ∧ l.held n = none ∧ x.valid = false
  gone : ∀ n, l.mid = .gone (i, n) → 0 < l.refs (i, n) ∧ l.held n = none

structure InodeAt (p : P) (l : Loc) (s : St P) (g : Ledger P) : Prop where
  slot : ∀ i, SlotAt p l s.disk i (s.inode i) (g.refs p i) (g.seen p i)
  uses : ∀ n, l.held n ≠ none → ∃ i, l.Uses (i, n)

structure FileAt (p : P) (l : Loc) (s : St P) (g : Ledger P) : Prop where
  files : ∀ f, g.files p f = l.files f
  fresh : ∀ f ∈ l.fresh, 0 < l.files f ∧ (s.file f).ref = 1 ∧ (s.file f).type = .none
  via : ∀ f i n, l.via = some (f, (i, n)) → 0 < l.files f ∧ (s.file f).Holds i
  viaPipe : ∀ f pi, l.viaPipe = some (f, pi) → 0 < l.files f ∧ (s.file f).type = .pipe ∧
    (s.file f).pipe = pi

structure PipeAt (p : P) (l : Loc) (g : Ledger P) : Prop where
  ends : ∀ e, g.ends p e = l.ends e
  corpses : ∀ pi, g.corpses p pi = l.corpses pi

structure ProcAt (p : P) (l : Loc) (s : St P) : Prop where
  live : l.mid ≠ .exited → s.stage p = .live ∧ s.ofile p = l.ofile ∧ s.cwd p = l.cwd.map Prod.fst
  dead : l.mid = .exited → s.stage p ≠ .live ∧ l.Idle ∧ l.via = none ∧ l.viaPipe = none
  kid : ∀ k, l.kid = some k → ∃ q, s.child p = some q ∧ s.ofile q = k.ofile ∧
    s.cwd q = k.cwd.map Prod.fst
  noKid : l.kid = none → s.child p = none
  busy : s.busy p = l.busy

structure At (p : P) (l : Loc) (s : St P) (g : Ledger P) : Prop where
  inode : InodeAt p l s g
  file : FileAt p l s g
  pipe : PipeAt p l g
  proc : ProcAt p l s

/-! ## Consequences -/

section

variable [Fintype P] {s : St P} {g : Ledger P} {p : P} {l : Loc} {i j : IId} {f : FId} {n : Nat}

theorem fileRefs_nonneg (file : FId → File) (i : IId) : 0 ≤ fileRefs file i :=
  sum_nonneg fun f _ => by split <;> simp

theorem fileRefs_pos {file : FId → File} (h : (file f).Holds i) : 0 < fileRefs file i := by
  have := single_le_sum (f := fun f => if (file f).Holds i then (1 : ℤ) else 0)
    (fun f _ => by split <;> simp) (mem_univ f)
  rw [if_pos h] at this
  exact this

theorem InodeInv.refs_le (h : InodeInv s g) : fileRefs s.file i + g.refs p i ≤ (s.inode i).ref := by
  have := single_le_sum (f := fun p => g.refs p i) (fun p _ => h.nonneg p i) (mem_univ p)
  rw [h.law]
  omega

theorem InodeInv.ref_pos (h : InodeInv s g) (hu : Used s g p i) : 0 < (s.inode i).ref := by
  have hle := h.refs_le (p := p) (i := i)
  have h₁ := fileRefs_nonneg s.file i
  have h₂ := h.nonneg p i
  rcases hu with hu | ⟨f, -, hf⟩
  · omega
  · have := fileRefs_pos hf
    omega

theorem FileInv.files_le (h : FileInv s g) : g.files p f ≤ (s.file f).ref := by
  rw [h.law]
  exact single_le_sum (f := fun p => g.files p f) (fun p _ => h.nonneg p f) (mem_univ p)

omit [Fintype P] in
theorem At.used (h : At p l s g) (hu : l.Uses (i, n)) : Used s g p i := by
  rcases hu with hr | ⟨f, hv⟩
  · refine .inl ?_
    have := (h.inode.slot i).refs
    rw [(h.inode.slot i).inum n (.inl hr)] at this
    omega
  · obtain ⟨hf, hh⟩ := h.file.via f i n hv
    refine .inr ⟨f, ?_, hh⟩
    have := h.file.files f
    omega

omit [Fintype P] in
theorem At.inum (h : At p l s g) (hu : l.Uses (i, n)) : (s.inode i).inum = n :=
  (h.inode.slot i).inum n hu

theorem At.only (hI : Inv s g) (h : At p l s g) (pos : 0 < (s.inode i).ref)
    (hn : (s.inode i).inum = n) :
    ∀ j, l.Uses (j, n) → j = i := fun j hj =>
  hI.inode.unique j i (hI.inode.ref_pos (h.used hj)) pos ((h.inum hj).trans hn.symm)

end

end Xv6.Dir
