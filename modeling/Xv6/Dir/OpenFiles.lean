import Xv6.Dir.Table
import Mathlib.Algebra.BigOperators.Ring.Finset
import Mathlib.Data.Fintype.BigOperators

/-!
# The table of open files

Reference counts of files and the ends of pipes, in every run.
-/

namespace Xv6.Dir

open Lib Finset

variable {P : Type} {s : St P} {g : Ledger P} {p q : P} {l : Loc} {f : FId} {pi : Nat} {w : Bool}

/-- The descriptors that refer to a file. -/
def slots [Fintype P] (ofile : P → Fd → Option FId) (f : FId) : Finset (P × Fd) :=
  univ.filter fun x => ofile x.1 x.2 = some f

section

variable [Fintype P]

theorem card_slots (ofile : P → Fd → Option FId) (f : FId) :
    (slots ofile f).card = ∑ p, fdFiles (ofile p) f := by
  simp only [slots, fdFiles, card_filter, Fintype.sum_prod_type]

theorem fileEnds_pos {file : FId → File} {e : Nat × Bool} :
    0 < fileEnds file e ↔ ∃ f, (file f).EndOf e := by
  constructor
  · intro h
    obtain ⟨f, -, hf⟩ := exists_ne_zero_of_sum_ne_zero h.ne'
    refine ⟨f, ?_⟩
    by_contra hn
    exact hf (if_neg hn)
  · rintro ⟨f, hf⟩
    have := single_le_sum (f := fun f => if (file f).EndOf e then (1 : ℤ) else 0)
      (fun f _ => by split <;> simp) (mem_univ f)
    rw [if_pos hf] at this
    exact this

/-- The end of a pipe that an open file refers to is open. -/
theorem PipeInv.open_of_file (hI : PipeInv s g) (hf : (s.file f).EndOf (pi, w)) :
    Pipe.isOpen (s.pipe pi) w = true := by
  have hpos := fileEnds_pos.2 ⟨f, hf⟩
  have hsum : 0 ≤ ∑ p, g.ends p (pi, w) := sum_nonneg fun p _ => hI.nonneg p _
  have hlaw := hI.law (pi, w)
  rw [openEnds] at hlaw
  split at hlaw
  · assumption
  · omega

/-- The pipe that a process is reading or writing is not closed. -/
theorem At.access (hI : Inv s g) (h : At p l s g) (via : l.viaPipe = some (f, pi)) :
    ∃ w, Pipe.isOpen (s.pipe pi) w = true := by
  obtain ⟨files, type, rfl⟩ := h.file.viaPipe f pi via
  have pos : 0 < (s.file f).ref :=
    Int.natCast_pos.1 ((h.files_pos.2 files).trans_le hI.file.files_le)
  exact ⟨(s.file f).writable, hI.pipe.open_of_file (f := f) ⟨pos, type, rfl⟩⟩

theorem PipeInv.corpse_unique (hI : PipeInv s g) (hp : 0 < g.corpses p pi)
    (hq : 0 < g.corpses q pi) : q = p := by
  by_contra hne
  have := pair_le_sum (fun r => hI.corpses r pi) hne
  rw [← hI.dead pi, deadPipes] at this
  split at this <;> omega

/-- Where no call is in progress, every process has exactly the files of its descriptors. -/
theorem files_between (hI : Inv s g) (idle : ∀ p, ∃ l, l.Idle ∧ At p l s g) (p : P) (f : FId) :
    g.files p f = fdFiles (s.ofile p) f := by
  obtain ⟨l, hl, hat⟩ := idle p
  rw [hat.file.files, hl.files]
  suffices s.ofile p = l.ofile by rw [this]
  by_cases hm : l.mid = .exited
  · have hst := (hat.proc.dead hm).1
    have hused : s.stage p ≠ .used := fun hu => by
      obtain ⟨p', hp'⟩ := (hI.proc.used p).1 hu
      obtain ⟨l', hl', hat'⟩ := idle p'
      simp [hat'.proc.noKid hl'.kid] at hp'
    have hgone : s.stage p = .unused ∨ s.stage p = .zombie := by
      cases h : s.stage p <;> simp_all
    rw [(hI.proc.gone p hgone).1, (hl.mid.resolve_left (by simp [hm])).2.2]
  · exact (hat.proc.live hm).2.1

/-- Where no call is in progress, no end of a pipe is loose, and no pipe waits for being freed. -/
theorem ends_between (idle : ∀ p, ∃ l, l.Idle ∧ At p l s g) :
    (∀ e, ∑ p, g.ends p e = 0) ∧ ∀ pi, ∑ p, g.corpses p pi = 0 := by
  refine ⟨fun e => sum_eq_zero fun p _ => ?_, fun pi => sum_eq_zero fun p _ => ?_⟩
  all_goals
    obtain ⟨l, hl, hat⟩ := idle p
  · rw [hat.pipe.ends, hl.ends]
    rfl
  · rw [hat.pipe.corpses, hl.corpses]
    rfl

theorem PipeInv.between (hI : PipeInv s g) (ends : ∀ e, ∑ p, g.ends p e = 0) :
    Pipe.isOpen (s.pipe pi) w = true ↔ ∃ f, (s.file f).EndOf (pi, w) := by
  have hlaw := hI.law (pi, w)
  rw [ends, add_zero, openEnds] at hlaw
  rw [← fileEnds_pos, ← hlaw]
  split
  · simp [*]
  · simp [*]

end

variable [DecidableEq P] [Fintype P] {sb : Superblock} {s' : St P}
  {c : Config iface (St P × Ledger P) P}

theorem FileInv.filealloc (hI : FileInv s g) (he : exec sb p .filealloc s = .ok (some f, s')) :
    (s'.file f).type = .none := by
  simp only [exec] at he
  split at he
  · rename_i f' hf
    have h0 : (s.file f').ref = 0 := by simpa using List.find?_some hf
    cases he
    simpa [St.setFile] using hI.closed f h0
  · cases he

/-- Open files and pipes, in every configuration of every run. -/
theorem open_files (h : Booted sb (fun _ _ _ => True) c) :
    -- an entry that is not in use has no type, and so has one that `filealloc` returns
    (∀ f, (c.st.1.file f).ref = 0 → (c.st.1.file f).type = .none) ∧
    (∀ p k f t, c.prog p = .call .filealloc k →
      (ledgered sb fun _ _ _ => True).exec p .filealloc c.st = .ok (some f, t) →
      (t.1.file f).type = .none) ∧
    -- nobody enters an operation on the log in the middle of one
    (∀ p k, c.prog p = .call .beginOp k → c.st.1.busy p = false) ∧
    -- between calls, the references are those of the descriptors, and the pipes are open at the
    -- ends that files refer to
    ((∀ p, c.prog p = .ret ()) →
      (∀ f, (c.st.1.file f).ref = (slots c.st.1.ofile f).card) ∧
      (∀ pi x, c.st.1.pipe pi = some x →
        (x.readopen = true ↔ ∃ f, (c.st.1.file f).EndOf (pi, false)) ∧
        (x.writeopen = true ↔ ∃ f, (c.st.1.file f).EndOf (pi, true)) ∧
        (x.readopen = true ∨ x.writeopen = true))) ∧
    -- an end is closed while it is open, and a pipe is read and written while it is open
    (∀ p pi w k, c.prog p = .call (.pipeclose pi w) k → Pipe.isOpen (c.st.1.pipe pi) w = true) ∧
    (∀ p pi k, c.prog p = .call (.pipeAccess pi) k → ∃ w, Pipe.isOpen (c.st.1.pipe pi) w = true) ∧
    -- what is freed is a pipe that is closed at both ends, which nobody else frees, reads or writes
    ∀ p pi k, c.prog p = .call (.kfree pi) k → c.st.1.pipe pi = some ⟨false, false⟩ ∧
      (∀ f w, ¬(c.st.1.file f).EndOf (pi, w)) ∧ (∀ q k', c.prog q = .call (.kfree pi) k' → q = p) ∧
      ∀ q k', c.prog q ≠ .call (.pipeAccess pi) k' := by
  have inv := h.good.inv
  have corpse {p : P} {pi : Nat} {k : Unit → Code Unit} (next : c.prog p = .call (.kfree pi) k) :
      c.st.1.pipe pi = some ⟨false, false⟩ ∧ 0 < c.st.2.corpses p pi := by
    obtain ⟨l, R, hat, rule⟩ := h.rule next trivial
    cases rule with
    | kfree live corpse =>
      obtain ⟨hpipe, -⟩ := hat.corpse inv corpse
      rw [hat.pipe.corpses]
      exact ⟨hpipe, Int.natCast_pos.2 corpse⟩
  have access {p : P} {pi : Nat} {k : Unit →
      Code Unit} (next : c.prog p = .call (.pipeAccess pi) k) :
      ∃ w, Pipe.isOpen (c.st.1.pipe pi) w = true := by
    obtain ⟨l, R, hat, rule⟩ := h.rule next trivial
    cases rule with
    | pipeAccess live via => exact hat.access inv via
  refine ⟨inv.file.closed, fun p k f t next he => ?_, fun p k next => ?_,
    fun between => ⟨fun f => ?_, fun pi x hx => ?_⟩,
    fun p pi w k next => ?_, fun p pi k next => access next, fun p pi k next => ?_⟩
  · have he : exec sb p .filealloc c.st.1 = .ok (some f, t.1) := (System.withGhost_ok he).1
    exact inv.file.filealloc he
  · obtain ⟨l, R, hat, rule⟩ := h.rule next trivial
    cases rule with
    | beginOp busy => exact hat.proc.busy.trans busy
  · have idle (p : P) := h.idle (between p)
    have := inv.file.law f
    simp only [files_between inv idle] at this
    rw [card_slots]
    rw [← Nat.cast_sum] at this
    exact Int.natCast_inj.1 this
  · obtain ⟨ends, corpses⟩ := ends_between fun p => h.idle (between p)
    have hr : Pipe.isOpen (c.st.1.pipe pi) false = true ↔ _ := inv.pipe.between ends
    have hw : Pipe.isOpen (c.st.1.pipe pi) true = true ↔ _ := inv.pipe.between ends
    rw [hx] at hr hw
    refine ⟨hr, hw, ?_⟩
    have dead := inv.pipe.dead pi
    rw [corpses, deadPipes, hx] at dead
    by_contra hn
    obtain ⟨r, w⟩ := x
    simp_all
  · obtain ⟨l, R, hat, rule⟩ := h.rule next trivial
    cases rule with
    | pipeclose live ends => exact (hat.open_end inv ends).1
  · obtain ⟨hpipe, hp⟩ := corpse next
    have closed (w : Bool) : Pipe.isOpen (c.st.1.pipe pi) w = false := by
      rw [hpipe]
      cases w <;> rfl
    refine ⟨hpipe, fun f w hf => ?_, fun q k' next' => inv.pipe.corpse_unique hp (corpse next').2,
      fun q k' next' => ?_⟩
    · simpa [closed] using inv.pipe.open_of_file hf
    · obtain ⟨w, hw⟩ := access next'
      simp [closed] at hw

/-- Two open files after `pipe`. -/
theorem open_files_pipe : ∃ (c : Config iface (St Bool) Bool) (g : Ledger Bool),
    Booted .mkfs (fun _ _ _ => True) ⟨(c.st, g), c.prog⟩ ∧ (c.st.file ⟨1, by decide⟩).ref = 1 ∧
    (c.st.file ⟨1, by decide⟩).ref = (slots c.st.ofile ⟨1, by decide⟩).card := by
  have run : (replay .mkfs rootDisk [(true, some (.pipe true), 9)]).any fun c =>
      (c.prog true).isRet && (c.prog false).isRet && decide ((c.st.file ⟨1, by decide⟩).ref =
        1) := by decide
  obtain ⟨c, g, hg, hc⟩ := replay_booted run
  simp only [Bool.and_eq_true, decide_eq_true_eq] at hc
  obtain ⟨⟨h₁, h₀⟩, href⟩ := hc
  have idle (p : Bool) : c.prog p = .ret () := by
    cases p
    · exact Prog.eq_ret h₀
    · exact Prog.eq_ret h₁
  exact ⟨c, g, hg, href, ((open_files hg).2.2.2.1 idle).1 _⟩

end Xv6.Dir
