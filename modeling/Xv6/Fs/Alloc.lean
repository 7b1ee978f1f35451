import Xv6.Fs.Image

/-!
# Allocation of blocks

What `bzero`, `balloc` and the reads of an inode do, when one process runs them.
-/

namespace Xv6

open Lib Kernel Function List

namespace Fs

variable {sb : Superblock} {p : Pid} {v v' : FsView} {out : Set Nat} {D : Nat →
  Dinode} {E : Set Nat}
  {b n : Nat}

/-! ## Rules -/

section Rules

variable {tol : Option Panic → Prop} {α : Type} {Q : α → FsView → Prop}

theorem aux_wp {o : FsOp} {f : o.Res → FsProg α} {r : o.Res} {x : FsSt}
    (he : FsSt.exec p o v.aux = .ok (r, x)) (next : FsWp sb p tol Q (f r) { v with aux := x }) :
    FsWp sb p tol Q ((aux o).bind f) v := by
  refine .aux (fun r' x' h => ?_) (fun h => ?_) fun e h => ?_
  · cases he.symm.trans h
    exact next
  · cases he.symm.trans h
  · cases he.symm.trans h

theorem bread_wp {dev : Nat} {f : BufId → FsProg α} (hsb : sb.Wf) (hdev : dev = ROOTDEV)
    (hheld : ∀ i, v.held i ≠ some b) (noBuffers : tol (some .bgetNoBuffers))
    (next : ∀ i cur, v.held i = none → v.Evicts cur →
      FsWp sb p tol Q (f i) { v with cur, held := update v.held i (some b) }) :
    FsWp sb p tol Q ((bread dev b).bind f) v := by
  subst hdev
  exact .bread hsb.nlog hheld noBuffers next

/-- The data of a buffer. The name for it keeps the unifier from computing with it. -/
theorem data_wp {i : BufId} {f : Block → FsProg α} (hi : v.held i = some b) (hb : ¬sb.InLog b)
    (next : ∀ d, d = v.cur b → FsWp sb p tol Q (f d) v) : FsWp sb p tol Q ((data i).bind f) v :=
  .data hi hb (next _ rfl)

theorem ite_wp {P : Prop} {_ : Decidable P} {x y : FsProg α} (pos : P → FsWp sb p tol Q x v)
    (neg : ¬P → FsWp sb p tol Q y v) : FsWp sb p tol Q (if P then x else y) v := by
  split
  · exact pos ‹_›
  · exact neg ‹_›

end Rules

/-- The panics for want of buffers, log space or blocks. -/
def Halts (e : Option Panic) : Prop :=
  e = some .bgetNoBuffers ∨ e = some .tooBigTransaction ∨ e = some .ballocOutOfBlocks

/-- The buffers held are blocks in use. -/
def HeldUsed (sb : Superblock) (v : FsView) : Prop :=
  ∀ i b, v.held i = some b → sb.nmeta ≤ b ∧ Used sb v.cur b

theorem release {held : BufId → Option Nat} {i : BufId} {b : Nat} (h : held i = none) :
    update (update held i (some b)) i none = held := by
  rw [update_idem, ← h, update_eq_self]

theorem Moves.bread {cur : Nat → Block} (h : v.Evicts cur) (held : BufId → Option Nat) :
    Moves ∅ ∅ v { v with cur, held } where
  disk := rfl
  outstanding := rfl
  inOp := rfl
  grow _ := id
  passed := ⟨[], (append_nil _).symm, nofun⟩
  logged _ _ hclean := .inl (Evicts.keep h hclean)
  keep _ _ _ hclean := Evicts.keep h hclean

theorem Moves.write {d : Block} (held : BufId → Option Nat) :
    Moves {b} ∅ v { v with
      cur := update v.cur b d
      log := v.log.add b
      passed := v.passed ++ [b]
      held } where
  disk := rfl
  outstanding := Log.add_outstanding ..
  inOp := rfl
  grow _ hc := Log.mem_add.2 (.inl hc)
  passed := ⟨[b], rfl, fun _ hc => mem_singleton.1 hc⟩
  logged c _ _ := by
    by_cases hc : c = b
    · exact .inr (Log.mem_add.2 (.inr hc))
    · exact .inl (update_of_ne hc ..)
  keep c hc _ _ := update_of_ne hc ..

/-- After a `bread`, one write to the buffer, `log_write` and `brelse`. -/
theorem Moves.rewrite {cur : Nat → Block} {d : Block} (h : v.Evicts cur)
    (held : BufId → Option Nat) :
    Moves {b} ∅ v { v with
      cur := update cur b d
      log := v.log.add b
      passed := v.passed ++ [b]
      held } :=
  ((Moves.bread h held).trans (.write held)).mono (Set.empty_union _).le (Set.empty_union _).le

theorem bzero_wp (hsb : sb.Wf) (hb : ¬sb.InLog b) (hb' : b < 2 ^ 32)
    (hheld : ∀ i, v.held i ≠ some b) (ho : 1 ≤ v.log.outstanding) :
    FsWp sb p Halts (fun _ v' => Moves {b} ∅ v v' ∧ v'.cur b = .zero ∧ b ∈ v'.log.block ∧
      v'.held = v.held ∧ v'.aux = v.aux) (bzero ROOTDEV b) v := by
  refine .bread hsb.nlog hheld (.inl rfl) fun i cur hi hcur => ?_
  refine .setData (update_self ..) hb ?_
  refine .logWrite (update_self ..) hb hb' ho (.inr (.inl rfl)) ?_
  refine .brelse hsb.nlog (update_self ..) ?_
  exact .ret ⟨.rewrite hcur _, update_self .., Log.mem_add.2 (.inr rfl), release hi, rfl⟩

/-! ## `balloc` and `bfree` -/

theorem freeBit_some {size b bi : Nat} {d : Block} (h : freeBit size b d = some bi) :
    bi < BPB ∧ b + bi < size ∧ d.bit bi = false := by
  have hmem := mem_of_find?_eq_some h
  have hbit := find?_some h
  rw [mem_range] at hmem
  exact ⟨by omega, by omega, by simpa using hbit⟩

theorem Allocated.of_read (hsb : sb.Wf) (h : Image sb out v D E) (hm : Moves ∅ ∅ v v')
    (hheld : v'.held = v.held) (haux : v'.aux = v.aux) {v'' : FsView} (ha : Allocated sb v' b v'') :
    Allocated sb v b v'' := by
  have hcur : v'.cur (sb.bblock b) = v.cur (sb.bblock b) :=
    hm.keep _ id id (h.clean _ (Image.vital_bblock hsb ha.lt))
  exact ⟨ha.lt, fun hu => ha.free ⟨hu.1, hcur ▸ hu.2⟩,
    (hm.trans ha.moves).mono (Set.empty_union _).le (Set.empty_union _).le, hcur ▸ ha.bit, ha.zero,
    ha.logged, ha.held.trans hheld, ha.aux.trans haux⟩

theorem HeldUsed.of_read (hsb : sb.Wf) (h : Image sb out v D E) (hm : Moves ∅ ∅ v v')
    (hv : v'.held = v.held) (hheld : HeldUsed sb v) : HeldUsed sb v' := fun i b hi => by
  rw [hv] at hi
  obtain ⟨hle, hu⟩ := hheld i b hi
  refine ⟨hle, hu.1, ?_⟩
  rw [hm.keep _ id id (h.clean _ (Image.vital_bblock hsb hu.1))]
  exact hu.2

theorem ballocFrom_wp (hsb : sb.Wf) (h : Image sb out v D E) (hheld : HeldUsed sb v)
    (ho : 1 ≤ v.log.outstanding) {fuel : Nat} (hb : b % BPB = 0) :
    FsWp sb p Halts (fun b v' => Allocated sb v b v') (ballocFrom sb ROOTDEV fuel b) v := by
  have halt (v : FsView) (Q : Nat → FsView → Prop) :
      FsWp sb p Halts Q (panic .ballocOutOfBlocks) v :=
    .aux nofun nofun fun e he => by cases he; exact .inr (.inr rfl)
  induction fuel generalizing b v with
  | zero => exact halt ..
  | succ fuel ih =>
    unfold ballocFrom
    split
    · rename_i hlt
      have hlog := hsb.bblock_not_inLog hlt
      have hbitmap : ∀ i, v.held i ≠ some (sb.bblock b) := fun i hi => by
        have := (hheld i _ hi).1
        have := (Superblock.Wf.bblock hlt).2
        omega
      refine .bread hsb.nlog hbitmap (.inl rfl) fun i cur hi hcur => ?_
      have hd : cur (sb.bblock b) = v.cur (sb.bblock b) :=
        Evicts.keep hcur (h.clean _ (Image.vital_bblock hsb hlt))
      refine data_wp (update_self ..) hlog ?_
      rintro _ rfl
      cases hf : freeBit sb.size b (cur (sb.bblock b)) with
      | some bi =>
        obtain ⟨hbi, hsize, hbit⟩ := freeBit_some hf
        have hblock : sb.bblock (b + bi) = sb.bblock b := by
          simp only [Superblock.bblock, BPB, BSIZE] at hb hbi ⊢
          omega
        have hmod : (b + bi) % BPB = bi := by
          simp only [BPB, BSIZE] at hb hbi ⊢
          omega
        have hfree : ¬Used sb v.cur (b + bi) := fun hu => by
          have := hu.2
          rw [hblock, hmod, ← hd, hbit] at this
          cases this
        have hdata := h.nmeta_le hfree
        have hne : sb.bblock b ≠ b + bi := by
          have := (Superblock.Wf.bblock hlt).2
          omega
        refine .setData (update_self ..) hlog ?_
        refine .logWrite (update_self ..) hlog ?_ ho (.inr (.inl rfl)) ?_
        · have := (Superblock.Wf.bblock hlt).2
          have := h.owns
          exact hsb.lt_of_lt_size (by have := hsb.data; omega)
        refine .brelse hsb.nlog (update_self ..) ?_
        have hm : Moves {sb.bblock b} ∅ v _ :=
          .rewrite (d := (cur (sb.bblock b)).setBit bi) hcur
            (update (update v.held i (some (sb.bblock b))) i none)
        refine (bzero_wp hsb (hsb.data_not_inLog hdata) (hsb.lt_of_lt_size hsize) (fun j hj => ?_)
          (hm.outstanding ▸ ho)).bind fun _ v' h' => ?_
        · rw [release hi] at hj
          exact hfree (hheld j _ hj).2
        · obtain ⟨hm', hzero, hlogged, hv, haux⟩ := h'
          refine .ret ⟨hsize, hfree, (hm.trans hm').mono ?_ (Set.empty_union _).le, ?_,
            hzero, hlogged, hv.trans (release hi), haux⟩
          · rw [hblock]; exact subset_rfl
          · rw [hblock, hmod, hm'.keep _ hne id (.inr (Log.mem_add.2 (.inr rfl))), ← hd]
            exact update_self ..
      | none =>
        refine .brelse hsb.nlog (update_self ..) ?_
        have hm : Moves ∅ ∅ v _ :=
          .bread hcur (update (update v.held i (some (sb.bblock b))) i none)
        have hb' : (b + BPB) % BPB = 0 := by rw [Nat.add_mod_right, hb]
        refine (ih (h.of_moves hsb hm (fun _ _ => id) fun _ _ => id)
          (hheld.of_read hsb h hm (release hi)) (hm.outstanding ▸ ho) hb').mono fun c v' ha =>
            ha.of_read hsb h hm (release hi) rfl
    · exact halt ..

theorem balloc_wp {dev : Nat} (hsb : sb.Wf) (hdev : dev = ROOTDEV) (h : Image sb out v D E)
    (hheld : HeldUsed sb v) (ho : 1 ≤ v.log.outstanding) :
    FsWp sb p Halts (fun b v' => Allocated sb v b v') (balloc sb dev) v := by
  subst hdev
  exact ballocFrom_wp hsb h hheld ho rfl

end Fs

end Xv6
