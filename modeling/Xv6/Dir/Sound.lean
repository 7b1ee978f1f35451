import Xv6.Dir.ProcSteps
import Xv6.Dir.Files

/-!
# The rules are sound

Every operation that a rule allows keeps the invariant, leaves the process with the knowledge that
the rule promises, and leaves what the others know alone; every call follows the rules.
-/

namespace Xv6.Dir

open Lib Function List

variable {P : Type} [DecidableEq P] [Fintype P] {sb : Superblock} {s s' : St P}
  {g : Ledger P} {p q : P}
  {l l' : Loc} {i : IId} {f : FId} {n : Nat} {o : Op} {r : o.Res}

/-! ## Operations that change little -/

omit [Fintype P] in
theorem At.update_self (h : At p l s g) (live : l.mid ≠ .exited) :
    Function.update s.ofile p l.ofile = s.ofile ∧
    Function.update s.cwd p (l.cwd.map Prod.fst) = s.cwd ∧
      Function.update s.busy p l.busy = s.busy := by
  obtain ⟨-, ho, hc⟩ := h.proc.live live
  rw [← ho, ← hc, ← h.proc.busy]
  exact ⟨update_eq_self .., update_eq_self .., update_eq_self ..⟩

theorem Next.same (hI : Inv s g) (h : At p l s g) (live : l.mid ≠ .exited) (quiet : Quiet o r)
    (copy : copyOf s o r = none) : Next p o r s s g l := by
  obtain ⟨ho, hc, hb⟩ := h.update_self live
  refine Next.own hI h live quiet copy (k := s.committing) ?_ rfl
  rw [ho, hc, hb]

omit [DecidableEq P] in
theorem At.look (h : At p l s g) (hI : Inv s g) (mid : l.mid = .idle) (unlocked : l.Unlocked)
    (files : 0 < l.files f) : At p (l.look (s.inode (s.file f).ip).inum f (s.file f)) s g := by
  have pos : 0 < (s.file f).ref :=
    Int.natCast_pos.1 ((h.files_pos.2 files).trans_le hI.file.files_le)
  have via {f' : FId} {c : Ptr}
      (hv : (l.look (s.inode (s.file f).ip).inum f (s.file f)).via = some (f', c)) :
      (s.file f).Refers ∧ f' = f ∧ c = ((s.file f).ip, (s.inode (s.file f).ip).inum) := by
    simp only [Loc.look] at hv
    split at hv
    · cases hv
      exact ⟨‹_›, rfl, rfl⟩
    · cases hv
  refine ⟨h.inode.repoint mid mid rfl rfl rfl (fun i n hu => ?_)
    (fun i n hn => absurd (unlocked n) hn)
    (fun i => (h.inode.slot i).refs) rfl,
      ⟨h.file.files, h.file.fresh, fun f' i n hv => ?_, fun f' pi hv => ?_⟩,
    ⟨h.pipe.ends, h.pipe.corpses⟩,
      h.proc.congr_loc (by simp [mid]) (by simp [Loc.look, mid]) rfl rfl rfl rfl⟩
  · rcases hu with hu | ⟨f', hv⟩
    · exact h.inum (.inl hu)
    · obtain ⟨-, -, hc⟩ := via hv
      cases hc
      rfl
  · obtain ⟨ht, rfl, hc⟩ := via hv
    cases hc
    exact ⟨files, pos, ht, rfl⟩
  · simp only [Loc.look] at hv
    split at hv
    · cases hv
      exact ⟨files, ‹_›, rfl⟩
    · cases hv

/-! ## Writing -/

theorem writei_cases {off k : Nat} {bs : List UInt8} {r : Int}
    (he : exec sb p (.writei i off k bs) s = .ok (r, s')) :
    (r = -1 ∧ s' = s ∧ (off ≤ (s.inode i).node.data.length → MAXFILE * BSIZE < off + k)) ∨
    ∃ addrs, r = (bs.take k).length ∧ s' = s.store i { (s.inode i).node with
      addrs, data := splice (s.inode i).node.data off (bs.take k) } := by
  simp only [exec] at he
  split at he
  · rename_i hoff
    cases he
    refine .inl ⟨rfl, rfl, fun hle => ?_⟩
    have hwrap : ¬off + k < 2 ^ 32 := fun hlt => by
      rw [Nat.mod_eq_of_lt hlt] at hoff
      omega
    exact lt_of_lt_of_le (by decide) (not_lt.1 hwrap)
  · split at he
    · cases he
      exact .inl ⟨rfl, rfl, fun _ => ‹_›⟩
    · split at he
      · cases he
      · cases he
        exact .inr ⟨_, rfl, rfl⟩

section Content

variable {x : Node} {off k : Nat} {bs : List UInt8} {r : Int}

/-- The content of an inode is written in memory and on disk. -/
theorem Next.store {o : Op} {r : o.Res} {z : Node} (hI : Inv s g) (h : At p l s g)
    (live : l.mid ≠ .exited)
    (hu : l.Uses (i, n)) (held : l.held n = some (x, x)) (type : z.type = x.type)
    (quiet : Quiet o r)
    (copy : copyOf (s.store i z) o r = some (i, (s.store i z).disk ((s.store i z).inode i).inum)) :
    Next p o r s (s.store i z) g (l.hold n z) := by
  have hn := h.inum hu
  obtain ⟨-, -, -, ht, -⟩ := (h.inode.slot i).held n x x hu held
  refine Next.content hI h live hu held quiet (.inr ?_) (type ▸ ht) ?_
  · rw [copy]
    simp [St.store, St.setDisk, St.setInode]
  · rw [St.store, hn]

theorem Next.writeiFail (hI : Inv s g) (h : At p l s g) (live : l.mid ≠ .exited)
    (hu : l.Uses (i, n))
    (held : l.held n = some (x, x)) : Next p (.writei i off k bs) (-1) s s g l := by
  have hn := h.inum hu
  obtain ⟨-, hx, hd, -⟩ := (h.inode.slot i).held n x x hu held
  have hs : s = s.store i x := by
    rw [St.store, St.setInode, ← hx, update_eq_self, St.setDisk, hx, hn, ← hd, update_eq_self]
  have next : Next p (.writei i off k bs) (-1 : Int) s (s.store i x) g (l.hold n x) :=
    Next.store hI h live hu held rfl (.of rfl) rfl
  rwa [← hs, Loc.hold, ← held, update_eq_self] at next

theorem Next.writeEntry {d : Nat} {de : Dirent} (hI : Inv s g) (h : At p l s g)
    (live : l.mid ≠ .exited)
    (hu : l.Uses (i, d)) (held : l.held d = some (x, x)) (length : de.bytes.length = DESIZE)
    (he : exec sb p (.writei i (DESIZE * k) DESIZE de.bytes) s = .ok (r, s')) :
    (r ≠ DESIZE ∧ (DESIZE * k ≤ x.data.length → MAXFILE * BSIZE < DESIZE * k + DESIZE) ∧
      Next p (.writei i (DESIZE * k) DESIZE de.bytes) r s s' g l) ∨
    r = DESIZE ∧ ∃ a, Next p (.writei i (DESIZE * k) DESIZE de.bytes) r s s' g
      (l.hold d (x.writeEntry a k de)) := by
  obtain ⟨-, hx, -⟩ := (h.inode.slot i).held d x x hu held
  rcases writei_cases he with ⟨rfl, rfl, hfull⟩ | ⟨addrs, rfl, rfl⟩
  · exact .inl ⟨by decide, hx ▸ hfull, Next.writeiFail hI h live hu held⟩
  · have htake : de.bytes.take DESIZE = de.bytes := take_of_length_le length.le
    rw [htake, hx]
    refine .inr ⟨by rw [length], addrs, ?_⟩
    exact Next.store (o := .writei i (DESIZE * k) DESIZE de.bytes) (z := x.writeEntry addrs k de) hI
      h live hu held
      rfl (.of rfl) rfl

end Content

/-! ## Rules -/

/-- What an operation with the given rule leads to. -/
structure Sound (p : P) (o : Op) (r : o.Res) (s s' : St P) (g : Ledger P)
    (R : o.Res → Loc → Prop) : Prop where
  inv : Inv s' (g.next p o r s s')
  self : ∃ l', R r l' ∧ At p l' s' (g.next p o r s s')
  others : ∀ q, q ≠ p →
    Kept (fun p l (t : St P × Ledger P) => At p l t.1 t.2) Loc.Idle (·.mid = .exited) q
    (s, g) (s', g.next p o r s s')

variable {R : o.Res → Loc → Prop}

theorem Next.sound (h : Next p o r s s' g l) (hR : R r l) :
    Sound p o r s s' g R :=
  ⟨h.inv, ⟨l, hR, h.self⟩, fun q hq l' hat => .inl (h.others q hq l' hat)⟩

namespace Sound

variable {R : o.Res → Loc → Prop}

theorem same (hI : Inv s g) (h : At p l s g) (live : l.mid ≠ .exited) (hR : R r l)
    (quiet : Quiet o r) (copy : copyOf s o r = none) :
    Sound p o r s s g R :=
  (Next.same hI h live quiet copy).sound hR

theorem own {of : Fd → Option FId} {cw : Option Ptr} {b : Bool} {k : Option P} (hI : Inv s g)
    (h : At p l s g) (live : l.mid ≠ .exited) (hs : s' = { s with
      ofile := Function.update s.ofile p of, cwd := Function.update s.cwd p (cw.map Prod.fst)
      busy := Function.update s.busy p b, committing := k })
    (hR : R r { l with ofile := of, cwd := cw, busy := b })
    (quiet : Quiet o r) (copy : copyOf s' o r = none) :
    Sound p o r s s' g R :=
  (Next.own hI h live quiet copy hs rfl).sound hR

end Sound

section Operations

variable (hI : Inv s g) (h : At p l s g)

include hI h

section Own

variable {R : Unit → Loc → Prop} {r : Unit}

theorem sound_beginOp (live : l.mid ≠ .exited) (he : exec sb p .beginOp s = .ok (r, s'))
    (hR : R () (l.setBusy true))
    : Sound p .beginOp r s s' g R := by
  obtain ⟨ho, hc, -⟩ := h.update_self live
  simp only [exec] at he
  split at he
  · cases he
  · cases he
    refine .own hI h live (k := s.committing) ?_ hR (.of rfl) rfl
    rw [ho, hc]

theorem sound_endOp {R : Bool → Loc → Prop} {r : Bool} (live : l.mid ≠ .exited)
    (he : exec sb p .endOp s = .ok (r, s')) (hR : R r (l.setBusy false)) :
    Sound p .endOp r s s' g R := by
  obtain ⟨ho, hc, -⟩ := h.update_self live
  simp only [exec] at he
  split at he
  · cases he
  · split at he
    · cases he
      refine .own hI h live (k := s.committing) ?_ hR (.of rfl) rfl
      rw [ho, hc]
    · cases he
      refine .own hI h live (k := some p) ?_ hR (.of rfl) rfl
      rw [ho, hc]

theorem sound_commit (live : l.mid ≠ .exited) (he : exec sb p .commit s = .ok (r, s'))
    (hR : R () l) : Sound p
    .commit r s s' g R := by
  obtain ⟨ho, hc, hb⟩ := h.update_self live
  cases he
  refine .own hI h live (k := none) ?_ hR (.of rfl) rfl
  rw [ho, hc, hb]

theorem sound_setCwd {c : Option Ptr} (live : l.mid ≠ .exited)
    (he : exec sb p (.setCwd (c.map Prod.fst)) s = .ok (r, s'))
    (hR : R () { l with cwd := c }) : Sound p
    (.setCwd (c.map Prod.fst)) r s s' g R := by
  obtain ⟨ho, -, hb⟩ := h.update_self live
  cases he
  refine .own hI h live (k := s.committing) ?_ hR (.of rfl) rfl
  rw [ho, hb]

theorem sound_fdclear {fd : Fd} (live : l.mid ≠ .exited)
    (he : exec sb p (.fdclear fd) s = .ok (r, s'))
    (hR : R () (l.setFd fd none)) : Sound p (.fdclear fd) r s s' g R := by
  obtain ⟨-, hc, hb⟩ := h.update_self live
  obtain ⟨-, hof, -⟩ := h.proc.live live
  cases he
  refine .own hI h live (k := s.committing) ?_ hR (.of rfl) rfl
  rw [hc, hb, hof]

theorem sound_fdalloc {R : Option Fd → Loc → Prop} {r : Option Fd} (live : l.mid ≠ .exited)
    (he : exec sb p (.fdalloc f) s = .ok (r, s')) (none : R none l)
    (some : ∀ fd, l.ofile fd = .none → R (some fd) (l.setFd fd (.some f))) :
    Sound p (.fdalloc f) r s s' g R := by
  obtain ⟨-, hc, hb⟩ := h.update_self live
  obtain ⟨-, hof, -⟩ := h.proc.live live
  simp only [exec] at he
  split at he
  · rename_i fd hfd
    have := find?_some hfd
    rw [hof, Option.isNone_iff_eq_none] at this
    cases he
    refine .own hI h live (k := s.committing) ?_ (some fd this) (.of rfl) rfl
    rw [hc, hb, hof]
  · cases he
    exact .same hI h live none (.of rfl) rfl

end Own

section Inode

variable {R : Unit → Loc → Prop} {r : Unit}

theorem sound_iget {R : IId → Loc → Prop} {r : IId} (mid : l.mid = .idle)
    (he : exec sb p (.iget n) s = .ok (r, s'))
    (hR : (∀ j, l.Uses (j, n) → j = r) → R r (l.take (r, n))) : Sound p (.iget n) r s s' g R := by
  simp only [exec] at he
  split at he
  · rename_i i hf
    cases he
    obtain ⟨pos, hn⟩ := St.find_true hf
    refine Next.sound ?_ (hR (h.only hI pos hn))
    exact Next.take hI h mid pos hn (.of rfl) rfl rfl
  · rename_i i hf
    cases he
    refine (Next.igetNew hI h mid hf rfl).sound (hR fun j hj => ?_)
    exact absurd (h.inum hj) ((St.find_false hf).2 j (hI.inode.ref_pos (h.used hj)))
  · cases he

theorem sound_idup (mid : l.mid = .idle) (refs : 0 < l.refs (i, n))
    (he : exec sb p (.idup i) s = .ok (r, s'))
    (hR : R () (l.take (i, n))) : Sound p (.idup i) r s s' g R := by
  cases he
  refine Next.sound ?_ hR
  exact Next.take hI h mid (hI.inode.ref_pos (h.used (.inl refs))) (h.inum (.inl refs))
    (.of rfl) rfl rfl

theorem sound_acquire (mid : l.mid = .idle) (uses : l.Uses (i, n))
    (he : exec sb p (.acquire i) s = .ok (r, s'))
    (hR : l.held n = none → R () { l with mid := .loading (i, n) }) :
    Sound p (.acquire i) r s s' g R := by
  simp only [exec] at he
  split at he
  · cases he
  · split at he
    · rename_i lock
      cases he
      exact (Next.acquire hI h mid uses lock rfl).sound (hR (h.held_eq_none uses (by simp [lock])))
    · cases he

theorem sound_load (mid : l.mid = .loading (i, n)) (he : exec sb p (.load i) s = .ok (r, s'))
    (hR : ∀ x : Node, x.type ≠ .free → R () { l.hold n x with mid := .idle }) :
    Sound p (.load i) r s s' g R := by
  have slot := h.inode.slot i
  obtain ⟨uses, -, valid⟩ := slot.loading n mid
  simp only [exec] at he
  split at he
  · rename_i hv
    cases he
    obtain ⟨hx, ht⟩ := valid hv
    refine (Next.load hI h mid ht ?_).sound (hR _ ht)
    rw [← hx, St.setInode, ← hv, update_eq_self]
  · split at he
    · cases he
    · rename_i ht
      rw [h.inum uses] at ht
      cases he
      refine (Next.load hI h mid ht ?_).sound (hR _ ht)
      rw [← h.inum uses]

variable {x : Node}

theorem sound_iunlock (mid : l.mid = .idle) (uses : l.Uses (i, n)) (held : l.held n = some (x, x))
    (he : exec sb p (.iunlock i) s = .ok (r, s')) (hR : R () (l.release n)) :
    Sound p (.iunlock i) r s s' g R := by
  simp only [exec] at he
  split at he
  · cases he
  · cases he
    exact (Next.iunlock hI h mid uses held rfl).sound hR

variable {y : Node}

theorem sound_setInode {z : Node} (live : l.mid ≠ .exited) (uses : l.Uses (i, n))
    (held : l.held n = some (x, y)) (he : exec sb p (.setInode i z) s = .ok (r, s'))
    (hR : R () { l with held := Function.update l.held n (some (z, y)) }) :
    Sound p (.setInode i z) r s s' g R :=
    by
  obtain ⟨-, -, hd, ht, -⟩ := (h.inode.slot i).held n x y uses held
  cases he
  have quiet : Quiet (.setInode i z) () := .of rfl
  refine (Next.content hI h live uses held quiet (.inl ⟨rfl, rfl⟩) ht ?_).sound hR
  rw [St.setDisk, ← hd]
  exact congrArg (fun d => { s.setInode i _ with disk := d }) (update_eq_self n s.disk).symm

theorem sound_iupdate (live : l.mid ≠ .exited) (uses : l.Uses (i, n))
    (held : l.held n = some (x, y)) (type : x.type = y.type)
    (he : exec sb p (.iupdate i) s = .ok (r, s'))
    (hR : R () (l.hold n x)) : Sound p (.iupdate i) r s s' g R := by
  obtain ⟨-, hx, -, ht, -⟩ := (h.inode.slot i).held n x y uses held
  have hn := h.inum uses
  cases he
  have quiet : Quiet (.iupdate i) () := .of rfl
  refine (Next.content (z := x) (w := x) hI h live uses held quiet (.inr ?_)
    (type ▸ ht) ?_).sound hR
  · simp [copyOf, St.setDisk, hx]
  · rw [hn, hx, St.setInode, ← hx, update_eq_self]

theorem sound_iupdateFree (mid : l.mid = .doomed (i, n)) (held : l.held n = some (x, y))
    (he : exec sb p (.iupdate i) s = .ok (r, s'))
    (hR : R () { l.release n with mid := .dead (i, n) }) : Sound p
    (.iupdate i) r s s' g R := by
  have uses : l.Uses (i, n) := .inl ((h.inode.slot i).doomed n mid).1
  obtain ⟨-, hx, -⟩ := (h.inode.slot i).held n x y uses held
  cases he
  refine (Next.iupdateFree hI h mid held ?_).sound hR
  rw [h.inum uses, hx]

theorem sound_itrunc (live : l.mid ≠ .exited) (uses : l.Uses (i, n)) (held : l.held n = some (x, x))
    (he : exec sb p (.itrunc i) s = .ok (r, s'))
    (hR : R () (l.hold n { x with addrs := [], data := [] })) : Sound
    p (.itrunc i) r s s' g R := by
  obtain ⟨-, hx, -⟩ := (h.inode.slot i).held n x x uses held
  cases he
  rw [hx]
  have quiet : Quiet (.itrunc i) () := .of rfl
  exact (Next.store (z := { x with addrs := [], data := [] }) hI h live uses held rfl
    quiet rfl).sound hR

variable {k : Nat}

theorem sound_write {off : Nat} {bs : List UInt8} {R : Int → Loc → Prop} {r : Int}
    (live : l.mid ≠ .exited)
    (uses : l.Uses (i, n)) (held : l.held n = some (x, x))
    (he : exec sb p (.writei i off k bs) s = .ok (r, s'))
    (hR : ∀ addrs data, R r (l.hold n { x with addrs, data })) :
    Sound p (.writei i off k bs) r s s' g R := by
  obtain ⟨-, hx, -⟩ := (h.inode.slot i).held n x x uses held
  rcases writei_cases he with ⟨rfl, rfl, -⟩ | ⟨addrs, rfl, rfl⟩
  · have hl : l.hold n x = l := by rw [Loc.hold, ← held, update_eq_self]
    exact (Next.writeiFail hI h live uses held).sound (hl ▸ hR x.addrs x.data)
  · rw [hx]
    have quiet (r : Int) : Quiet (.writei i off k bs) r := .of rfl
    exact (Next.store (z := { x with addrs, data := splice x.data off (bs.take k) }) hI h
      live uses held rfl
      (quiet _) rfl).sound (hR addrs _)

theorem sound_writeEntry {d : Nat} {de : Dirent} {Q : Loc → Prop} {r : Int} (mid : l.mid = .idle)
    (uses : l.Uses (i, d)) (held : l.held d = some (x, x)) (length : de.bytes.length = DESIZE)
    (he : exec sb p (.writei i (DESIZE * k) DESIZE de.bytes) s = .ok (r, s'))
    (hQ : ∀ a, Q (l.hold d (x.writeEntry a k de))) :
    Sound p (.writei i (DESIZE * k) DESIZE de.bytes) r s s' g (Wrote l x k Q) := by
  rcases Next.writeEntry hI h (by simp [mid]) uses held length he with ⟨hr, hfull, next⟩ |
    ⟨hr, a, next⟩
  · exact next.sound ⟨fun h => absurd h hr, fun _ => ⟨rfl, hfull⟩⟩
  · exact next.sound ⟨fun _ => hQ a, fun h => absurd hr h⟩

theorem sound_iputTest {R : Bool → Loc → Prop} {r : Bool} (mid : l.mid = .idle)
    (refs : 0 < l.refs (i, n))
    (free : l.held n = none ∨ 2 ≤ l.refs (i, n)) (he : exec sb p (.iputTest i) s = .ok (r, s'))
    (drop : R false (l.drop (i, n)))
    (last : ∀ x : Node, l.held n = none → R true { l.hold n x with mid := .doomed (i, n) }) :
    Sound p (.iputTest i) r s s' g R := by
  simp only [exec] at he
  split at he
  · rename_i hf
    split at he
    · rename_i lock
      cases he
      exact (Next.iputTestTrue hI h mid refs lock hf.2.1 rfl).sound
        (last _ (h.held_eq_none (.inl refs) (by simp [lock])))
    · cases he
  · cases he
    have hl : { l.drop (i, n) with mid := .idle } = l.drop (i, n) := by rw [← mid]; rfl
    refine Next.sound ?_ (hl.symm ▸ drop)
    exact Next.drop hI h (.inl mid) refs free (.of rfl) rfl rfl

theorem sound_iputDrop (mid : l.mid = .gone (i, n)) (he : exec sb p (.iputDrop i) s = .ok (r, s'))
    (hR : R () { l.drop (i, n) with mid := .idle }) : Sound p (.iputDrop i) r s s' g R := by
  obtain ⟨refs, held⟩ := (h.inode.slot i).gone n mid
  cases he
  refine Next.sound ?_ hR
  exact Next.drop hI h (.inr mid) refs (.inl held) (.of rfl) rfl rfl

theorem sound_alloc {type : IType} {R : Bool → Loc → Prop} {r : Bool} (mid : l.mid = .idle)
    (he : exec sb p (.alloc n type) s = .ok (r, s')) (no : R false l)
    (yes : l.held n = none → R true l) : Sound p (.alloc n type) r s s' g R := by
  simp only [exec] at he
  split at he
  · rename_i hfree
    cases he
    refine (Next.alloc hI h mid (fun m hm => ?_) rfl).sound (yes ?_)
    · refine update_of_ne ?_ ..
      rintro rfl
      exact hm hfree
    · by_contra hh
      obtain ⟨j, hj⟩ := h.inode.uses n hh
      obtain ⟨⟨x, y⟩, hxy⟩ := Option.ne_none_iff_exists'.1 hh
      obtain ⟨-, -, hd, ht, -⟩ := (h.inode.slot j).held n x y hj hxy
      exact ht (hd ▸ hfree)
  · cases he
    exact .same hI h (by simp [mid]) no (.of rfl) rfl

end Inode

/-! ## Files, pipes and processes -/

section File

variable {R : Unit → Loc → Prop} {r : Unit}

theorem sound_filealloc {R : Option FId → Loc → Prop} {r : Option FId} (live : l.mid ≠ .exited)
    (he : exec sb p .filealloc s = .ok (r, s')) (none : R none l)
    (some : ∀ f, l.files f = 0 → f ∉ l.fresh → R (some f) (l.newFile f)) :
    Sound p .filealloc r s s' g R := by
  simp only [exec] at he
  split at he
  · rename_i f hf
    have h0 : (s.file f).ref = 0 := by simpa using find?_some hf
    cases he
    obtain ⟨files, fresh, next⟩ : l.files f = 0 ∧ f ∉ l.fresh ∧
        Next p .filealloc (Option.some f) s _ g (l.newFile f) := Next.filealloc hI h live h0 rfl
    exact next.sound (some f files fresh)
  · cases he
    exact .same hI h live none (.of rfl) rfl

theorem sound_filedup (live : l.mid ≠ .exited) (files : 0 < l.files f)
    (he : exec sb p (.filedup f) s = .ok (r, s'))
    (hR : R () { l with files := l.files + Pi.single f 1, fresh := l.fresh \ {f} }) :
    Sound p (.filedup f) r s s' g
    R := by
  simp only [exec] at he
  split at he
  · cases he
  · cases he
    exact (Next.filedup hI h live files rfl).sound hR

theorem sound_fileclose {R : Option File → Loc → Prop} {r : Option File} (mid : l.mid = .idle)
    (files : 0 < l.files f) (refs : ∀ i n, l.held n ≠ none → l.Uses (i, n) → 0 < l.refs (i, n))
    (he : exec sb p (.fileclose f) s = .ok (r, s')) (none : R none (l.closeFile f))
    (some : ∀ (ff : File) n, (f ∈ l.fresh → ff.type = .none) → R (some ff) { l.closeFile f with
      refs :=
        if ff.type = .inode ∨ ff.type = .device then l.refs + Pi.single (ff.ip, n) 1 else l.refs
      ends := if ff.type = .pipe then l.ends + Pi.single (ff.pipe, ff.writable) 1 else l.ends }) :
    Sound p (.fileclose f) r s s' g R := by
  simp only [exec] at he
  split at he
  · cases he
  · split at he
    · rename_i hr
      cases he
      exact (Next.filecloseSome hI h mid files refs hr rfl).sound none
    · cases he
      refine (Next.filecloseLast hI h mid files refs (by omega) rfl).sound (some _ _ fun hf => ?_)
      exact (h.file.fresh f hf).2.2

end File

section Pipe

theorem sound_pipeNew {R : Option Nat → Loc → Prop} {r : Option Nat} (live : l.mid ≠ .exited)
    (he : exec sb p .pipeNew s = .ok (r, s')) (none : R none l)
    (some : ∀ pi,
      R (some pi) { l with ends := l.ends + Pi.single (pi, false) 1 + Pi.single (pi, true) 1 }) :
    Sound p .pipeNew r s s' g R := by
  simp only [exec] at he
  split at he
  · cases he
    exact .same hI h live none (.of rfl) rfl
  · rename_i pi free hfree
    cases he
    exact (Next.pipeNew hI h live hfree rfl).sound (some pi)

theorem sound_pipeclose {pi : Nat} {w : Bool} {R : Bool → Loc → Prop} {r : Bool}
    (live : l.mid ≠ .exited) (ends : 0 < l.ends (pi, w))
    (he : exec sb p (.pipeclose pi w) s = .ok (r, s')) (hR : R r { l with
      ends := l.ends - Pi.single (pi, w) 1
      corpses := if r then l.corpses + Pi.single pi 1 else l.corpses }) :
    Sound p (.pipeclose pi w) r s s' g R := by
  simp only [exec] at he
  split at he
  · rename_i hx
    obtain ⟨hopen, -⟩ := h.open_end hI ends
    simp [hx, Pipe.isOpen] at hopen
  · rename_i x hx
    cases he
    exact (Next.pipeclose hI h live ends hx rfl rfl rfl).sound hR

end Pipe

section Proc

variable {R : Unit → Loc → Prop} {r : Unit}

theorem sound_allocproc {R : Bool → Loc → Prop} {r : Bool} (live : l.mid ≠ .exited)
    (kid : l.kid = none) (he : exec sb p .allocproc s = .ok (r, s')) (no : R false l)
    (yes : R true { l with kid := some ⟨fun _ => none, none⟩ }) :
    Sound p .allocproc r s s' g R := by
  simp only [exec] at he
  split at he
  · cases he
    exact .same hI h live no (.of rfl) rfl
  · split at he
    · rename_i hq
      cases he
      exact (Next.allocproc hI h live kid hq rfl).sound yes
    · cases he
      exact .same hI h live no (.of rfl) rfl

theorem sound_freeproc (live : l.mid ≠ .exited) (kid : l.kid = some ⟨fun _ => none, none⟩)
    (he : exec sb p .freeproc s = .ok (r, s')) (hR : R () { l with kid := none }) :
    Sound p .freeproc r s s' g R :=
    by
  simp only [exec] at he
  split at he
  · cases he
  · rename_i hq
    cases he
    exact (Next.freeproc hI h live kid hq rfl).sound hR

theorem sound_childFd {k : Kid} {fd : Fd} (live : l.mid ≠ .exited) (kid : l.kid = some k)
    (he : exec sb p (.childFd fd f) s = .ok (r, s'))
    (hR : R () { l with kid := some { k with ofile := Function.update k.ofile fd (some f) } }) :
    Sound p
    (.childFd fd f) r s s' g R := by
  obtain ⟨q, hq, ho, hc⟩ := h.proc.kid k kid
  simp only [exec, hq] at he
  cases he
  have quiet : Quiet (.childFd fd f) () := .of rfl
  refine (Next.child hI h live hq quiet rfl ?_).sound hR
  rw [ho, ← hc, update_eq_self]

theorem sound_childCwd {k : Kid} {c : Ptr} (live : l.mid ≠ .exited) (kid : l.kid = some k)
    (he : exec sb p (.childCwd c.1) s = .ok (r, s'))
    (hR : R () { l with kid := some { k with cwd := some c } }) :
    Sound p (.childCwd c.1) r s s' g R := by
  obtain ⟨q, hq, ho, hc⟩ := h.proc.kid k kid
  simp only [exec, hq] at he
  cases he
  have quiet : Quiet (.childCwd c.1) () := .of rfl
  refine (Next.child hI h live hq quiet rfl ?_).sound hR
  dsimp only
  rw [← ho, update_eq_self]
  rfl

theorem sound_runnable {k : Kid} (mid : l.mid = .idle) (kid : l.kid = some k)
    (unlocked : l.Unlocked) (fresh : l.fresh = ∅)
    (refs : cwdRefs k.cwd ≤ l.refs) (files : fdFiles k.ofile ≤ l.files)
    (he : exec sb p .runnable s = .ok (r, s'))
    (hR : R () { l with
      refs := l.refs - cwdRefs k.cwd, files := l.files - fdFiles k.ofile
      via := none, viaPipe := none, kid := none }) : Sound p .runnable r s s' g R := by
  simp only [exec] at he
  split at he
  · cases he
  · rename_i q hq
    cases he
    have forks : Forks p q k l s g := ⟨h, mid, kid, unlocked, refs, files, fresh, hq⟩
    obtain ⟨inv, self, others, new⟩ := @Forks.next _ _ _ _ _ _ _ _ _ _ forks hI rfl
    refine ⟨inv, ⟨_, hR, self⟩, fun r hr lr hat => ?_⟩
    by_cases hrq : r = q
    · subst hrq
      exact .inr (new lr hat)
    · exact .inl (others r hr hrq lr hat)

end Proc

end Operations

theorem Rule.sound (hI : Inv s g) (h : At p l s g) (rule : Rule l o R)
    (he : exec sb p o s = .ok (r, s')) : Sound p o r s s' g R := by
  cases rule with
  | beginOp busy unlocked mid => exact sound_beginOp hI h (by simp [mid]) he rfl
  | endOp live => exact sound_endOp hI h live he rfl
  | commit live => exact sound_commit hI h live he rfl
  | iget mid => exact sound_iget hI h mid he fun only => ⟨only, rfl⟩
  | idup mid refs => exact sound_idup hI h mid refs he rfl
  | acquire mid uses => exact sound_acquire hI h mid uses he fun held => ⟨held, rfl⟩
  | load mid => exact sound_load hI h mid he fun x hx => ⟨x, hx, rfl⟩
  | iunlock mid uses held => exact sound_iunlock hI h mid uses held he rfl
  | inum live uses =>
    cases he
    exact .same hI h live ⟨(h.inum uses).symm, rfl⟩ (.of rfl) rfl
  | inode live uses held =>
    obtain ⟨-, hx, -⟩ := (h.inode.slot _).held _ _ _ uses held
    cases he
    exact .same hI h live ⟨hx.symm, rfl⟩ (.of rfl) rfl
  | readi live uses held =>
    obtain ⟨-, hx, -⟩ := (h.inode.slot _).held _ _ _ uses held
    cases he
    exact .same hI h live ⟨rfl, by rw [hx]⟩ (.of rfl) rfl
  | setInode live uses held => exact sound_setInode hI h live uses held he rfl
  | iupdate mid uses held type => exact sound_iupdate hI h (by simp [mid]) uses held type he rfl
  | iupdateFree mid held type => exact sound_iupdateFree hI h mid held he rfl
  | write mid uses held =>
    exact sound_write hI h (by simp [mid]) uses held he fun addrs data => ⟨addrs, data, rfl⟩
  | writeEntry mid uses held length =>
    exact sound_writeEntry hI h mid uses held length he fun a => ⟨a, rfl⟩
  | itrunc mid uses held =>
    have live : l.mid ≠ .exited := by
      rcases mid with mid | mid
      · simp [mid]
      · simp [mid]
    exact sound_itrunc hI h live uses held he rfl
  | iputTest mid refs free =>
    exact sound_iputTest hI h mid refs free he ⟨fun _ => rfl, nofun⟩ fun x held =>
      ⟨nofun, fun _ => ⟨x, held, rfl⟩⟩
  | invalidate mid =>
    cases he
    exact (Next.invalidate hI h mid rfl).sound rfl
  | iputRelease mid =>
    cases he
    exact (Next.iputRelease hI h mid rfl).sound rfl
  | iputDrop mid => exact sound_iputDrop hI h mid he rfl
  | alloc mid notFree =>
    exact sound_alloc hI h mid he ⟨rfl, nofun⟩ fun held => ⟨rfl, fun _ => held⟩
  | cwd live =>
    obtain ⟨-, -, hc⟩ := h.proc.live live
    simp only [exec] at he
    split at he
    · rename_i c hcw
      cases he
      obtain ⟨⟨c', m⟩, hm, rfl⟩ := Option.map_eq_some_iff.1 (hc.symm.trans hcw)
      exact .same hI h live ⟨⟨m, hm⟩, rfl⟩ (.of rfl) rfl
    · cases he
  | setCwd live => exact sound_setCwd hI h live he rfl
  | fd live =>
    obtain ⟨-, ho, -⟩ := h.proc.live live
    cases he
    exact .same hI h live ⟨by rw [ho], rfl⟩ (.of rfl) rfl
  | fdclear live => exact sound_fdclear hI h live he rfl
  | fdalloc live =>
    exact sound_fdalloc hI h live he ⟨fun _ => rfl, nofun⟩ fun fd hfd =>
      ⟨nofun, fun fd' h' => by cases h'; exact ⟨hfd, rfl⟩⟩
  | filealloc live =>
    exact sound_filealloc hI h live he ⟨fun _ => rfl, nofun⟩ fun f files fresh =>
      ⟨nofun, fun f' h' => by cases h'; exact ⟨files, fresh, rfl⟩⟩
  | filedup live files => exact sound_filedup hI h live files he rfl
  | fileclose mid files refs =>
    exact sound_fileclose hI h mid files refs he ⟨fun _ => rfl, nofun⟩ fun ff n type =>
      ⟨nofun, fun ff' h' => by cases h'; exact ⟨type, n, rfl⟩⟩
  | file live files =>
    cases he
    exact .same hI h live ⟨rfl, fun hf => (h.file.fresh _ hf).2.1⟩ (.of rfl) rfl
  | fileVia mid files unlocked =>
    cases he
    exact .same hI (h.look hI mid unlocked files) (by simp [Loc.look, mid]) ⟨_, rfl⟩ (.of rfl) rfl
  | setFile mid fresh ref type refs held =>
    cases he
    exact (Next.setFile hI h mid fresh ref type refs held rfl).sound rfl
  | setFilePipe live fresh ref type ends =>
    cases he
    exact (Next.setFilePipe hI h live fresh ref type ends rfl).sound rfl
  | setOff live files =>
    cases he
    exact (Next.setOff hI h live files rfl).sound rfl
  | pipeNew live =>
    exact sound_pipeNew hI h live he ⟨fun _ => rfl, nofun⟩ fun pi =>
      ⟨nofun, fun pi' h' => by cases h'; rfl⟩
  | pipeAccess live via =>
    cases he
    exact .same hI h live rfl (.of rfl) rfl
  | pipeclose live ends =>
    refine sound_pipeclose hI h live ends he ⟨?_, ?_⟩
    · rintro rfl
      rfl
    · rintro rfl
      rfl
  | kfree live corpse =>
    cases he
    exact (Next.kfree hI h live corpse rfl).sound rfl
  | allocproc live kid =>
    exact sound_allocproc hI h live kid he ⟨nofun, fun _ => rfl⟩ ⟨fun _ => rfl, nofun⟩
  | freeproc live kid => exact sound_freeproc hI h live kid he rfl
  | childFd live kid => exact sound_childFd hI h live kid he rfl
  | childCwd live kid refs => exact sound_childCwd hI h live kid he rfl
  | runnable mid kid unlocked fresh cwd refs files =>
    exact sound_runnable hI h mid kid unlocked fresh refs files he rfl
  | zombie mid idle cwd ofile =>
    cases he
    exact (Next.zombie hI h mid idle cwd ofile rfl).sound rfl
  | panic => cases he
  | panicFull => cases he

omit [DecidableEq P] [Fintype P] in
theorem Rule.live (rule : Rule l o R) : l.mid ≠ .exited := by
  cases rule with
  | itrunc mid => rcases mid with mid | mid <;> simp [mid]
  | _ => first | assumption | simp [*]

variable {e : Panic}

/-- How an operation can panic because of a lost reference or lock. -/
theorem exec_panic (he : exec sb p o s = .panic e) : e ∉ lostPanics ∨ o = .panic e ∨
    (∃ i, o = .acquire i ∧ (s.inode i).ref = 0) ∨
    (∃ i, o = .iunlock i ∧ ((s.inode i).lock ≠ some p ∨ (s.inode i).ref = 0)) ∨
    ∃ f, (o = .filedup f ∨ o = .fileclose f) ∧ (s.file f).ref = 0 := by
  cases o with
  | acquire i =>
    simp only [exec] at he
    split at he
    · exact .inr (.inr (.inl ⟨i, rfl, by omega⟩))
    · split at he <;> cases he
  | iunlock i =>
    simp only [exec] at he
    split at he
    · rename_i h
      exact .inr (.inr (.inr (.inl ⟨i, rfl, h.imp_right fun h => by omega⟩)))
    · cases he
  | filedup f =>
    simp only [exec] at he
    split at he
    · exact .inr (.inr (.inr (.inr ⟨f, .inl rfl, by omega⟩)))
    · cases he
  | fileclose f =>
    simp only [exec] at he
    split at he
    · exact .inr (.inr (.inr (.inr ⟨f, .inr rfl, by omega⟩)))
    · split at he <;> cases he
  | panic e' =>
    cases he
    exact .inr (.inl rfl)
  | _ =>
    left
    simp only [exec] at he
    repeat' first | cases he <;> decide | split at he

theorem Rule.panics (hI : Inv s g) (h : At p l s g)
    (rule : Rule l o R) (he : exec sb p o s = .panic e) : e ∉ lostPanics := by
  have used {i : IId} {n : Nat} (hu : l.Uses (i, n)) : (s.inode i).ref ≠ 0 :=
    (hI.inode.ref_pos (h.used hu)).ne'
  have opened {f : FId} (hf : 0 < l.files f) : (s.file f).ref ≠ 0 :=
    (Int.natCast_pos.1 ((h.files_pos.2 hf).trans_le hI.file.files_le)).ne'
  rcases exec_panic he with hl | rfl | ⟨i, rfl, h0⟩ | ⟨i, rfl, h0⟩ | ⟨f, rfl | rfl, h0⟩
  · exact hl
  · cases rule with
    | panic live ok => exact fun hl => ok (mem_append_left _ hl)
    | panicFull live uses held type full => decide
  · cases rule with
    | acquire mid uses => exact absurd h0 (used uses)
  · cases rule with
    | iunlock mid uses held =>
      rcases h0 with h0 | h0
      · exact absurd (h.lock_of_held uses (by simp [held])) h0
      · exact absurd h0 (used uses)
  · cases rule with
    | filedup live files => exact absurd h0 (opened files)
  · cases rule with
    | fileclose mid files => exact absurd h0 (opened files)

/-! ## Runs -/

variable {room : Bool} {bmap : List Nat → Nat → List Nat} {spare : Option P} {free : List Nat}
  {stage : P → Stage}

omit [DecidableEq P] in
/-- What happens outside the calls. -/
theorem Inv.env (hI : Inv s g) (nodup : free.Nodup) (hfree : ∀ pi ∈ free, s.pipe pi = none)
    (hst : ∀ q, stage q = s.stage q ∨ s.stage q = .zombie ∧ stage q = .unused) :
    Inv { s with room, bmap, spare, free, stage } g := by
  refine ⟨hI.inode.congr rfl rfl rfl rfl rfl, hI.file.congr rfl rfl,
    ⟨hI.pipe.law, hI.pipe.nonneg, hI.pipe.dead,
    hI.pipe.corpses, nodup, hfree⟩, ⟨fun q hq => ?_, fun q => ?_, hI.proc.inj⟩⟩
  · refine hI.proc.gone q ?_
    rcases hst q with h | ⟨h, -⟩
    · rwa [← h]
    · exact .inr h
  · rw [← hI.proc.used q]
    rcases hst q with h | ⟨h, h'⟩
    · rw [← h]
    · simp [h, h']

omit [DecidableEq P] [Fintype P] in
theorem At.env (h : At p l s g)
    (hst : ∀ q, stage q = s.stage q ∨ s.stage q = .zombie ∧ stage q = .unused) :
    At p l { s with room, bmap, spare, free, stage } g := by
  refine ⟨h.inode.congr rfl rfl rfl rfl rfl rfl rfl rfl,
    h.file.congr rfl rfl rfl rfl rfl rfl, h.pipe,
    ⟨fun hm => ?_, fun hm => ?_, h.proc.kid, h.proc.noKid, h.proc.busy⟩⟩
  · obtain ⟨hl, ho, hc⟩ := h.proc.live hm
    refine ⟨?_, ho, hc⟩
    rcases hst p with h' | ⟨h', -⟩
    · exact h'.trans hl
    · simp [hl] at h'
  · obtain ⟨hl, rest⟩ := h.proc.dead hm
    refine ⟨?_, rest⟩
    rcases hst p with h' | ⟨-, h'⟩
    · simpa [h'] using hl
    · simp [h']

/-- The runs with their accounts. -/
abbrev ledgered (sb : Superblock) (guard : P → Op → St P → Prop) :
    System iface (St P × Ledger P) Panic P :=
  (system sb guard).withGhost fun p o r s s' g => g.next p o r s s'

/-- The rules are sound in all runs. -/
def rulesSound (sb : Superblock) (guard : P → Op → St P → Prop) :
    LocalProof (ledgered sb guard) Rule where
  Inv t := Inv t.1 t.2
  At p l t := At p l t.1 t.2
  Idle := Loc.Idle
  Ended l := l.mid = .exited
  Tol e := e ∉ lostPanics
  live rule := rule.live
  step := by
    intro p o t r t' l R hI _ hat rule he
    obtain ⟨he, hg⟩ := System.withGhost_ok he
    obtain ⟨inv, self, others⟩ := Rule.sound hI hat rule he
    obtain ⟨s', g'⟩ := t'
    dsimp only at hg
    subst hg
    exact ⟨inv, self, others⟩
  panic hI _ hat rule he := rule.panics hI hat (System.withGhost_panic.1 he)
  env := by
    rintro ⟨s, g⟩ ⟨s', g'⟩ ⟨⟨room, bmap, spare, free, stage, nodup, hfree, hst, rfl⟩, hg⟩ hI
    dsimp only at hg
    subst hg
    exact ⟨hI.env nodup hfree hst, fun p l hat => .inl (hat.env hst)⟩

end Xv6.Dir
