import Xv6.Bio.Cache
import Mathlib.Data.Fintype.Card
import Mathlib.Data.List.FinRange

/-!
# The representation invariant of the buffer cache

The list through all buffers, the uniqueness of the cached blocks, and the reference counts; and
what the operations of one process leave to the others.
-/

namespace Xv6

open Lib Function List

namespace Bcache

variable {c c' : Bcache} {i j : BufId} {dev blockno : Nat}

theorem buf_set_self (c : Bcache) (i : BufId) (b : Buf) : (c.set i b).buf i = b :=
  update_self ..

theorem buf_set_of_ne (c : Bcache) (h : j ≠ i) (b : Buf) : (c.set i b).buf j = c.buf j :=
  update_of_ne h ..

structure Wf (c : Bcache) : Prop where
  ring : ∃ l, c.ring.Spells l ∧ ∀ i, i ∈ l
  unique : ∀ i j, (c.buf i).dev ≠ 0 → (c.buf i).dev = (c.buf j).dev →
    (c.buf i).blockno = (c.buf j).blockno → i = j

theorem spells_foldl_pushFront {r : LinkedRing BufId} {l l' : List BufId} (h : r.Spells l)
    (hd : (l' ++ l).Nodup) : (l'.foldl .pushFront r).Spells (l'.reverse ++ l) := by
  induction l' generalizing r l with
  | nil => exact h
  | cons a l' ih =>
    simp only [cons_append, nodup_cons, mem_append, not_or] at hd
    have := ih (h.pushFront hd.1.2) (by
      rw [nodup_append] at hd ⊢
      refine ⟨hd.2.1, nodup_cons.2 ⟨hd.1.2, hd.2.2.1⟩, ?_⟩
      rintro x hx y hy rfl
      rcases mem_cons.1 hy with rfl | hy
      · exact hd.1.1 hx
      · exact hd.2.2.2 x hx x hy rfl)
    simpa using this

theorem spells_init : init.ring.Spells (finRange NBUF).reverse := by
  have hnd : (finRange NBUF ++ []).Nodup := by simpa using nodup_finRange NBUF
  have := spells_foldl_pushFront .empty hnd
  rwa [append_nil] at this

theorem Wf.init : init.Wf := ⟨⟨_, spells_init, by simp⟩, fun i j h => absurd rfl h⟩

/-- The two ways in which `bget` succeeds. -/
inductive Bget (c : Bcache) (dev blockno : Nat) (i : BufId) (c' : Bcache) : Prop
  | hit (dev : (c.buf i).dev = dev) (blockno : (c.buf i).blockno = blockno)
      (state : c' = c.set i { c.buf i with refcnt := (c.buf i).refcnt + 1 })
  | recycle (miss : ∀ j, (c.buf j).dev = dev → (c.buf j).blockno ≠ blockno)
      (unused : (c.buf i).refcnt = 0)
      (state : c' = c.set i { c.buf i with dev, blockno, valid := false, refcnt := 1 })

theorem Wf.length (h : c.Wf) : ∃ l, c.ring.Spells l ∧ (∀ i, i ∈ l) ∧ l.length < NBUF + 1 := by
  obtain ⟨l, hl, all⟩ := h.ring
  refine ⟨l, hl, all, ?_⟩
  have := List.Nodup.length_le_card hl.nodup
  rw [Fintype.card_fin] at this
  omega

theorem Wf.bget_cases (h : c.Wf) (hb : c.bget dev blockno = .ok (i, c')) :
    Bget c dev blockno i c' := by
  obtain ⟨l, hl, all, hlen⟩ := h.length
  simp only [bget, hl.find_next _ hlen, hl.find_prev _ hlen] at hb
  split at hb
  · rename_i j hj
    cases hb
    have := find?_some hj
    simp only [Bool.decide_and, Bool.and_eq_true, decide_eq_true_eq] at this
    exact .hit this.1 this.2 rfl
  · rename_i hmiss
    split at hb
    · rename_i j hj
      cases hb
      have := find?_some hj
      refine .recycle (fun k hd hk => ?_) (by simpa using this) rfl
      have := find?_eq_none.1 hmiss k (all k)
      simp [hd, hk] at this
    · cases hb

/-- As long as a buffer is not in use, `bget` finds one. -/
theorem Wf.bget_of_unused (h : c.Wf) (hj : (c.buf j).refcnt = 0) (dev blockno : Nat) :
    ∃ i c', c.bget dev blockno = .ok (i, c') := by
  obtain ⟨l, hl, all, hlen⟩ := h.length
  simp only [bget, hl.find_next _ hlen, hl.find_prev _ hlen]
  split
  · exact ⟨_, _, rfl⟩
  · split
    · exact ⟨_, _, rfl⟩
    · rename_i hnone
      have := find?_eq_none.1 hnone j (mem_reverse.2 (all j))
      simp [hj] at this

theorem bget_error {e : Panic} (hb : c.bget dev blockno = .error e) : e = .bgetNoBuffers := by
  simp only [bget] at hb
  split at hb
  · cases hb
  · split at hb <;> cases hb
    rfl

/-- A change that keeps the list and the block of every buffer. -/
theorem Wf.of_eq (h : c.Wf) (hring : c'.ring = c.ring)
    (hbuf : ∀ i, (c'.buf i).dev = (c.buf i).dev ∧ (c'.buf i).blockno = (c.buf i).blockno) :
    c'.Wf := by
  refine ⟨by rw [hring]; exact h.ring, fun i j hi hd hb => ?_⟩
  rw [(hbuf i).1] at hi hd
  rw [(hbuf j).1] at hd
  rw [(hbuf i).2, (hbuf j).2] at hb
  exact h.unique i j hi hd hb

theorem Wf.set (h : c.Wf) {b : Buf} (hd : b.dev = (c.buf i).dev)
    (hb : b.blockno = (c.buf i).blockno) : (c.set i b).Wf := by
  refine h.of_eq rfl fun j => ?_
  by_cases hj : j = i
  · subst hj; rw [buf_set_self]; exact ⟨hd, hb⟩
  · rw [buf_set_of_ne _ hj]; exact ⟨rfl, rfl⟩

theorem Wf.bget (h : c.Wf) (hb : c.bget dev blockno = .ok (i, c')) : c'.Wf := by
  cases h.bget_cases hb with
  | hit hdev hblockno state => rw [state]; exact h.set rfl rfl
  | recycle miss unused state =>
    subst state
    refine ⟨h.ring, fun j k hj hdev hblockno => ?_⟩
    by_cases hji : j = i <;> by_cases hki : k = i
    · rw [hji, hki]
    · subst hji
      rw [buf_set_self, buf_set_of_ne _ hki] at hdev hblockno
      exact absurd hblockno.symm (miss k hdev.symm)
    · subst hki
      rw [buf_set_self, buf_set_of_ne _ hji] at hdev hblockno
      exact absurd hblockno (miss j hdev)
    · rw [buf_set_of_ne _ hji] at hj hdev hblockno
      rw [buf_set_of_ne _ hki] at hdev hblockno
      exact h.unique j k hj hdev hblockno

theorem unref_buf (c : Bcache) (i j : BufId) : (c.unref i).buf j =
    (c.set i { c.buf i with refcnt := (c.buf i).refcnt - 1 }).buf j := by
  simp only [unref]
  split <;> rfl

theorem Wf.unref (h : c.Wf) (i : BufId) : (c.unref i).Wf := by
  have hs : (c.set i { c.buf i with refcnt := (c.buf i).refcnt - 1 }).Wf := h.set rfl rfl
  simp only [Bcache.unref]
  split
  · obtain ⟨l, hl, all⟩ := hs.ring
    refine ⟨⟨i :: l.erase i, hl.moveFront (all i), fun j => ?_⟩, hs.unique⟩
    by_cases hj : j = i
    · simp [hj]
    · exact mem_cons_of_mem _ ((mem_erase_of_ne hj).2 (all j))
  · exact hs

end Bcache

namespace Bio

variable {p q : Pid} {s s' : Bio} {i j : BufId}

theorem buf_set_self (s : Bio) (i : BufId) (b : Buf) : (s.set i b).buf i = b :=
  update_self ..

theorem buf_set_of_ne (s : Bio) (h : j ≠ i) (b : Buf) : (s.set i b).buf j = s.buf j :=
  update_of_ne h ..

structure Inv (s : Bio) : Prop where
  wf : s.cache.Wf
  refcnt : ∀ i, (s.buf i).refcnt = (s.refs i).length + s.pins i
  owner : ∀ i p, (s.buf i).owner = some p → p ∈ s.refs i

theorem Inv.boot (disk : Nat → Block) : (boot disk).Inv :=
  ⟨.init, fun _ => rfl, fun _ _ h => nomatch h⟩

/-- What the other processes leave to `p`: its references, the block of a buffer it refers to, and
the contents of a buffer it holds. -/
structure Rely (p : Pid) (s s' : Bio) : Prop where
  refs : ∀ i, (s'.refs i).count p = (s.refs i).count p
  owner : ∀ i, (s'.buf i).owner = some p ↔ (s.buf i).owner = some p
  block : ∀ i, p ∈ s.refs i →
    (s'.buf i).dev = (s.buf i).dev ∧ (s'.buf i).blockno = (s.buf i).blockno
  held : ∀ i, (s.buf i).owner = some p →
    ((s'.buf i).dev = (s.buf i).dev ∧ (s'.buf i).blockno = (s.buf i).blockno) ∧
      (s'.buf i).valid = (s.buf i).valid ∧ (s'.buf i).data = (s.buf i).data

namespace Rely

theorem refl (p : Pid) (s : Bio) : Rely p s s :=
  ⟨fun _ => rfl, fun _ => .rfl, fun _ _ => ⟨rfl, rfl⟩, fun _ _ => ⟨⟨rfl, rfl⟩, rfl, rfl⟩⟩

theorem mem_refs (h : Rely p s s') : p ∈ s'.refs i ↔ p ∈ s.refs i := by
  rw [← count_pos_iff, ← count_pos_iff, h.refs i]

theorem trans {s₁ s₂ s₃ : Bio} (h : Rely p s₁ s₂) (h' : Rely p s₂ s₃) : Rely p s₁ s₃ where
  refs i := (h'.refs i).trans (h.refs i)
  owner i := (h'.owner i).trans (h.owner i)
  block i hi :=
    have h₂ := h'.block i (h.mem_refs.2 hi)
    have h₁ := h.block i hi
    ⟨h₂.1.trans h₁.1, h₂.2.trans h₁.2⟩
  held i hi :=
    have ⟨⟨d₂, b₂⟩, v₂, e₂⟩ := h'.held i ((h.owner i).2 hi)
    have ⟨⟨d₁, b₁⟩, v₁, e₁⟩ := h.held i hi
    ⟨⟨d₂.trans d₁, b₂.trans b₁⟩, v₂.trans v₁, e₂.trans e₁⟩

theorem of_ne (other : ∀ j, j ≠ i → s'.buf j = s.buf j)
    (refs : ∀ j, (s'.refs j).count p = (s.refs j).count p)
    (owner : (s'.buf i).owner = some p ↔ (s.buf i).owner = some p)
    (block : p ∈ s.refs i →
      (s'.buf i).dev = (s.buf i).dev ∧ (s'.buf i).blockno = (s.buf i).blockno)
    (held : (s.buf i).owner = some p →
      ((s'.buf i).dev = (s.buf i).dev ∧ (s'.buf i).blockno = (s.buf i).blockno) ∧
        (s'.buf i).valid = (s.buf i).valid ∧ (s'.buf i).data = (s.buf i).data) : Rely p s s' := by
  refine ⟨refs, fun j => ?_, fun j hj => ?_, fun j hj => ?_⟩
  · by_cases hji : j = i
    · subst hji; exact owner
    · rw [other j hji]
  · by_cases hji : j = i
    · subst hji; exact block hj
    · rw [other j hji]; exact ⟨rfl, rfl⟩
  · by_cases hji : j = i
    · subst hji; exact held hj
    · rw [other j hji]; exact ⟨⟨rfl, rfl⟩, rfl, rfl⟩

end Rely

/-- The condition under which a process may execute an operation. -/
def Pre (p : Pid) : BioOp → Bio → Prop
  | .acquiresleep i, s => p ∈ s.refs i
  | .load i, s | .setData i _, s => (s.buf i).owner = some p
  | .unref i, s => p ∈ s.refs i ∧ (s.buf i).owner ≠ some p
  | .bunpin i, s => 1 ≤ s.pins i
  | _, _ => True

theorem Inv.of_ne (h : s.Inv) (wf : s'.cache.Wf)
    (other : ∀ j, j ≠ i → s'.buf j = s.buf j ∧ s'.refs j = s.refs j ∧ s'.pins j = s.pins j)
    (refcnt : (s'.buf i).refcnt = (s'.refs i).length + s'.pins i)
    (owner : ∀ p, (s'.buf i).owner = some p → p ∈ s'.refs i) : s'.Inv := by
  refine ⟨wf, fun j => ?_, fun j => ?_⟩
  · by_cases hji : j = i
    · subst hji; exact refcnt
    · obtain ⟨hb, hr, hp⟩ := other j hji
      rw [hb, hr, hp, h.refcnt]
  · by_cases hji : j = i
    · subst hji; exact owner
    · obtain ⟨hb, hr, hp⟩ := other j hji
      rw [hb, hr]; exact h.owner j

/-- Replacing a buffer by one of the same block and reference count. -/
theorem Inv.set (h : s.Inv) {b : Buf} (hd : b.dev = (s.buf i).dev)
    (hb : b.blockno = (s.buf i).blockno) (hr : b.refcnt = (s.buf i).refcnt)
    (ho : ∀ p, b.owner = some p → p ∈ s.refs i) : (s.set i b).Inv := by
  refine h.of_ne (h.wf.set hd hb) (fun j hj => ⟨buf_set_of_ne s hj b, rfl, rfl⟩) ?_ ?_
  · rw [buf_set_self, hr]; exact h.refcnt i
  · rw [buf_set_self]; exact ho

theorem Rely.set {b : Buf} (hd : b.dev = (s.buf i).dev) (hb : b.blockno = (s.buf i).blockno)
    (ho : b.owner = some q ↔ (s.buf i).owner = some q)
    (held : (s.buf i).owner = some q → b.valid = (s.buf i).valid ∧ b.data = (s.buf i).data) :
    Rely q s (s.set i b) := by
  refine .of_ne (i := i) (fun j hj => buf_set_of_ne s hj b) (fun _ => rfl) ?_ ?_ ?_
  · rw [buf_set_self]; exact ho
  · rw [buf_set_self]; exact fun _ => ⟨hd, hb⟩
  · rw [buf_set_self]; exact fun ho => ⟨⟨hd, hb⟩, held ho⟩

theorem Inv.bget {dev blockno : Nat} {c : Bcache} (h : s.Inv)
    (hb : s.cache.bget dev blockno = .ok (i, c)) :
    let s' : Bio := { s with cache := c, refs := update s.refs i (p :: s.refs i) }
    s'.Inv ∧ ∀ q, q ≠ p → Rely q s s' := by
  intro s'
  have refs_self : s'.refs i = p :: s.refs i := update_self ..
  have refs_of_ne : ∀ j, j ≠ i → s'.refs j = s.refs j := fun j hj => update_of_ne hj ..
  have count : ∀ q, q ≠ p → ∀ j, (s'.refs j).count q = (s.refs j).count q := by
    intro q hq j
    by_cases hji : j = i
    · subst hji; rw [refs_self, count_cons_of_ne (fun e => hq e.symm)]
    · rw [refs_of_ne j hji]
  have wf := h.wf.bget hb
  have hr := h.refcnt i
  obtain ⟨b, hc, hcases⟩ : ∃ b : Buf, c = s.cache.set i b ∧ b.owner = (s.buf i).owner ∧
      b.refcnt = (s.buf i).refcnt + 1 ∧ (b.dev = (s.buf i).dev ∧ b.blockno = (s.buf i).blockno ∧
        b.valid = (s.buf i).valid ∧ b.data = (s.buf i).data ∨ (s.buf i).refcnt = 0) := by
    cases h.wf.bget_cases hb with
    | hit _ _ state => exact ⟨_, state, rfl, rfl, .inl ⟨rfl, rfl, rfl, rfl⟩⟩
    | recycle _ unused state =>
      exact ⟨_, state, rfl, by rw [show (s.buf i).refcnt = 0 from unused], .inr unused⟩
  obtain ⟨howner, hrefcnt, hsame⟩ := hcases
  have self : s'.buf i = b := by rw [Bio.buf, show s'.cache = _ from hc, Bcache.buf_set_self]
  have other : ∀ j, j ≠ i → s'.buf j = s.buf j := fun j hj => by
    rw [Bio.buf, show s'.cache = _ from hc, Bcache.buf_set_of_ne _ hj]; rfl
  -- nobody refers to a buffer that is recycled
  have nobody : (s.buf i).refcnt = 0 → s.refs i = [] := fun h0 =>
    eq_nil_of_length_eq_zero (by omega)
  refine ⟨h.of_ne wf (fun j hj => ⟨other j hj, refs_of_ne j hj, rfl⟩) ?_ ?_, fun q hq => ?_⟩
  · rw [self, refs_self, hrefcnt, hr, length_cons]
    exact Nat.add_right_comm ..
  · intro q hq
    rw [self, howner] at hq
    rw [refs_self]
    exact mem_cons_of_mem _ (h.owner i q hq)
  · refine .of_ne (i := i) other (count q hq) (by rw [self, howner]) (fun hm => ?_) (fun ho => ?_)
    · rcases hsame with ⟨hd, hb, -⟩ | h0
      · rw [self]; exact ⟨hd, hb⟩
      · rw [nobody h0] at hm; cases hm
    · rcases hsame with ⟨hd, hb, hv, hdt⟩ | h0
      · rw [self]; exact ⟨⟨hd, hb⟩, hv, hdt⟩
      · have := h.owner i q ho
        rw [nobody h0] at this; cases this

theorem Inv.unref (h : s.Inv) (hp : p ∈ s.refs i) (ho : (s.buf i).owner ≠ some p) :
    let s' : Bio :=
      { s with cache := s.cache.unref i, refs := update s.refs i ((s.refs i).erase p) }
    s'.Inv ∧ ∀ q, q ≠ p → Rely q s s' := by
  intro s'
  have refs_self : s'.refs i = (s.refs i).erase p := update_self ..
  have refs_of_ne : ∀ j, j ≠ i → s'.refs j = s.refs j := fun j hj => update_of_ne hj ..
  have self : s'.buf i = { s.buf i with refcnt := (s.buf i).refcnt - 1 } := by
    rw [Bio.buf, Bcache.unref_buf, Bcache.buf_set_self]; rfl
  have other : ∀ j, j ≠ i → s'.buf j = s.buf j := fun j hj => by
    rw [Bio.buf, Bcache.unref_buf, Bcache.buf_set_of_ne _ hj]; rfl
  refine ⟨h.of_ne (h.wf.unref i) (fun j hj => ⟨other j hj, refs_of_ne j hj, rfl⟩) ?_ ?_,
    fun q hq => ?_⟩
  · have hr := h.refcnt i
    have hlen := length_erase_of_mem hp
    have hpos := length_pos_of_mem hp
    rw [self, refs_self, hlen]
    show (s.buf i).refcnt - 1 = _ + s.pins i
    omega
  · intro q hq
    rw [self] at hq
    have hqp : q ≠ p := by rintro rfl; exact ho hq
    rw [refs_self]
    exact (mem_erase_of_ne hqp).2 (h.owner i q hq)
  · refine .of_ne (i := i) other (fun j => ?_) (by rw [self])
      (fun _ => by rw [self]; exact ⟨rfl, rfl⟩)
      (fun _ => by rw [self]; exact ⟨⟨rfl, rfl⟩, rfl, rfl⟩)
    by_cases hji : j = i
    · subst hji; rw [refs_self, count_erase_of_ne hq]
    · rw [refs_of_ne j hji]

theorem Inv.pin (h : s.Inv) {n k : Nat} (hn : n = (s.refs i).length + k) :
    let s' : Bio := { s with
      cache := s.cache.set i { s.buf i with refcnt := n }, pins := update s.pins i k }
    s'.Inv ∧ ∀ q, Rely q s s' := by
  intro s'
  have self : s'.buf i = { s.buf i with refcnt := n } := Bcache.buf_set_self ..
  have other : ∀ j, j ≠ i → s'.buf j = s.buf j := fun j hj => Bcache.buf_set_of_ne _ hj _
  refine ⟨h.of_ne (i := i) (h.wf.set rfl rfl)
    (fun j hj => ⟨other j hj, rfl, update_of_ne hj ..⟩) ?_ ?_, fun q => ?_⟩
  · rw [self, show s'.pins i = k from update_self ..]; exact hn
  · rw [self]; exact h.owner i
  · exact .of_ne (i := i) other (fun _ => rfl) (by rw [self])
      (fun _ => by rw [self]; exact ⟨rfl, rfl⟩)
      (fun _ => by rw [self]; exact ⟨⟨rfl, rfl⟩, rfl, rfl⟩)

/-- An operation executed under its precondition keeps the invariant and what the others rely on. -/
theorem Inv.exec {o : BioOp} {r : o.Res} (h : s.Inv) (hpre : Pre p o s)
    (he : exec p o s = .ok (r, s')) : s'.Inv ∧ ∀ q, q ≠ p → Rely q s s' := by
  cases o with
  | bget dev blockno =>
    simp only [Bio.exec] at he
    split at he
    · rename_i i c hb; cases he; exact h.bget hb
    · cases he
  | acquiresleep i =>
    simp only [Bio.exec] at he
    split at he
    · rename_i hfree
      cases he
      refine ⟨h.set rfl rfl rfl ?_, fun q hq => .set rfl rfl ?_ ?_⟩
      · rintro _ ⟨⟩; exact hpre
      · rw [hfree]; simpa using fun e => hq e.symm
      · rw [hfree]; rintro ⟨⟩
    · cases he
  | load i =>
    simp only [Bio.exec] at he
    split at he <;> cases he
    · exact ⟨h, fun q _ => .refl q s⟩
    · refine ⟨h.set rfl rfl rfl (h.owner i), fun q hq => .set rfl rfl .rfl fun ho => ?_⟩
      rw [show _ = some p from hpre] at ho
      exact absurd (Option.some.inj ho).symm hq
  | data i => cases he; exact ⟨h, fun q _ => .refl q s⟩
  | setData i d =>
    cases he
    refine ⟨h.set rfl rfl rfl (h.owner i), fun q hq => .set rfl rfl .rfl fun ho => ?_⟩
    rw [show _ = some p from hpre] at ho
    exact absurd (Option.some.inj ho).symm hq
  | bwrite i =>
    simp only [Bio.exec] at he
    split at he <;> cases he
    exact ⟨⟨h.wf, h.refcnt, h.owner⟩, fun q _ =>
      ⟨fun _ => rfl, fun _ => .rfl, fun _ _ => ⟨rfl, rfl⟩, fun _ _ => ⟨⟨rfl, rfl⟩, rfl, rfl⟩⟩⟩
  | releasesleep i =>
    simp only [Bio.exec] at he
    split at he <;> cases he
    rename_i hown
    refine ⟨h.set rfl rfl rfl (by rintro _ ⟨⟩), fun q hq => .set rfl rfl ?_ ?_⟩
    · rw [hown]; simpa using fun e => hq e.symm
    · exact fun _ => ⟨rfl, rfl⟩
  | unref i => cases he; exact h.unref hpre.1 hpre.2
  | bpin i =>
    cases he
    have := h.pin (i := i) (n := (s.buf i).refcnt + 1) (k := s.pins i + 1) (by rw [h.refcnt]; omega)
    exact ⟨this.1, fun q _ => this.2 q⟩
  | bunpin i =>
    cases he
    have hpos : 1 ≤ s.pins i := hpre
    have := h.pin (i := i) (n := (s.buf i).refcnt - 1) (k := s.pins i - 1) (by rw [h.refcnt]; omega)
    exact ⟨this.1, fun q _ => this.2 q⟩

theorem exec_panic {o : BioOp} {e : Panic} (he : exec p o s = .panic e) :
    e = .bgetNoBuffers ∨ e = .bwrite ∨ e = .brelse := by
  cases o <;> simp only [Bio.exec, reduceCtorEq] at he
  · split at he <;> cases he
    rename_i hb
    exact .inl (Bcache.bget_error hb)
  · split at he <;> cases he
  · split at he <;> cases he
  · split at he <;> cases he
    exact .inr (.inl rfl)
  · split at he <;> cases he
    exact .inr (.inr rfl)

end Bio

end Xv6
