import Xv6.Dir.Names
import Xv6.Dir.Sysfile

/-!
# A directory as a finite map

The entries of a directory bind names to inodes. `dirlookup` finds the inode bound to a name,
`dirlink` adds a binding in the first empty slot or at the end, and a zeroed entry is a binding
less.
-/

namespace Xv6

/-- The entry binds the name. -/
def Dirent.Binds (de : Dirent) (name : List UInt8) : Bool := de.inum ≠ 0 && cstr de.name = name

namespace Dir

open Lib Function List

/-! ## Bindings -/

/-- The first slot that binds the name. -/
def slotOf (data name : List UInt8) : Option Nat :=
  firstFrom (fun k => (entry data k).Binds name) (slotCount data) 0

/-- The inode that the name is bound to. -/
def binding (data name : List UInt8) : Option Nat :=
  (slotOf data name).map fun k => (entry data k).inum

/-- The content of a directory: whole entries that bind different names. -/
structure Directory (data : List UInt8) : Prop where
  whole : data.length = DESIZE * slotCount data
  limit : data.length ≤ MAXFILE * BSIZE
  distinct : ∀ name j k, j < slotCount data → k < slotCount data →
    (entry data j).Binds name = true →
    (entry data k).Binds name = true → j = k

section
variable {data name : List UInt8} {de : Dirent} {k n : Nat}

theorem binding_eq_none : binding data name = none ↔ ∀ k, k < slotCount data →
    (entry data k).Binds name = false := by
  rw [binding, Option.map_eq_none_iff, slotOf, firstFrom_eq_none]
  exact ⟨fun h k hk => h k (Nat.zero_le _) hk, fun h k _ hk => h k hk⟩

theorem FreeSlot.emptySlot (whole : data.length = DESIZE * slotCount data) :
    FreeSlot data (emptySlot data) := by
  rw [Dir.emptySlot]
  cases h : firstFrom (fun k => (entry data k).inum == 0) (slotCount data) 0 with
  | none => exact .inl whole
  | some k =>
    obtain ⟨-, hk, h0⟩ := firstFrom_eq_some h
    exact .inr ⟨hk, by simpa using h0⟩

theorem FreeSlot.le_slotCount (h : FreeSlot data k) : k ≤ slotCount data := by
  rcases h with h | h
  · rw [slotCount, h, Nat.mul_div_cancel_left _ (by decide)]
  · exact h.1.le

theorem FreeSlot.inum_eq (h : FreeSlot data k) (hk : k < slotCount data) :
    (entry data k).inum = 0 := by
  rcases h with h | h
  · rw [slotCount, h, Nat.mul_div_cancel_left _ (by decide)] at hk
    exact absurd hk (lt_irrefl k)
  · exact h.2

namespace Directory

variable (hd : Directory data)

include hd

theorem slotOf_eq (hk : k < slotCount data) (hb : (entry data k).Binds name = true) :
    slotOf data name = some k :=
  firstFrom_eq_of_unique (hd.distinct name) (Nat.zero_le _) hk hb

theorem binding_eq_some :
    binding data name = some n ↔ ∃ k < slotCount data, (entry data k).Binds name = true ∧
    (entry data k).inum = n := by
  rw [binding, Option.map_eq_some_iff]
  constructor
  · rintro ⟨k, hk, hn⟩
    obtain ⟨-, hlt, hb⟩ := firstFrom_eq_some hk
    exact ⟨k, hlt, hb, hn⟩
  · rintro ⟨k, hlt, hb, hn⟩
    exact ⟨k, hd.slotOf_eq hlt hb, hn⟩

theorem entry_splice (hk : k ≤ slotCount data) (hb : de.bytes.length = DESIZE)
    (hde : Dirent.ofBytes de.bytes = de) (j : Nat) :
    entry (splice data (DESIZE * k) de.bytes) j = if j = k then de else entry data j := by
  have hle : DESIZE * k ≤ data.length := hd.whole ▸ Nat.mul_le_mul_left _ hk
  split
  · subst j
    rw [entry_splice_self hle hb, hde]
  · exact entry_splice_of_ne hle hb ‹_›

theorem length_splice (hk : k ≤ slotCount data) (hb : de.bytes.length = DESIZE) :
    (splice data (DESIZE * k) de.bytes).length = DESIZE * max (slotCount data) (k + 1) := by
  have hle : DESIZE * k ≤ data.length := hd.whole ▸ Nat.mul_le_mul_left _ hk
  rw [Dir.length_splice hle, hb, ← Nat.mul_max_mul_left, ← hd.whole, Nat.mul_succ]

theorem slotCount_splice (hk : k ≤ slotCount data) (hb : de.bytes.length = DESIZE) :
    slotCount (splice data (DESIZE * k) de.bytes) = max (slotCount data) (k + 1) := by
  rw [slotCount, hd.length_splice hk hb, Nat.mul_div_cancel_left _ (by decide)]

/-- A name that is not bound is bound in slot `k`, which is empty. -/
theorem add (free : FreeSlot data k) (fits : DESIZE * k + DESIZE ≤ MAXFILE * BSIZE)
    (hb : de.bytes.length = DESIZE) (hde : Dirent.ofBytes de.bytes = de)
    (h0 : de.inum ≠ 0) (hname : cstr de.name = name) (unbound : binding data name = none) :
    Directory (splice data (DESIZE * k) de.bytes) ∧
      binding (splice data (DESIZE * k) de.bytes) = Function.update (binding data) name
        (some de.inum) := by
  have hk := free.le_slotCount
  have hentry := hd.entry_splice hk hb hde
  have hcount := hd.slotCount_splice hk hb
  have hself : ∀ m, de.Binds m = true ↔ m = name := fun m => by
    simp [Dirent.Binds, h0, hname, eq_comm]
  have hslot : ∀ j, j ≠ k → j < max (slotCount data) (k + 1) → j < slotCount data :=
    fun j hj hlt => by
    omega
  have dir : Directory (splice data (DESIZE * k) de.bytes) := by
    refine ⟨?_, ?_, fun m i j hi hj hbi hbj => ?_⟩
    · rw [hd.length_splice hk hb, hcount]
    · have := hd.limit
      rw [hd.whole] at this
      rw [hd.length_splice hk hb, ← Nat.mul_max_mul_left, Nat.mul_succ]
      exact Nat.max_le.2 ⟨this, fits⟩
    · rw [hcount] at hi hj
      rw [hentry] at hbi hbj
      by_cases hik : i = k
      · by_cases hjk : j = k
        · exact hik.trans hjk.symm
        · rw [if_pos hik, hself] at hbi
          rw [if_neg hjk, hbi, binding_eq_none.1 unbound j (hslot j hjk hj)] at hbj
          cases hbj
      · by_cases hjk : j = k
        · rw [if_pos hjk, hself] at hbj
          rw [if_neg hik, hbj, binding_eq_none.1 unbound i (hslot i hik hi)] at hbi
          cases hbi
        · rw [if_neg hik] at hbi
          rw [if_neg hjk] at hbj
          exact hd.distinct m i j (hslot i hik hi) (hslot j hjk hj) hbi hbj
  refine ⟨dir, ?_⟩
  funext m
  by_cases hm : m = name
  · subst hm
    rw [update_self, dir.binding_eq_some]
    refine ⟨k, hcount ▸ by omega, ?_⟩
    rw [hentry, if_pos rfl]
    exact ⟨(hself _).2 rfl, rfl⟩
  · rw [update_of_ne hm]
    apply Option.ext
    intro n
    rw [dir.binding_eq_some, hd.binding_eq_some, hcount]
    constructor
    · rintro ⟨j, hj, hbj, hn⟩
      rw [hentry] at hbj hn
      by_cases hjk : j = k
      · rw [if_pos hjk, hself] at hbj
        exact absurd hbj hm
      · rw [if_neg hjk] at hbj hn
        exact ⟨j, hslot j hjk hj, hbj, hn⟩
    · rintro ⟨j, hj, hbj, hn⟩
      have hjk : j ≠ k := by
        rintro rfl
        simp [Dirent.Binds, free.inum_eq hj] at hbj
      exact ⟨j, by omega, by rwa [hentry, if_neg hjk], by rwa [hentry, if_neg hjk]⟩

theorem erase (hk : slotOf data name = some k) :
    Directory (splice data (DESIZE * k) Dirent.zero.bytes) ∧
      binding (splice data (DESIZE * k) Dirent.zero.bytes) =
        Function.update (binding data) name none := by
  obtain ⟨-, hlt, hbk⟩ := firstFrom_eq_some hk
  have hentry := hd.entry_splice hlt.le Dirent.length_zero Dirent.ofBytes_zero
  have hcount : slotCount (splice data (DESIZE * k) Dirent.zero.bytes) = slotCount data := by
    rw [hd.slotCount_splice hlt.le Dirent.length_zero]
    omega
  have hbinds : ∀ m j, (entry (splice data (DESIZE * k) Dirent.zero.bytes) j).Binds m = true ↔
      j ≠ k ∧ (entry data j).Binds m = true := by
    intro m j
    rw [hentry]
    by_cases hj : j = k
    · simp [hj, Dirent.Binds, Dirent.zero]
    · simp [hj]
  have dir : Directory (splice data (DESIZE * k) Dirent.zero.bytes) := by
    refine ⟨?_, ?_, fun m i j hi hj hbi hbj => ?_⟩
    · rw [hcount, hd.length_splice hlt.le Dirent.length_zero]
      congr 1
      omega
    · rw [hd.length_splice hlt.le Dirent.length_zero, Nat.max_eq_left hlt, ← hd.whole]
      exact hd.limit
    · rw [hcount] at hi hj
      exact hd.distinct m i j hi hj ((hbinds m i).1 hbi).2 ((hbinds m j).1 hbj).2
  refine ⟨dir, ?_⟩
  funext m
  by_cases hm : m = name
  · subst hm
    rw [update_self, binding_eq_none]
    intro j hj
    rw [hcount] at hj
    apply Bool.eq_false_of_not_eq_true
    intro hbj
    obtain ⟨hne, hbj⟩ := (hbinds m j).1 hbj
    exact hne (hd.distinct m j k hj hlt hbj hbk)
  · rw [update_of_ne hm]
    apply Option.ext
    intro n
    rw [dir.binding_eq_some, hd.binding_eq_some, hcount]
    refine exists_congr fun j => and_congr_right fun hj => ?_
    rw [hbinds]
    constructor
    · rintro ⟨⟨hne, hbj⟩, hn⟩
      rw [hentry, if_neg hne] at hn
      exact ⟨hbj, hn⟩
    · rintro ⟨hbj, hn⟩
      have hne : j ≠ k := by
        rintro rfl
        simp only [Dirent.Binds, Bool.and_eq_true, decide_eq_true_eq] at hbj hbk
        exact hm (hbj.2.symm.trans hbk.2)
      exact ⟨⟨hne, hbj⟩, by rwa [hentry, if_neg hne]⟩

end Directory

end

/-! ## What the loops compute -/

section
variable {P : Type} [DecidableEq P] [Fintype P] {sb : Superblock} {p : P} {s s' : St P} {dp : IId}
  {data name : List UInt8}

variable {α : Type} {o : Op} {r : o.Res}

theorem run_op {f : o.Res → Code α} (he : exec sb p o s = .ok (r, s')) :
    ((op o).bind f).run (exec sb p) s = (f r).run (exec sb p) s' :=
  Prog.run_perform_bind he

variable {e : Panic}

theorem run_op_panic {f : o.Res → Code α} (he : exec sb p o s = .panic e) :
    ((op o).bind f).run (exec sb p) s = .panic e :=
  Prog.run_perform_bind_panic he

variable {tol : Option Panic → Prop}

theorem wp_op {f : o.Res → Code α} {Q : α → St P → Prop}
    (he : exec sb p o s = .ok (r, s')) (h : (f r).Wp (exec sb p) tol Q s') :
    ((op o).bind f).Wp (exec sb p) tol Q s := by
  refine Prog.Wp.call (fun r' t ht => ?_) (fun ht => ?_) fun e ht => ?_
  · cases he.symm.trans ht
    exact h
  · cases he.symm.trans ht
  · cases he.symm.trans ht

theorem run_bind {β : Type} {x : Code α} {f : α → Code β} {a : α}
    (hx : x.run (exec sb p) s = .ok (a, s')) :
    (x.bind f).run (exec sb p) s = (f a).run (exec sb p) s' := by
  refine Prog.run_bind.trans ?_
  rw [hx]

/-- `dp` is in memory with this content, which consists of whole entries. -/
structure Loaded (s : St P) (dp : IId) (data : List UInt8) : Prop where
  content : (s.inode dp).node.data = data
  whole : data.length = DESIZE * slotCount data
  limit : data.length ≤ MAXFILE * BSIZE

variable {fuel k : Nat}

omit [DecidableEq P] [Fintype P] in
theorem Loaded.lt_iff (h : Loaded s dp data) : DESIZE * k < data.length ↔ k < slotCount data := by
  rw [h.whole, Nat.mul_lt_mul_left (by decide)]

omit [DecidableEq P] [Fintype P] in
theorem Loaded.length_slice (h : Loaded s dp data) (hk : k < slotCount data) :
    (slice data (DESIZE * k) DESIZE).length = DESIZE := by
  have := h.whole
  rw [Dir.length_slice]
  simp only [DESIZE] at this ⊢
  omega

theorem Loaded.readi (h : Loaded s dp data) (hk : k < slotCount data) :
    exec sb p (.readi dp (DESIZE * k) DESIZE) s = .ok (slice data (DESIZE * k) DESIZE, s) := by
  have hlt := h.lt_iff.2 hk
  have hlim := h.limit
  have : ¬(data.length < DESIZE * k ∨ (DESIZE * k + DESIZE) % 2 ^ 32 < DESIZE * k) := by
    simp only [MAXFILE, NDIRECT, NINDIRECT, BSIZE, DESIZE] at hlim hlt ⊢
    omega
  simp only [exec, h.content, if_neg this]

/-- One round of a loop over the entries: the entry is read. -/
theorem Loaded.round {f : List UInt8 → Code α} {g : Code α} (h : Loaded s dp data)
    (hk : k < slotCount data) :
    (do
      let x : Node ← op (.inode dp)
      if DESIZE * k < x.data.length then
        let bs : List UInt8 ← op (.readi dp (DESIZE * k) DESIZE)
        if bs.length ≠ DESIZE then panic e else f bs
      else g : Code α).run (exec sb p) s = (f (slice data (DESIZE * k) DESIZE)).run
        (exec sb p) s := by
  refine (run_op (o := .inode dp) (r := (s.inode dp).node) rfl).trans ?_
  rw [h.content, if_pos (h.lt_iff.2 hk)]
  refine (run_op (h.readi hk)).trans ?_
  rw [if_neg (fun hne => hne (h.length_slice hk))]

theorem Loaded.last {f g : Code α} (h : Loaded s dp data) (hk : slotCount data ≤ k) :
    (do
      let x : Node ← op (.inode dp)
      if DESIZE * k < x.data.length then f else g : Code α).run (exec sb p) s =
        g.run (exec sb p) s := by
  refine (run_op (o := .inode dp) (r := (s.inode dp).node) rfl).trans ?_
  rw [h.content, if_neg (fun hlt => Nat.not_lt.2 hk (h.lt_iff.1 hlt))]

theorem dirlookupFrom_run (h : Loaded s dp data) (hf : slotCount data - k < fuel) :
    (dirlookupFrom dp name fuel (DESIZE * k)).run (exec sb p) s =
      match firstFrom (fun k => (entry data k).Binds (cstr name)) (slotCount data) k with
      | none => .ok (none, s)
      | some j => ((op (.iget (entry data j).inum)).bind fun ip => .ret (some (ip, DESIZE * j))).run
          (exec sb p) s := by
  induction fuel generalizing k with
  | zero => exact absurd hf (Nat.not_lt_zero _)
  | succ fuel ih =>
    rw [dirlookupFrom]
    by_cases hk : k < slotCount data
    · refine (h.round hk).trans ?_
      have hnext := ih (k := k + 1) (by omega)
      rw [Nat.mul_succ] at hnext
      rw [firstFrom_of_lt hk, ← entry]
      by_cases h0 : (entry data k).inum = 0
      · rw [if_pos h0, hnext, if_neg (by simp [Dirent.Binds, h0])]
      · rw [if_neg h0]
        by_cases hn : namecmp name (entry data k).name = true
        · have hb : (entry data k).Binds (cstr name) = true := by
            rw [namecmp, decide_eq_true_iff] at hn
            simp [Dirent.Binds, h0, hn]
          rw [if_pos hn, if_pos hb]
          rfl
        · have hb : ¬(entry data k).Binds (cstr name) = true := by
            rw [namecmp, decide_eq_true_iff] at hn
            simp [Dirent.Binds, h0, eq_comm, hn]
          rw [if_neg hn, if_neg hb, hnext]
    · rw [firstFrom_of_le (Nat.le_of_not_lt hk)]
      exact h.last (Nat.le_of_not_lt hk)

/-- `dirlookup` finds the first slot that binds the name. -/
theorem dirlookup_run (h : Loaded s dp data) (ht : (s.inode dp).node.type = .dir) :
    (dirlookup dp name).run (exec sb p) s =
      match slotOf data (cstr name) with
      | none => .ok (none, s)
      | some j => ((op (.iget (entry data j).inum)).bind fun ip => .ret (some (ip, DESIZE * j))).run
          (exec sb p) s := by
  refine (run_op (o := .inode dp) (r := (s.inode dp).node) rfl).trans ?_
  rw [if_neg (fun hne => hne ht), h.content]
  refine dirlookupFrom_run (k := 0) h ?_
  have := h.whole
  simp only [DESIZE] at this
  omega

theorem dirlookup_wp {Q : Option (IId × Nat) → St P → Prop} (h : Loaded s dp data)
    (ht : (s.inode dp).node.type = .dir) (unbound : slotOf data (cstr name) = none → Q none s)
    (bound : ∀ k, slotOf data (cstr name) = some k →
      (op (.iget (entry data k).inum)).Wp (exec sb p) tol
        (fun i s' => Q (some (i, DESIZE * k)) s') s) :
    (dirlookup dp name).Wp (exec sb p) tol Q s := by
  have hrun : (dirlookup dp name).run (exec sb p) s = _ := dirlookup_run h ht
  cases hs : slotOf data (cstr name) with
  | none =>
    rw [hs] at hrun
    exact Prog.Wp.congr (y := .ret none) hrun (unbound hs)
  | some k =>
    rw [hs] at hrun
    exact Prog.Wp.congr hrun ((bound k hs).bind fun i s' hq => hq)

theorem emptyFrom_run (h : Loaded s dp data) (hf : slotCount data - k < fuel)
    (hk : k ≤ slotCount data) :
    (emptyFrom dp fuel (DESIZE * k)).run (exec sb p) s =
      .ok (DESIZE * (firstFrom (fun k => (entry data k).inum == 0) (slotCount data) k).getD
        (slotCount data), s) := by
  induction fuel generalizing k with
  | zero => exact absurd hf (Nat.not_lt_zero _)
  | succ fuel ih =>
    rw [emptyFrom]
    by_cases hlt : k < slotCount data
    · refine (h.round hlt).trans ?_
      have hnext := ih (k := k + 1) (by omega) (by omega)
      rw [Nat.mul_succ] at hnext
      rw [firstFrom_of_lt hlt, ← entry]
      by_cases h0 : (entry data k).inum = 0
      · rw [if_pos h0, if_pos (beq_iff_eq.2 h0)]
        rfl
      · rw [if_neg h0, if_neg (fun hb => h0 (beq_iff_eq.1 hb)), hnext]
    · obtain rfl : k = slotCount data := by omega
      rw [firstFrom_of_le le_rfl]
      exact h.last le_rfl

theorem isdiremptyFrom_run (h : Loaded s dp data) (hf : slotCount data - k < fuel) :
    (isdiremptyFrom dp fuel (DESIZE * k)).run (exec sb p) s =
      .ok ((firstFrom (fun k => (entry data k).inum != 0) (slotCount data) k).isNone, s) := by
  induction fuel generalizing k with
  | zero => exact absurd hf (Nat.not_lt_zero _)
  | succ fuel ih =>
    rw [isdiremptyFrom]
    by_cases hlt : k < slotCount data
    · refine (h.round hlt).trans ?_
      have hnext := ih (k := k + 1) (by omega)
      rw [Nat.mul_succ] at hnext
      rw [firstFrom_of_lt hlt, ← entry]
      by_cases h0 : (entry data k).inum = 0
      · rw [if_neg (fun hne => hne h0), if_neg (fun hb => bne_iff_ne.1 hb h0), hnext]
      · rw [if_pos h0, if_pos (bne_iff_ne.2 h0)]
        rfl
    · rw [firstFrom_of_le (Nat.le_of_not_lt hlt)]
      exact h.last (Nat.le_of_not_lt hlt)

/-- `isdirempty` looks at the entries behind the first two. -/
theorem isdirempty_run (h : Loaded s dp data) :
    (isdirempty dp).run (exec sb p) s =
      .ok ((firstFrom (fun k => (entry data k).inum != 0) (slotCount data) 2).isNone, s) := by
  refine (run_op (o := .inode dp) (r := (s.inode dp).node) rfl).trans ?_
  have hf : slotCount data - 2 < data.length + 1 := by
    have := h.whole
    simp only [DESIZE] at this
    omega
  rw [h.content, Nat.mul_comm]
  exact isdiremptyFrom_run h hf

variable {inum : Nat}

/-- `dirlink` of a name that is not bound writes one entry. -/
theorem dirlink_run (h : Loaded s dp data) (ht : (s.inode dp).node.type = .dir)
    (unbound : slotOf data (cstr name) = none) :
    (dirlink dp name inum).run (exec sb p) s =
      ((op (.writei dp (DESIZE * emptySlot data) DESIZE (Dirent.mk' name inum).bytes)).bind
        fun (r : Int) =>
        if r ≠ DESIZE then panic .dirlink else return true).run (exec sb p) s := by
  have hfound : (dirlookup dp name).run (exec sb p) s = .ok (none, s) := by
    rw [dirlookup_run h ht, unbound]
  have hempty : (emptyFrom dp (data.length + 1) (DESIZE * 0)).run (exec sb p) s =
      .ok (DESIZE * emptySlot data, s) := by
    refine emptyFrom_run h ?_ (Nat.zero_le _)
    have := h.whole
    simp only [DESIZE] at this
    omega
  refine (run_bind hfound).trans ?_
  refine (run_op (o := .inode dp) (r := (s.inode dp).node) rfl).trans ?_
  rw [h.content]
  exact run_bind hempty

/-! ## The operations on the map -/

/-- A directory that the caller has locked. -/
structure LockedDir (sb : Superblock) (s : St P) (dp : IId) : Prop where
  type : (s.inode dp).node.type = .dir
  ref : 0 < (s.inode dp).ref
  dir : Directory (s.inode dp).node.data
  fresh : (s.disk (s.inode dp).inum).data = (s.inode dp).node.data
  room : used sb s.disk ≤ sb.nblocks

/-- Every entry of the inode table is in use. -/
def TableFull (s : St P) : Prop := ∀ i, 0 < (s.inode i).ref

omit [DecidableEq P] [Fintype P] in
theorem LockedDir.loaded (h : LockedDir sb s dp) : Loaded s dp (s.inode dp).node.data :=
  ⟨rfl, h.dir.whole, h.dir.limit⟩

/-- A component of a path is a name as `namecmp` sees it. -/
theorem cstr_of_skipelem {path rest : Path} (hpath : 0 ∉ path)
    (h : skipelem path = some (rest, name)) :
    cstr name = name := by
  have hmem : ∀ c ∈ name, c ∈ path := by
    rw [skipelem] at h
    split at h
    · cases h
    · rename_i hd
      cases h
      intro c hc
      refine (dropWhile_suffix (· == slash)).subset ?_
      rw [hd]
      exact (List.takeWhile_prefix _).subset (mem_of_mem_take hc)
  have hlen : name.length ≤ DIRSIZ := by
    rw [skipelem] at h
    split at h
    · cases h
    · cases h
      exact length_take_le ..
  rw [cstr, take_of_length_le hlen, takeWhile_eq_self_iff]
  intro c hc
  have : c ≠ 0 := by
    rintro rfl
    exact hpath (hmem 0 hc)
  simpa using this

variable {n : Nat}

omit [DecidableEq P] [Fintype P] in
theorem find_eq_none (h : s.find n = none) : TableFull s := by
  rw [St.find] at h
  split at h
  · cases h
  · intro i
    have := find?_eq_none.1 (Option.map_eq_none_iff.1 h) i (mem_finRange i)
    simpa [Nat.pos_iff_ne_zero] using this

/-- `s'` is `s` after `iget` of inode `n`, which is in entry `i` then. -/
structure Got (s s' : St P) (i : IId) (n : Nat) : Prop where
  frame : s' = s.setInode i (s'.inode i)
  inum : (s'.inode i).inum = n
  lock : (s'.inode i).lock = (s.inode i).lock
  old : 0 < (s.inode i).ref → s'.inode i = { s.inode i with ref := (s.inode i).ref + 1 }
  new : (s.inode i).ref = 0 → (s'.inode i).ref = 1 ∧ (s'.inode i).valid = false ∧
    ∀ j, 0 < (s.inode j).ref → (s.inode j).inum ≠ n

omit [DecidableEq P] [Fintype P] in
theorem inode_setInode_self (i : IId) (x : InCore P) : (s.setInode i x).inode i = x :=
  update_self ..

variable {i : IId}

omit [DecidableEq P] [Fintype P] in
theorem Got.of_setInode {x : InCore P} (inum : x.inum = n) (lock : x.lock = (s.inode i).lock)
    (old : 0 < (s.inode i).ref → x = { s.inode i with ref := (s.inode i).ref + 1 })
    (new : (s.inode i).ref = 0 → x.ref = 1 ∧ x.valid = false ∧ ∀ j, 0 < (s.inode j).ref →
      (s.inode j).inum ≠ n) :
    Got s (s.setInode i x) i n := by
  constructor <;> rw [inode_setInode_self]
  · exact inum
  · exact lock
  · exact old
  · exact new

omit [DecidableEq P] [Fintype P] in
theorem Got.inode_of_ne {j : IId} (h : Got s s' i n) (hj : j ≠ i) : s'.inode j = s.inode j := by
  rw [h.frame]
  exact update_of_ne hj ..

theorem iget_wp (n : Nat) :
    (op (.iget n)).Wp (exec sb p) (fun e => e = some .igetNoInodes ∧ s.find n = none)
      (fun i s' => Got s s' i n) s := by
  refine Prog.Wp.call ?_ ?_ ?_
  · intro i s' he
    simp only [exec] at he
    split at he
    · rename_i i hf
      cases he
      obtain ⟨hr, hn⟩ := St.find_true hf
      exact .of_setInode hn rfl (fun _ => rfl) fun h0 => absurd h0 hr.ne'
    · rename_i i hf
      cases he
      obtain ⟨hr, hn⟩ := St.find_false hf
      exact .of_setInode rfl rfl (fun h0 => absurd hr h0.ne') fun _ => ⟨rfl, rfl, hn⟩
    · cases he
  · intro he
    simp only [exec] at he
    split at he <;> cases he
  · intro e he
    simp only [exec] at he
    split at he
    · cases he
    · cases he
    · cases he
      exact ⟨rfl, ‹_›⟩

/-- The inode in memory and on disk after `bs` is written to slot `k`. -/
def St.writeSlot (s : St P) (dp : IId) (k : Nat) (bs : List UInt8) : Node :=
  let x := (s.inode dp).node
  let data := splice x.data (DESIZE * k) bs
  { x with data, addrs := s.bmap x.addrs data.length }

variable (sb p) in
/-- `writei` of one entry: the size of the file and the free blocks are what it can fail for. -/
theorem exec_writei_slot {k : Nat} {bs : List UInt8} (hb : bs.length = DESIZE)
    (hk : DESIZE * k ≤ (s.inode dp).node.data.length)
    (hlim : (s.inode dp).node.data.length ≤ MAXFILE * BSIZE) :
    exec sb p (.writei dp (DESIZE * k) DESIZE bs) s =
      if MAXFILE * BSIZE < DESIZE * k + DESIZE then .ok ((-1 : Int), s)
      else if sb.nblocks <
        used sb (Function.update s.disk (s.inode dp).inum (s.writeSlot dp k bs)) then
        .panic .ballocOutOfBlocks
      else .ok ((DESIZE : Int), s.store dp (s.writeSlot dp k bs)) := by
  have hoff : ¬((s.inode dp).node.data.length < DESIZE * k ∨
      (DESIZE * k + DESIZE) % 2 ^ 32 < DESIZE * k) := by
    simp only [MAXFILE, NDIRECT, NINDIRECT, BSIZE, DESIZE] at hlim hk ⊢
    omega
  simp only [exec, if_neg hoff, take_of_length_le hb.le, hb, St.writeSlot]
  rfl

/-- `dirlink` of a name that is not bound: there may be no slot for it, or no block for the slot. -/
theorem dirlink_unbound_run (h : Loaded s dp data) (ht : (s.inode dp).node.type = .dir)
    (unbound : slotOf data (cstr name) = none) :
    (dirlink dp name inum).run (exec sb p) s =
      if MAXFILE * BSIZE < DESIZE * emptySlot data + DESIZE then .panic .dirlink
      else if sb.nblocks < used sb (Function.update s.disk (s.inode dp).inum
          (s.writeSlot dp (emptySlot data) (Dirent.mk' name inum).bytes)) then
            .panic .ballocOutOfBlocks
      else
        .ok (true, s.store dp (s.writeSlot dp (emptySlot data) (Dirent.mk' name inum).bytes)) := by
  obtain rfl := h.content
  have hwrite :=
    exec_writei_slot sb p (Dirent.length_mk' name inum) (FreeSlot.emptySlot h.whole).le h.limit
  refine (dirlink_run h ht unbound).trans ?_
  by_cases hfull : MAXFILE * BSIZE < DESIZE * emptySlot (s.inode dp).node.data + DESIZE
  · rw [if_pos hfull] at hwrite ⊢
    exact run_op hwrite
  · rw [if_neg hfull] at hwrite ⊢
    by_cases hroom : sb.nblocks < used sb (Function.update s.disk (s.inode dp).inum
        (s.writeSlot dp (emptySlot (s.inode dp).node.data) (Dirent.mk' name inum).bytes))
    · rw [if_pos hroom] at hwrite ⊢
      exact run_op_panic hwrite
    · rw [if_neg hroom] at hwrite ⊢
      refine (run_op hwrite).trans ?_
      rw [if_neg (fun h => h rfl)]
      rfl

theorem used_update {disk : Nat → Node} {x : Node} (h : x.data.length = (disk n).data.length) :
    used sb (Function.update disk n x) = used sb disk := by
  rw [used, used]
  congr 1
  refine map_congr_left fun i _ => ?_
  by_cases hi : i = n
  · subst hi
    rw [update_self, h]
  · rw [update_of_ne hi]

omit [DecidableEq P] [Fintype P] in
theorem data_store (x : Node) :
    ((s.store dp x).inode dp).node = x ∧ (s.store dp x).disk (s.inode dp).inum = x := by
  have hi : (s.store dp x).inode dp = { s.inode dp with node := x } := update_self ..
  exact ⟨by rw [hi], update_self ..⟩

/-- What the operations on a locked directory do to the map from names to inodes. -/
structure FiniteMap (sb : Superblock) (p : P) (s : St P) (dp : IId) (name : List UInt8)
    (inum : Nat) : Prop where
  /-- `dirlookup` returns what the name is bound to, and where, if the inode table has an entry for
  it. -/
  lookup : (dirlookup dp name).Wp (exec sb p) (fun e => e = some .igetNoInodes ∧ TableFull s)
    (fun r s' => match binding (s.inode dp).node.data name with
      | none => r = none ∧ s' = s
      | some n => ∃ i k, r = some (i, DESIZE * k) ∧ slotOf (s.inode dp).node.data name = some k ∧
        Got s s' i n) s
  /-- `dirlink` of a name that is not bound adds the binding, in the first empty slot or at the end,
  if there is a slot and a block for it. -/
  link : binding (s.inode dp).node.data name = none →
    (dirlink dp name inum).Wp (exec sb p)
      (fun e => e = some .dirlink ∧ Full (s.inode dp).node.data ∨
        e = some .ballocOutOfBlocks ∧ sb.nblocks < used sb (Function.update s.disk (s.inode dp).inum
          (s.writeSlot dp (emptySlot (s.inode dp).node.data) (Dirent.mk' name inum).bytes)))
      (fun r s' => r = true ∧ Directory (s'.inode dp).node.data ∧
        (s'.inode dp).node.data =
          splice (s.inode dp).node.data (DESIZE * emptySlot (s.inode dp).node.data)
          (Dirent.mk' name inum).bytes ∧
        binding (s'.inode dp).node.data = Function.update (binding (s.inode dp).node.data)
          name (some inum) ∧
        s'.disk = Function.update s.disk (s.inode dp).inum (s'.inode dp).node) s
  /-- A directory below the maximal size has a slot. -/
  room : (s.inode dp).node.data.length < MAXFILE * BSIZE → ¬Full (s.inode dp).node.data
  /-- `dirlink` of a name that is bound changes nothing; it needs an entry of the inode table. -/
  linked : binding (s.inode dp).node.data name ≠ none →
    (dirlink dp name inum).Wp (exec sb p) (fun e => e = some .igetNoInodes ∧ TableFull s)
      (fun r s' => r = false ∧ s'.disk = s.disk ∧ ∀ j, (s'.inode j).ref = (s.inode j).ref ∧
        (0 < (s.inode j).ref → s'.inode j = s.inode j)) s
  /-- Zeroing the entry that `dirlookup` found removes the binding. -/
  unlink : ∀ k, slotOf (s.inode dp).node.data name = some k →
    (op (.writei dp (DESIZE * k) DESIZE Dirent.zero.bytes)).Wp (exec sb p) (fun _ => False)
      (fun (r : Int) s' => r = DESIZE ∧ Directory (s'.inode dp).node.data ∧
        binding (s'.inode dp).node.data =
          Function.update (binding (s.inode dp).node.data) name none ∧
        s'.disk = Function.update s.disk (s.inode dp).inum (s'.inode dp).node) s
  /-- `isdirempty` returns. -/
  empty : (isdirempty dp).Wp (exec sb p) (fun _ => False) (fun _ s' => s' = s) s

/-- The reference that `iget` took is dropped at once. -/
theorem Got.iput_wp (h : Got s s' i n) :
    (iput i).Wp (exec sb p) (fun _ => False)
    (fun _ t => t.disk = s.disk ∧ ∀ j, (t.inode j).ref = (s.inode j).ref ∧
      (0 < (s.inode j).ref → t.inode j = s.inode j)) s' := by
  have keep : ¬((s'.inode i).ref = 1 ∧ (s'.inode i).valid = true ∧
      (s'.inode i).node.nlink = 0) := by
    rintro ⟨h1, hv, -⟩
    by_cases h0 : 0 < (s.inode i).ref
    · rw [h.old h0] at h1
      dsimp only at h1
      omega
    · rw [(h.new (by omega)).2.1] at hv
      cases hv
  have he : exec sb p (.iputTest i) s' =
      .ok (false, s'.setInode i { s'.inode i with ref := (s'.inode i).ref - 1 }) := by
    simp only [exec, if_neg keep]
  refine wp_op he ⟨?_, fun j => ?_⟩
  · rw [h.frame]
    rfl
  · by_cases hj : j = i
    · subst hj
      rw [inode_setInode_self]
      by_cases h0 : 0 < (s.inode j).ref
      · rw [h.old h0]
        exact ⟨rfl, fun _ => rfl⟩
      · refine ⟨?_, fun hp => absurd hp h0⟩
        dsimp only
        rw [(h.new (by omega)).1]
        omega
    · have : (s'.setInode i { s'.inode i with ref := (s'.inode i).ref - 1 }).inode j = s'.inode j :=
        update_of_ne hj ..
      rw [this, h.inode_of_ne hj]
      exact ⟨rfl, fun _ => rfl⟩

section
variable {inum : Nat} (hd : LockedDir sb s dp)

include hd

theorem LockedDir.lookup :
    (dirlookup dp name).Wp (exec sb p)
      (fun e => e = some .igetNoInodes ∧
        ∃ n, binding (s.inode dp).node.data (cstr name) = some n ∧ s.find n = none)
      (fun r s' => match binding (s.inode dp).node.data (cstr name) with
        | none => r = none ∧ s' = s
        | some n => ∃ i k, r = some (i, DESIZE * k) ∧
            slotOf (s.inode dp).node.data (cstr name) = some k ∧
          Got s s' i n) s := by
  refine dirlookup_wp hd.loaded hd.type (fun hs => ?_) fun k hs => ?_
  · rw [binding, hs]
    exact ⟨rfl, rfl⟩
  · rw [binding, hs]
    refine ((iget_wp _).weaken fun e he => ?_).mono fun i s' hi => ⟨i, k, rfl, rfl, hi⟩
    exact ⟨he.1, _, rfl, he.2⟩

theorem LockedDir.linked (bound : binding (s.inode dp).node.data (cstr name) ≠ none) :
    (dirlink dp name inum).Wp (exec sb p)
      (fun e => e = some .igetNoInodes ∧
        ∃ n, binding (s.inode dp).node.data (cstr name) = some n ∧ s.find n = none)
      (fun r s' => r = false ∧ s'.disk = s.disk ∧ ∀ j, (s'.inode j).ref = (s.inode j).ref ∧
        (0 < (s.inode j).ref → s'.inode j = s.inode j)) s := by
  obtain ⟨n, hn⟩ := Option.ne_none_iff_exists'.1 bound
  refine hd.lookup.bind fun r s' hr => ?_
  rw [hn] at hr
  obtain ⟨i, k, rfl, -, hi⟩ := hr
  refine (hi.iput_wp.weaken fun _ h => h.elim).bind fun _ t ht => ?_
  exact ⟨rfl, ht⟩

omit [DecidableEq P] [Fintype P] in
theorem LockedDir.not_full (hlt : (s.inode dp).node.data.length < MAXFILE * BSIZE) :
    ¬Full (s.inode dp).node.data := by
  have hk := (FreeSlot.emptySlot hd.dir.whole).le_slotCount
  have := hd.dir.whole
  simp only [Full, MAXFILE, NDIRECT, NINDIRECT, BSIZE, DESIZE] at this hlt ⊢
  omega

theorem LockedDir.link (h0 : inum ≠ 0) (hi : inum < 2 ^ 16)
    (unbound : binding (s.inode dp).node.data (cstr name) = none) :
    (dirlink dp name inum).Wp (exec sb p)
      (fun e => e = some .dirlink ∧ Full (s.inode dp).node.data ∨
        e = some .ballocOutOfBlocks ∧ sb.nblocks < used sb (Function.update s.disk (s.inode dp).inum
          (s.writeSlot dp (emptySlot (s.inode dp).node.data) (Dirent.mk' name inum).bytes)))
      (fun r s' => r = true ∧ Directory (s'.inode dp).node.data ∧
        (s'.inode dp).node.data =
          splice (s.inode dp).node.data (DESIZE * emptySlot (s.inode dp).node.data)
          (Dirent.mk' name inum).bytes ∧
        binding (s'.inode dp).node.data =
          Function.update (binding (s.inode dp).node.data) (cstr name) (some inum) ∧
        s'.disk = Function.update s.disk (s.inode dp).inum (s'.inode dp).node) s := by
  have hslot : slotOf (s.inode dp).node.data (cstr name) = none := Option.map_eq_none_iff.1 unbound
  have hfree := FreeSlot.emptySlot hd.dir.whole
  have hrun : (dirlink dp name inum).run (exec sb p) s = _ :=
    dirlink_unbound_run hd.loaded hd.type hslot
  by_cases hfits : Full (s.inode dp).node.data
  · have hfull := hfits
    rw [Full] at hfull
    rw [if_pos hfull] at hrun
    exact Prog.Wp.of_run_panic hrun (.inl ⟨rfl, hfits⟩)
  rw [Full] at hfits
  rw [if_neg hfits] at hrun
  by_cases hroom : sb.nblocks < used sb (Function.update s.disk (s.inode dp).inum
      (s.writeSlot dp (emptySlot (s.inode dp).node.data) (Dirent.mk' name inum).bytes))
  · rw [if_pos hroom] at hrun
    exact Prog.Wp.of_run_panic hrun (.inr ⟨rfl, hroom⟩)
  · rw [if_neg hroom] at hrun
    obtain ⟨hdir, hbind⟩ :=
      hd.dir.add hfree (Nat.le_of_not_lt hfits) (Dirent.length_mk' ..) Dirent.ofBytes_mk'
      (by rwa [Dirent.inum_mk' hi]) Dirent.cstr_name_mk' unbound
    rw [Dirent.inum_mk' hi] at hbind
    refine Prog.Wp.of_run_ok hrun ⟨rfl, ?_⟩
    rw [(data_store _).1]
    exact ⟨hdir, rfl, hbind, rfl⟩

theorem LockedDir.unlink {k : Nat} (hk : slotOf (s.inode dp).node.data name = some k) :
    (op (.writei dp (DESIZE * k) DESIZE Dirent.zero.bytes)).Wp (exec sb p) (fun _ => False)
      (fun (r : Int) s' => r = DESIZE ∧ Directory (s'.inode dp).node.data ∧
        binding (s'.inode dp).node.data =
          Function.update (binding (s.inode dp).node.data) name none ∧
        s'.disk = Function.update s.disk (s.inode dp).inum (s'.inode dp).node) s := by
  obtain ⟨-, hlt, -⟩ := firstFrom_eq_some hk
  obtain ⟨hdir, hbind⟩ := hd.dir.erase hk
  have hle := (hd.loaded.lt_iff.2 hlt).le
  have hfits : ¬MAXFILE * BSIZE < DESIZE * k + DESIZE := by
    have := hd.dir.whole
    have hlim := hd.dir.limit
    simp only [MAXFILE, NDIRECT, NINDIRECT, BSIZE, DESIZE] at this hlim ⊢
    omega
  have hlen : (s.writeSlot dp k Dirent.zero.bytes).data.length =
      (s.disk (s.inode dp).inum).data.length := by
    rw [hd.fresh, hd.dir.whole, St.writeSlot, hd.dir.length_splice hlt.le Dirent.length_zero,
      Nat.max_eq_left hlt]
  have hwrite := exec_writei_slot sb p Dirent.length_zero hle hd.dir.limit
  rw [if_neg hfits, used_update hlen, if_neg (Nat.not_lt.2 hd.room)] at hwrite
  refine wp_op (f := .ret) hwrite ⟨rfl, ?_⟩
  rw [(data_store _).1]
  exact ⟨hdir, hbind, rfl⟩

end

end

/-! ## A directory without empty slots -/

/-- The name in slot `k`. -/
def slotName (k : Nat) : List UInt8 :=
  if k = 0 then dotName
  else if k = 1 then dotdotName
  else [1, UInt8.ofNat (k / 250 + 1), UInt8.ofNat (k % 250 + 1)]

/-- A root directory with `n` entries: `.`, `..` and links to inode 2. -/
def fullDir (n : Nat) : List UInt8 :=
  (range n).flatMap fun k => (Dirent.mk' (slotName k) (if k < 2 then ROOTINO else 2)).bytes

theorem length_fullDir (n : Nat) : (fullDir n).length = DESIZE * n := by
  rw [fullDir, length_flatMap]
  simp only [Dirent.length_mk', map_const', length_range, sum_replicate_nat, Nat.mul_comm]

theorem slotCount_fullDir (n : Nat) : slotCount (fullDir n) = n := by
  rw [slotCount, length_fullDir, Nat.mul_div_cancel_left _ (by decide)]

variable {n k : Nat}

theorem entry_fullDir (hk : k < n) :
    entry (fullDir n) k = Dirent.mk' (slotName k) (if k < 2 then ROOTINO else 2) := by
  induction n with
  | zero => cases hk
  | succ n ih =>
    have hsucc : fullDir (n + 1) =
        fullDir n ++ (Dirent.mk' (slotName n) (if n < 2 then ROOTINO else 2)).bytes := by
      rw [fullDir, range_succ, flatMap_append, flatMap_singleton]
      rfl
    rw [entry, slice, hsucc]
    by_cases hkn : k = n
    · subst hkn
      rw [drop_left' (length_fullDir k), take_of_length_le (Dirent.length_mk' ..).le,
        Dirent.ofBytes_mk']
    · have hlen : DESIZE * k + DESIZE ≤ (fullDir n).length := by
        rw [length_fullDir, ← Nat.mul_succ]
        exact Nat.mul_le_mul_left _ (by omega)
      rw [drop_append_of_le_length (by omega),
        take_append_of_le_length (by rw [length_drop]; omega)]
      exact ih (by omega)

theorem inum_fullDir (hk : k < n) : (entry (fullDir n) k).inum ≠ 0 := by
  rw [entry_fullDir hk]
  by_cases h : k < 2
  · rw [if_pos h]
    exact Nat.one_ne_zero
  · rw [if_neg h]
    exact two_ne_zero

theorem toNat_ofNat_succ {m : Nat} (h : m < 255) : (UInt8.ofNat (m + 1)).toNat = m + 1 :=
  UInt8.toNat_ofNat_of_lt' (by simp only [UInt8.size]; omega)

theorem cstr_triple {a b : UInt8} (ha : a ≠ 0) (hb : b ≠ 0) : cstr [1, a, b] = [1, a, b] := by
  simp [cstr, DIRSIZ, ha, hb]

theorem cstr_slotName (hk : k < 20000) : cstr (slotName k) = slotName k := by
  have hne {m : Nat} (hm : m < 255) : UInt8.ofNat (m + 1) ≠ 0 := by
    intro h
    have := congrArg UInt8.toNat h
    rw [toNat_ofNat_succ hm] at this
    simp at this
  by_cases h0 : k = 0
  · subst h0
    rfl
  by_cases h1 : k = 1
  · subst h1
    rfl
  rw [slotName, if_neg h0, if_neg h1]
  exact cstr_triple (hne (m := k / 250) (by omega)) (hne (m := k % 250) (by omega))

theorem slotName_inj {j : Nat} (hj : j < 20000) (hk : k < 20000) (h : slotName j = slotName k) :
    j = k := by
  have hlen (m : Nat) : (slotName m).length = min m 2 + 1 := by
    rw [slotName]
    split
    · subst m
      rfl
    · split
      · subst m
        rfl
      · simp only [length_cons, length_nil]
        omega
  have hl := congrArg length h
  rw [hlen, hlen] at hl
  by_cases h2 : j < 2
  · omega
  · rw [slotName, if_neg (by omega), if_neg (by omega), slotName, if_neg (by omega),
      if_neg (by omega)] at h
    simp only [cons.injEq, and_true, true_and] at h
    have h₁ := congrArg UInt8.toNat h.1
    have h₂ := congrArg UInt8.toNat h.2
    rw [toNat_ofNat_succ (by omega), toNat_ofNat_succ (by omega)] at h₁ h₂
    omega

theorem binds_fullDir {name : List UInt8} (hn : n ≤ 20000) (hk : k < n) :
    (entry (fullDir n) k).Binds name = true ↔ slotName k = name := by
  rw [Dirent.Binds, Bool.and_eq_true, decide_eq_true_iff, decide_eq_true_iff,
    and_iff_right (inum_fullDir hk),
    entry_fullDir hk, Dirent.cstr_name_mk', cstr_slotName (by omega)]

theorem directory_fullDir (hn : DESIZE * n ≤ MAXFILE * BSIZE) : Directory (fullDir n) where
  whole := by rw [length_fullDir, slotCount_fullDir]
  limit := by rwa [length_fullDir]
  distinct := by
    have hle : n ≤ 20000 := by
      simp only [MAXFILE, NDIRECT, NINDIRECT, BSIZE, DESIZE] at hn
      omega
    intro name j k hj hk hbj hbk
    rw [slotCount_fullDir] at hj hk
    have h := ((binds_fullDir hle hj).1 hbj).trans ((binds_fullDir hle hk).1 hbk).symm
    exact slotName_inj (by omega) (by omega) h

theorem emptySlot_fullDir (n : Nat) : emptySlot (fullDir n) = n := by
  have hnone : firstFrom (fun k => (entry (fullDir n) k).inum == 0) (slotCount (fullDir n)) 0 =
      none := by
    rw [firstFrom_eq_none, slotCount_fullDir]
    intro k _ hk
    exact beq_eq_false_iff_ne.2 (inum_fullDir hk)
  rw [emptySlot, hnone, slotCount_fullDir]
  rfl

/-- A disk whose root directory has `n` entries. -/
def fullDisk (n i : Nat) : Node :=
  if i = ROOTINO then ⟨.dir, 0, 0, 1, [], fullDir n⟩
  else if i = 2 then ⟨.file, 0, 0, n - 2, [], []⟩
  else ⟨.free, 0, 0, 0, [], []⟩

/-- The first process has the root directory locked. -/
def fullState (n : Nat) : St Bool where
  disk := fullDisk n
  inode i :=
    ⟨ROOTINO, if i.val = 0 then 1 else 0, if i.val = 0 then some true else none, true,
      fullDisk n ROOTINO⟩
  file _ := ⟨.none, 0, false, false, 0, ⟨0, by decide⟩, 0, 0⟩
  ofile _ _ := none
  cwd _ := some ⟨0, by decide⟩
  stage _ := .live
  child _ := none
  pipe _ := none
  free := []
  busy p := p
  committing := none
  room := true
  bmap addrs _ := addrs
  spare := none

/-- An image with four inodes. -/
def fourInodes : Superblock := { Superblock.mkfs with ninodes := 4 }

theorem used_fourInodes (x : Node) :
    used fourInodes (Function.update (fullDisk n) ROOTINO x) = blocks x.data.length := by
  have : range fourInodes.ninodes = [0, 1, 2, 3] := rfl
  have h0 : blocks 0 = 0 := rfl
  rw [used, this]
  simp [fullDisk, ROOTINO, h0]

theorem blocks_le {len : Nat} (h : len ≤ MAXFILE * BSIZE) : blocks len ≤ 269 := by
  have hn : (len + BSIZE - 1) / BSIZE ≤ 268 := by
    simp only [MAXFILE, NDIRECT, NINDIRECT, BSIZE] at h ⊢
    omega
  rw [blocks]
  by_cases hd : NDIRECT < (len + BSIZE - 1) / BSIZE
  · rw [if_pos hd]
    omega
  · rw [if_neg hd]
    omega

section
variable {n : Nat} (hn : DESIZE * n ≤ MAXFILE * BSIZE)

include hn

theorem lockedDir_fullState : LockedDir fourInodes (fullState n) ⟨0, by decide⟩ where
  type := rfl
  ref := Nat.one_pos
  dir := directory_fullDir hn
  fresh := rfl
  room := by
    have hb : fourInodes.nblocks = 954 := rfl
    have h1 : blocks (fullDir n).length ≤ 269 := blocks_le (by rwa [← length_fullDir n] at hn)
    have hu : used fourInodes (fullDisk n) = blocks (fullDir n).length := by
      rw [← update_eq_self ROOTINO (fullDisk n)]
      exact used_fourInodes _
    change used fourInodes (fullDisk n) ≤ _
    rw [hu, hb]
    exact h1.trans (by decide)

theorem unbound_fullState : binding ((fullState n).inode ⟨0, by decide⟩).node.data [97] = none := by
  have hle : n ≤ 20000 := by
    simp only [MAXFILE, NDIRECT, NINDIRECT, BSIZE, DESIZE] at hn
    omega
  change binding (fullDir n) [97] = none
  rw [binding_eq_none, slotCount_fullDir]
  intro k hk
  apply Bool.eq_false_of_not_eq_true
  rw [binds_fullDir hle hk]
  rw [slotName]
  split
  · decide
  · split
    · decide
    · simp

end

theorem length_fullState (n : Nat) :
    ((fullState n).inode ⟨0, by decide⟩).node.data.length = DESIZE * n :=
  length_fullDir n

theorem emptySlot_fullState (n : Nat) :
    emptySlot ((fullState n).inode ⟨0, by decide⟩).node.data = n :=
  emptySlot_fullDir n

theorem length_writeSlot (n inum : Nat) :
    ((fullState n).writeSlot ⟨0, by decide⟩ n (Dirent.mk' [97] inum).bytes).data.length =
      DESIZE * n + DESIZE := by
  have hlen := length_fullState n
  rw [St.writeSlot, length_splice hlen.ge, hlen, Dirent.length_mk']
  omega

theorem room_fullState {inum : Nat} (hn : DESIZE * n + DESIZE ≤ MAXFILE * BSIZE) :
    used fourInodes (Function.update (fullState n).disk ((fullState n).inode ⟨0, by decide⟩).inum
      ((fullState n).writeSlot ⟨0, by decide⟩ n (Dirent.mk' [97] inum).bytes)) ≤
        fourInodes.nblocks := by
  have hb : fourInodes.nblocks = 954 := rfl
  have h1 := blocks_le hn
  change used fourInodes (Function.update (fullDisk n) ROOTINO _) ≤ fourInodes.nblocks
  rw [used_fourInodes, length_writeSlot, hb]
  omega

/-- The last entry that there is space for makes the directory as large as a file can be. -/
theorem dirlink_fullState (hn : DESIZE * n + DESIZE ≤ MAXFILE * BSIZE) :
    ∃ s', (dirlink ⟨0, by decide⟩ [97] 1).run (exec fourInodes true)
    (fullState n) = .ok (true, s') ∧
      (s'.inode ⟨0, by decide⟩).node.data.length = DESIZE * n + DESIZE := by
  have hd := lockedDir_fullState (n := n) (by omega)
  have hun := Option.map_eq_none_iff.1 (unbound_fullState (n := n) (by omega))
  have hrun : (dirlink ⟨0, by decide⟩ [97] 1).run (exec fourInodes true) (fullState n) = _ :=
    dirlink_unbound_run hd.loaded hd.type hun
  rw [emptySlot_fullState, if_neg (by omega), if_neg (Nat.not_lt.2 (room_fullState hn))] at hrun
  refine ⟨_, hrun, ?_⟩
  rw [(data_store _).1, length_writeSlot]

end Dir

end Xv6
