import Xv6.Dir.Boot
import Xv6.Dir.Directory

/-!
# Path resolution

`namei` and `nameiparent` fold `dirlookup` over the components of a path. A process that resolves a
path alone holds one reference at a time, two while it looks a name up, and changes nothing but the
inode table.
-/

namespace Xv6.Dir

open Lib Function List

/-! ## What a path names -/

/-- The inode that a directory binds a name to. -/
def lookupIn (disk : Nat → Node) (d : Nat) (name : List UInt8) : Option Nat :=
  if (disk d).type = .dir then binding (disk d).data (cstr name) else none

/-- The inode that a list of components leads to from `d`. -/
def resolve (disk : Nat → Node) (d : Nat) (names : List (List UInt8)) : Option Nat :=
  names.foldlM (lookupIn disk) d

/-- The directory of the last component, and the component. -/
def resolveParent (disk : Nat → Node) (d : Nat) (names : List (List UInt8)) :
    Option (Nat × List UInt8) :=
  match names.getLast? with
  | none => none
  | some name =>
    (resolve disk d names.dropLast).bind fun e => if (disk e).type = .dir then
      some (e, name) else none

/-- What the loop of `namex` computes. -/
def walk (disk : Nat → Node) (par : Bool) : List (List UInt8) → Nat → Option (Nat × List UInt8)
  | [], d => if par then none else some (d, [])
  | name :: rest, d =>
    if (disk d).type ≠ .dir then none
    else if par && rest.isEmpty then some (d, name)
    else (binding (disk d).data (cstr name)).bind (walk disk par rest)

section
variable {disk : Nat → Node} {d : Nat} {name : List UInt8} {names : List (List UInt8)}

theorem resolve_cons :
    resolve disk d (name :: names) = (lookupIn disk d name).bind (resolve disk · names) :=
  foldlM_cons

theorem walk_false : walk disk false names d = (resolve disk d names).map fun e => (e, []) := by
  induction names generalizing d with
  | nil => rfl
  | cons name names ih =>
    rw [walk, resolve_cons, lookupIn]
    by_cases ht : (disk d).type = .dir
    · rw [if_neg (fun h => h ht), if_pos ht, Option.map_bind]
      simp only [Bool.false_and, Bool.false_eq_true, if_false]
      exact congrArg _ (funext fun e => ih)
    · rw [if_pos ht, if_neg ht]
      rfl

theorem walk_true : walk disk true names d = resolveParent disk d names := by
  induction names generalizing d with
  | nil => rfl
  | cons name names ih =>
    rw [walk]
    cases names with
    | nil =>
      by_cases ht : (disk d).type = .dir
      · simp [resolveParent, resolve, ht]
      · simp [resolveParent, resolve, ht]
    | cons name' names =>
      have hlast : resolveParent disk d (name :: name' :: names) =
          (lookupIn disk d name).bind fun e => resolveParent disk e (name' :: names) := by
        simp only [resolveParent, getLast?_cons_cons, dropLast_cons_cons, resolve_cons]
        cases h : (name' :: names).getLast? with
        | none => simp at h
        | some last => exact Option.bind_assoc ..
      rw [hlast, lookupIn]
      by_cases ht : (disk d).type = .dir
      · simp only [ht, ne_eq, not_true, if_false, if_true, isEmpty_cons, Bool.and_false,
          Bool.false_eq_true]
        exact congrArg _ (funext fun e => ih)
      · simp [ht]

theorem type_of_resolveParent {e : Nat} (h : resolveParent disk d names = some (e, name)) :
    (disk e).type = .dir := by
  rw [resolveParent] at h
  split at h
  · cases h
  · obtain ⟨e', -, he⟩ := Option.bind_eq_some_iff.1 h
    split at he
    · cases he
      assumption
    · cases he

/-- The last component is looked up in the directory that `nameiparent` finds. -/
theorem resolve_eq (h : names ≠ []) :
    resolve disk d names = (resolveParent disk d names).bind fun r => lookupIn disk r.1 r.2 := by
  obtain ⟨init, last, rfl⟩ : ∃ init last, names = init ++ [last] :=
    ⟨_, _, (dropLast_append_getLast h).symm⟩
  rw [resolveParent, getLast?_append, dropLast_concat, resolve, foldlM_append]
  dsimp only [getLast?_singleton, Option.some_or]
  rw [Option.bind_assoc, resolve]
  refine congrArg _ (funext fun e => ?_)
  rw [foldlM_cons, lookupIn]
  by_cases ht : (disk e).type = .dir
  · simp [ht, lookupIn]
  · simp [ht]

end

/-! ## One process alone -/

variable {P : Type} {sb : Superblock} {p : P} {s₀ s s' : St P} {i j ip : IId} {n : Nat}

/-- The inode is allocated, and it does not go away when a reference to it is dropped. -/
def Present (s : St P) (n : Nat) : Prop :=
  (s.disk n).type ≠ .free ∧ ((s.disk n).nlink ≠ 0 ∨ ∃ i, 0 < (s.inode i).ref ∧ (s.inode i).inum = n)

/-- The directories consist of whole entries, which name inodes that are there. -/
structure DirTree (s : St P) : Prop where
  root : Present s ROOTINO
  whole : ∀ d, (s.disk d).type = .dir →
    (s.disk d).data.length = DESIZE * slotCount (s.disk d).data ∧
    (s.disk d).data.length ≤ MAXFILE * BSIZE
  named : ∀ d, (s.disk d).type = .dir → ∀ k, k < slotCount (s.disk d).data →
    (entry (s.disk d).data k).inum ≠ 0 →
    Present s (entry (s.disk d).data k).inum

/-- No inode is locked, and the inode table is right. -/
structure TableRight (s : St P) : Prop where
  unlocked : ∀ i, (s.inode i).lock = none
  fresh : ∀ i, 0 < (s.inode i).ref → (s.inode i).valid = true →
    (s.inode i).node = s.disk (s.inode i).inum
  unique : ∀ i j, 0 < (s.inode i).ref → 0 < (s.inode j).ref →
    (s.inode i).inum = (s.inode j).inum → i = j

/-- Two entries of the inode table are not in use. -/
def TwoFree (s : St P) : Prop := ∃ i j, i ≠ j ∧ (s.inode i).ref = 0 ∧ (s.inode j).ref = 0

/-- From `s₀` on, the process has taken the references `held` and has one inode locked, or none. -/
structure Walks (p : P) (s₀ s : St P) (held : IId → Nat) (locked : Option IId) : Prop where
  frame : s = { s₀ with inode := s.inode }
  ref : ∀ j, (s.inode j).ref = (s₀.inode j).ref + held j
  inum : ∀ j, 0 < (s₀.inode j).ref → (s.inode j).inum = (s₀.inode j).inum
  lock : ∀ j, (s.inode j).lock = if locked = some j then some p else none
  fresh : ∀ j, 0 < (s.inode j).ref → (s.inode j).valid = true →
    (s.inode j).node = s₀.disk (s.inode j).inum
  loaded : ∀ j, locked = some j → 0 < (s.inode j).ref ∧ (s.inode j).valid = true
  unique : ∀ i j, 0 < (s.inode i).ref → 0 < (s.inode j).ref →
    (s.inode i).inum = (s.inode j).inum → i = j

namespace Walks

variable {held held' : IId → Nat} {locked : Option IId}

theorem start (h : TableRight s) : Walks p s s 0 none where
  frame := rfl
  ref _ := rfl
  inum _ _ := rfl
  lock j := by rw [h.unlocked, if_neg nofun]
  fresh := h.fresh
  loaded _ h := nomatch h
  unique := h.unique

/-- One entry of the table is changed, and stays right. -/
theorem setInode {x : InCore P} (w : Walks p s₀ s held locked) {locked' : Option IId}
    (ref : ∀ j, (if j = i then x.ref else (s.inode j).ref) = (s₀.inode j).ref + held' j)
    (inum : 0 < (s.inode i).ref → x.inum = (s.inode i).inum)
    (lock : ∀ j, (if j = i then x.lock else (s.inode j).lock) = if locked' = some j then
      some p else none)
    (fresh : 0 < x.ref → x.valid = true → x.node = s₀.disk x.inum)
    (loaded : ∀ j, locked' = some j → 0 < (if j = i then x.ref else (s.inode j).ref) ∧
      (if j = i then x.valid else (s.inode j).valid) = true)
    (unique : 0 < x.ref → 0 < (s.inode i).ref ∨ ∀ j, 0 < (s.inode j).ref →
      (s.inode j).inum ≠ x.inum) :
    Walks p s₀ (s.setInode i x) held' locked' := by
  have hself : (s.setInode i x).inode i = x := update_self ..
  have hne : ∀ j, j ≠ i → (s.setInode i x).inode j = s.inode j := fun j hj => update_of_ne hj ..
  have apart : ∀ j, j ≠ i → 0 < x.ref → 0 < (s.inode j).ref → (s.inode j).inum ≠ x.inum := by
    intro j hj hx hr h
    rcases unique hx with hi | hi
    · exact hj (w.unique j i hr hi (h.trans (inum hi)))
    · exact hi j hr h
  constructor
  · rw [w.frame]
    rfl
  · intro j
    rw [← ref j]
    by_cases hj : j = i
    · subst hj
      rw [hself, if_pos rfl]
    · rw [hne j hj, if_neg hj]
  · intro j hr
    by_cases hj : j = i
    · subst hj
      have : 0 < (s.inode j).ref := by
        have := w.ref j
        omega
      rw [hself, inum this, w.inum j hr]
    · rw [hne j hj, w.inum j hr]
  · intro j
    rw [← lock j]
    by_cases hj : j = i
    · subst hj
      rw [hself, if_pos rfl]
    · rw [hne j hj, if_neg hj]
  · intro j hr hv
    by_cases hj : j = i
    · subst hj
      rw [hself] at hr hv ⊢
      exact fresh hr hv
    · rw [hne j hj] at hr hv ⊢
      exact w.fresh j hr hv
  · intro j hl
    have := loaded j hl
    by_cases hj : j = i
    · subst hj
      rwa [if_pos rfl, if_pos rfl, ← hself] at this
    · rwa [if_neg hj, if_neg hj, ← hne j hj] at this
  · intro j k hj hk h
    by_cases hji : j = i
    · by_cases hki : k = i
      · exact hji.trans hki.symm
      · subst hji
        rw [hself] at hj h
        rw [hne k hki] at hk h
        exact absurd h.symm (apart k hki hj hk)
    · rw [hne j hji] at hj h
      by_cases hki : k = i
      · subst hki
        rw [hself] at hk h
        exact absurd h (apart j hji hk hj)
      · rw [hne k hki] at hk h
        exact w.unique j k hj hk h

theorem disk (w : Walks p s₀ s held locked) : s.disk = s₀.disk := by rw [w.frame]

theorem got (w : Walks p s₀ s held locked) (h : Got s s' i n) :
    Walks p s₀ s' (held + Pi.single i 1) locked ∧
      ∀ j, 0 < (s.inode j).ref → (s'.inode j).inum = (s.inode j).inum := by
  have href : (s'.inode i).ref = (s.inode i).ref + 1 := by
    by_cases h0 : 0 < (s.inode i).ref
    · rw [h.old h0]
    · rw [(h.new (by omega)).1]
      omega
  have hinum : 0 < (s.inode i).ref → (s'.inode i).inum = (s.inode i).inum :=
    fun h0 => by rw [h.old h0]
  refine ⟨?_, fun j hj => ?_⟩
  · rw [h.frame]
    refine w.setInode (fun j => ?_) hinum (fun j => ?_) (fun _ hv => ?_) (fun j hl => ?_) fun _ =>
      ?_
    · by_cases hj : j = i
      · subst hj
        rw [if_pos rfl, href, w.ref, Pi.add_apply, Pi.single_eq_same, Nat.add_assoc]
      · rw [if_neg hj, w.ref, Pi.add_apply, Pi.single_eq_of_ne hj, Nat.add_zero]
    · rw [← w.lock j, h.lock]
      split
      · rw [‹j = i›]
      · rfl
    · by_cases h0 : 0 < (s.inode i).ref
      · rw [h.old h0] at hv ⊢
        exact w.fresh i h0 hv
      · rw [(h.new (by omega)).2.1] at hv
        cases hv
    · obtain ⟨hr, hv⟩ := w.loaded j hl
      split
      · subst j
        rw [h.old hr]
        exact ⟨Nat.succ_pos _, hv⟩
      · exact ⟨hr, hv⟩
    · by_cases h0 : 0 < (s.inode i).ref
      · exact .inl h0
      · rw [h.inum]
        exact .inr (h.new (by omega)).2.2
  · by_cases hji : j = i
    · subst hji
      exact hinum hj
    · rw [h.inode_of_ne hji]

/-- With at most one reference taken, there is an entry for one more inode if there were two. -/
theorem not_full (w : Walks p s₀ s (Pi.single ip 1) locked) (h : TwoFree s₀) : ¬TableFull s := by
  obtain ⟨i, j, hij, hi, hj⟩ := h
  intro hfull
  have hne : ∀ k, (s₀.inode k).ref = 0 → k = ip := by
    intro k hk
    by_contra hne
    have := w.ref k
    rw [hk, Pi.single_eq_of_ne hne] at this
    exact absurd (hfull k) (by omega)
  exact hij ((hne i hi).trans (hne j hj).symm)

/-- The last reference to an inode is not dropped unless it has links. -/
theorem keeps (w : Walks p s₀ s held locked) (hi : 0 < held ip) (hp : Present s₀ (s.inode ip).inum)
    (h1 : (s.inode ip).ref = 1) : (s₀.disk (s.inode ip).inum).nlink ≠ 0 := by
  refine hp.2.resolve_right ?_
  rintro ⟨j, hr, hn⟩
  have hj : 0 < (s.inode j).ref := by
    have := w.ref j
    omega
  have hji : j = ip := w.unique j ip hj (by omega) ((w.inum j hr).trans hn)
  subst hji
  have := w.ref j
  omega

theorem locked_node (w : Walks p s₀ s held (some ip)) :
    (s.inode ip).node = s₀.disk (s.inode ip).inum :=
  w.fresh ip (w.loaded ip rfl).1 (w.loaded ip rfl).2

variable [DecidableEq P] [Fintype P]

theorem exec_load_valid (hv : (s.inode i).valid = true) : exec sb p (.load i) s = .ok ((), s) := by
  simp only [exec, hv, if_true]

theorem exec_load_disk (hv : ¬(s.inode i).valid = true)
    (ht : (s.disk (s.inode i).inum).type ≠ .free) :
    exec sb p (.load i) s =
      .ok ((), s.setInode i { s.inode i with valid := true, node := s.disk (s.inode i).inum }) := by
  simp only [exec, if_neg hv, if_neg ht]

theorem ilock_wp (w : Walks p s₀ s held none) (hr : 0 < (s.inode i).ref)
    (ht : (s₀.disk (s.inode i).inum).type ≠ .free) :
    (ilock i).Wp (exec sb p) (fun _ => False) (fun _ s' => Walks p s₀ s' held (some i) ∧
      ∀ j, (s'.inode j).inum = (s.inode j).inum) s := by
  have hfree : (s.inode i).lock = none := by rw [w.lock, if_neg nofun]
  have hacq : exec sb p (.acquire i) s =
      .ok ((), s.setInode i { s.inode i with lock := some p }) := by
    simp only [exec, if_neg (Nat.not_lt.2 hr), hfree, if_true]
  have done : ∀ x : InCore P, x.ref = (s.inode i).ref → x.inum = (s.inode i).inum →
      x.lock = some p →
      x.valid = true → x.node = s₀.disk x.inum → Walks p s₀ (s.setInode i x) held (some i) ∧
        ∀ j, ((s.setInode i x).inode j).inum = (s.inode j).inum := by
    intro x hxr hxi hxl hxv hxn
    refine ⟨w.setInode (fun j => ?_) (fun _ => hxi) (fun j => ?_) (fun _ _ => hxn) (fun j hl => ?_)
      fun _ => .inl hr, fun j => ?_⟩
    · rw [← w.ref j]
      split
      · rw [hxr, ‹j = i›]
      · rfl
    · by_cases hj : j = i
      · rw [if_pos hj, if_pos (congrArg some hj.symm), hxl]
      · rw [if_neg hj, if_neg (fun h => hj (Option.some.inj h).symm), w.lock, if_neg nofun]
    · obtain rfl := Option.some.inj hl
      rw [if_pos rfl, if_pos rfl, hxr]
      exact ⟨hr, hxv⟩
    · by_cases hj : j = i
      · subst hj
        rw [inode_setInode_self, hxi]
      · exact congrArg InCore.inum (update_of_ne hj ..)
  refine wp_op hacq ?_
  have hinode : (s.setInode i { s.inode i with lock := some p }).inode i =
      { s.inode i with lock := some p } :=
    update_self ..
  by_cases hv : (s.inode i).valid = true
  · refine wp_op (f := .ret) (exec_load_valid ?_) (done _ rfl rfl rfl hv (w.fresh i hr hv))
    rw [hinode]
    exact hv
  · have hload : exec sb p (.load i) (s.setInode i { s.inode i with lock := some p }) = _ :=
      exec_load_disk (by rw [hinode]; exact hv) (by rw [hinode]; exact w.disk ▸ ht)
    rw [hinode] at hload
    simp only [St.setInode, update_idem] at hload
    exact wp_op (f := .ret) hload (done _ rfl rfl rfl rfl (by rw [w.disk]))

theorem iput_wp (w : Walks p s₀ s held none) (hi : 0 < held i)
    (keep : (s.inode i).ref = 1 → (s₀.disk (s.inode i).inum).nlink ≠ 0) :
    (iput i).Wp (exec sb p) (fun _ => False)
    (fun _ s' => Walks p s₀ s' (held - Pi.single i 1) none ∧
      ∀ j, (s'.inode j).inum = (s.inode j).inum) s := by
  have hr : 0 < (s.inode i).ref := by
    have := w.ref i
    omega
  have hkeep : ¬((s.inode i).ref = 1 ∧ (s.inode i).valid = true ∧ (s.inode i).node.nlink = 0) := by
    rintro ⟨h1, hv, hn⟩
    rw [w.fresh i hr hv] at hn
    exact keep h1 hn
  have htest : exec sb p (.iputTest i) s =
      .ok (false, s.setInode i { s.inode i with ref := (s.inode i).ref - 1 }) := by
    simp only [exec, if_neg hkeep]
  refine wp_op htest ⟨?_, fun j => ?_⟩
  · refine w.setInode (fun j => ?_) (fun _ => rfl) (fun j => ?_) (fun _ hv => w.fresh i hr hv)
      (by simp) fun _ => .inl hr
    · by_cases hj : j = i
      · subst hj
        have := w.ref j
        rw [if_pos rfl, Pi.sub_apply, Pi.single_eq_same]
        dsimp only
        omega
      · rw [if_neg hj, w.ref, Pi.sub_apply, Pi.single_eq_of_ne hj, Nat.sub_zero]
    · rw [← w.lock j]
      split
      · rw [‹j = i›]
      · rfl
  · by_cases hj : j = i
    · subst hj
      rw [inode_setInode_self]
    · exact congrArg InCore.inum (update_of_ne hj ..)

theorem iunlock_wp (w : Walks p s₀ s held (some i)) :
    (iunlock i).Wp (exec sb p) (fun _ => False) (fun _ s' => Walks p s₀ s' held none ∧
      ∀ j, (s'.inode j).ref = (s.inode j).ref ∧ (s'.inode j).inum = (s.inode j).inum) s := by
  obtain ⟨hr, hv⟩ := w.loaded i rfl
  have hlock : (s.inode i).lock = some p := by rw [w.lock, if_pos rfl]
  have hun : exec sb p (.iunlock i) s = .ok ((), s.setInode i { s.inode i with lock := none }) := by
    simp only [exec]
    rw [if_neg (by simp [hlock]; omega)]
  refine wp_op (f := .ret) hun ⟨?_, fun j => ?_⟩
  · refine w.setInode (fun j => ?_) (fun _ => rfl) (fun j => ?_) (fun _ hv => w.fresh i hr hv)
      (by simp) fun _ => .inl hr
    · rw [← w.ref j]
      split
      · rw [‹j = i›]
      · rfl
    · by_cases hj : j = i
      · rw [if_pos hj, if_neg (by simp)]
      · rw [if_neg hj, w.lock, if_neg (fun h => hj (Option.some.inj h).symm), if_neg (by simp)]
  · by_cases hj : j = i
    · subst hj
      rw [inode_setInode_self]
      exact ⟨rfl, rfl⟩
    · have : (s.setInode i { s.inode i with lock := none }).inode j = s.inode j :=
        update_of_ne hj ..
      rw [this]
      exact ⟨rfl, rfl⟩

theorem iunlockput_wp (w : Walks p s₀ s held (some i)) (hi : 0 < held i)
    (keep : (s.inode i).ref = 1 → (s₀.disk (s.inode i).inum).nlink ≠ 0) :
    (iunlockput i).Wp (exec sb p) (fun _ => False)
    (fun _ s' => Walks p s₀ s' (held - Pi.single i 1) none ∧
      ∀ j, (s'.inode j).inum = (s.inode j).inum) s := by
  refine w.iunlock_wp.bind fun _ s₁ h₁ => ?_
  obtain ⟨w₁, hsame⟩ := h₁
  refine (w₁.iput_wp hi ?_).mono fun _ s₂ h₂ => ⟨h₂.1, fun j => (h₂.2 j).trans (hsame j).2⟩
  rw [(hsame i).1, (hsame i).2]
  exact keep

end Walks

/-- What `namex` leaves: the reference that it returns. -/
def Ends (p : P) (s₀ : St P) (target : Option (Nat × List UInt8)) (r : Option (IId × List UInt8))
    (s' : St P) : Prop :=
  match target with
  | none => r = none ∧ Walks p s₀ s' 0 none
  | some (n, name) => ∃ i, r = some (i, name) ∧ (s'.inode i).inum = n ∧
      Walks p s₀ s' (Pi.single i 1) none

variable [DecidableEq P] [Fintype P]

theorem Walks.dirlookup_wp {name : List UInt8} (tree : DirTree s₀)
    (w : Walks p s₀ s (Pi.single ip 1) (some ip))
    (hn : (s.inode ip).inum = n) (ht : (s₀.disk n).type = .dir) :
    (dirlookup ip name).Wp (exec sb p) (fun e => e = some .igetNoInodes ∧ ¬TwoFree s₀)
      (fun r s' => match binding (s₀.disk n).data (cstr name) with
        | none => r = none ∧ s' = s
        | some m => Present s₀ m ∧ ∃ i off, r = some (i, off) ∧ Got s s' i m) s := by
  have hnode : (s.inode ip).node = s₀.disk n := w.locked_node.trans (by rw [hn])
  have hdir : Loaded s ip (s₀.disk n).data :=
    ⟨by rw [hnode], (tree.whole n ht).1, (tree.whole n ht).2⟩
  refine Dir.dirlookup_wp hdir (by rw [hnode, ht]) (fun hs => ?_) fun k hs => ?_
  · rw [binding, hs]
    exact ⟨rfl, rfl⟩
  · obtain ⟨-, hk, hb⟩ := firstFrom_eq_some hs
    have h0 : (entry (s₀.disk n).data k).inum ≠ 0 := by
      simp only [Dirent.Binds, Bool.and_eq_true, decide_eq_true_eq] at hb
      exact hb.1
    rw [binding, hs]
    refine ((iget_wp _).weaken fun e he => ⟨he.1, fun h2 => w.not_full h2 (find_eq_none he.2)⟩).mono
      fun i s₂ hi => ?_
    exact ⟨tree.named n ht k hk h0, i, DESIZE * k, rfl, hi⟩

theorem single_pos (ip : IId) : 0 < (Pi.single ip 1 : IId → Nat) ip := by
  rw [Pi.single_eq_same]
  exact Nat.one_pos

theorem single_sub_self (ip : IId) : (Pi.single ip 1 - Pi.single ip 1 : IId → Nat) = 0 :=
  funext fun _ => Nat.sub_self _

theorem single_add_sub (ip i : IId) :
    (Pi.single ip 1 + Pi.single i 1 - Pi.single ip 1 : IId → Nat) = Pi.single i 1 :=
  funext fun _ => Nat.add_sub_cancel_left ..

theorem Walks.fail_wp {tol : Option Panic → Prop} (w : Walks p s₀ s (Pi.single ip 1) (some ip))
    (hp : Present s₀ (s.inode ip).inum) :
    (do iunlockput ip; return none : Code (Option (IId × List UInt8))).Wp (exec sb p) tol
      (Ends p s₀ none) s := by
  refine ((w.iunlockput_wp (single_pos ip) (w.keeps (single_pos ip) hp)).weaken fun _ h =>
    h.elim).bind fun _ s₁ h₁ => ?_
  exact ⟨rfl, single_sub_self ip ▸ h₁.1⟩

theorem namexFrom_wp {par : Bool} {names : List (List UInt8)} (tree : DirTree s₀)
    (w : Walks p s₀ s (Pi.single ip 1) none) (hn : (s.inode ip).inum = n) (hp : Present s₀ n) :
    (namexFrom par names ip).Wp (exec sb p) (fun e => e = some .igetNoInodes ∧ ¬TwoFree s₀)
      (Ends p s₀ (walk s₀.disk par names n)) s := by
  induction names generalizing s ip n with
  | nil =>
    rw [namexFrom, walk]
    cases par with
    | false => exact ⟨ip, rfl, hn, w⟩
    | true =>
      have hkeep := w.keeps (single_pos ip) (hn ▸ hp)
      refine ((w.iput_wp (single_pos ip) hkeep).weaken fun _ h => h.elim).bind fun _ s₁ h₁ => ?_
      exact ⟨rfl, single_sub_self ip ▸ h₁.1⟩
  | cons name names ih =>
    have hr : 0 < (s.inode ip).ref := by
      rw [w.ref, Pi.single_eq_same]
      exact Nat.succ_pos _
    rw [namexFrom, walk]
    refine ((w.ilock_wp hr (hn ▸ hp.1)).weaken fun _ h => h.elim).bind fun _ s₁ h₁ => ?_
    obtain ⟨w₁, hinum₁⟩ := h₁
    have hn₁ : (s₁.inode ip).inum = n := (hinum₁ ip).trans hn
    have hnode : (s₁.inode ip).node = s₀.disk n := w₁.locked_node.trans (by rw [hn₁])
    refine wp_op (o := .inode ip) (r := (s₁.inode ip).node) rfl ?_
    rw [hnode]
    by_cases ht : (s₀.disk n).type = .dir
    · have hdir : ¬(s₀.disk n).type ≠ .dir := fun h => h ht
      rw [if_neg hdir, if_neg hdir]
      by_cases hlast : (par && names.isEmpty) = true
      · rw [if_pos hlast, if_pos hlast]
        refine (w₁.iunlock_wp.weaken fun _ h => h.elim).bind fun _ s₂ h₂ => ?_
        exact ⟨ip, rfl, (h₂.2 ip).2.trans hn₁, h₂.1⟩
      · rw [if_neg hlast, if_neg hlast]
        refine (w₁.dirlookup_wp tree hn₁ ht).bind fun r s₂ hr₂ => ?_
        cases hb : binding (s₀.disk n).data (cstr name) with
        | none =>
          rw [hb] at hr₂
          obtain ⟨rfl, rfl⟩ := hr₂
          exact w₁.fail_wp (hn₁ ▸ hp)
        | some m =>
          rw [hb] at hr₂
          obtain ⟨hpm, i, off, rfl, hgot⟩ := hr₂
          obtain ⟨w₂, hinum₂⟩ := w₁.got hgot
          have hn₂ : (s₂.inode ip).inum = n := (hinum₂ ip (w₁.loaded ip rfl).1).trans hn₁
          have hheld : 0 < (Pi.single ip 1 + Pi.single i 1 : IId → Nat) ip :=
            Nat.add_pos_left (single_pos ip) _
          have hkeep := w₂.keeps hheld (hn₂ ▸ hp)
          refine ((w₂.iunlockput_wp hheld hkeep).weaken fun _ h => h.elim).bind fun _ s₃ h₃ => ?_
          exact ih (single_add_sub ip i ▸ h₃.1) ((h₃.2 i).trans hgot.inum) hpm
    · rw [if_pos ht, if_pos ht]
      exact w₁.fail_wp (hn₁ ▸ hp)

/-- A process that can resolve paths: it runs alone, and it has a current directory `c`. -/
structure CanResolve (p : P) (s : St P) (c : IId) : Prop where
  table : TableRight s
  tree : DirTree s
  cwd : s.cwd p = some c
  ref : 0 < (s.inode c).ref
  alloc : (s.disk (s.inode c).inum).type ≠ .free

/-- Where the resolution of a path starts. -/
def startOf (s : St P) (c : IId) (path : Path) : Nat :=
  if path.head? = some slash then ROOTINO else (s.inode c).inum

theorem namexStart_wp {c : IId} {path : Path} (h : CanResolve p s c) :
    (namexStart path).Wp (exec sb p) (fun e => e = some .igetNoInodes ∧ ¬TwoFree s)
      (fun i s' => Walks p s s' (Pi.single i 1) none ∧ (s'.inode i).inum = startOf s c path ∧
        Present s (startOf s c path)) s := by
  have took {s' : St P} {i : IId} {n : Nat} (hg : Got s s' i n) :
      Walks p s s' (Pi.single i 1) none := by
    have := ((Walks.start (p := p) h.table).got hg).1
    rwa [zero_add] at this
  rw [namexStart, startOf]
  by_cases hs : path.head? = some slash
  · rw [if_pos hs, if_pos hs]
    refine ((iget_wp ROOTINO).weaken fun e he => ⟨he.1, ?_⟩).mono fun i s' hg =>
      ⟨took hg, hg.inum, h.tree.root⟩
    rintro ⟨i, j, -, hi, -⟩
    exact absurd (find_eq_none he.2 i) (by omega)
  · rw [if_neg hs, if_neg hs]
    have hcwd : exec sb p .cwd s = .ok (c, s) := by simp only [exec, h.cwd]
    refine wp_op hcwd (wp_op (o := .idup c) (r := ()) rfl ?_)
    have hg : Got s (s.setInode c { s.inode c with ref := (s.inode c).ref + 1 }) c
        (s.inode c).inum :=
      .of_setInode rfl rfl (fun _ => rfl) fun h0 => absurd h0 h.ref.ne'
    exact ⟨took hg, hg.inum, h.alloc, .inr ⟨c, h.ref, rfl⟩⟩

theorem namex_wp {c : IId} {path : Path} {par : Bool} (h : CanResolve p s c) :
    (namex path par).Wp (exec sb p) (fun e => e = some .igetNoInodes ∧ ¬TwoFree s)
      (Ends p s (walk s.disk par (components path) (startOf s c path))) s := by
  rw [namex, elems_eq_components]
  refine (namexStart_wp h).bind fun i s' hi => ?_
  exact namexFrom_wp h.tree hi.1 hi.2.1 hi.2.2

/-- `nameiparent`, and `dirlookup` in the directory that it finds. -/
def lookupLast (path : Path) : Code (Option (IId × Nat)) := do
  let parent ← nameiparent path
  match parent with
  | none => return none
  | some (dp, name) =>
    ilock dp
    dirlookup dp name

/-- Paths are resolved one component after the other: `namei` returns the inode that the components
lead to, `nameiparent` the directory of the last one, in which `dirlookup` finds what `namei` does.
The only other outcome is the panic of `iget`, if less than two entries of the inode table are free.
-/
theorem path_resolution {c : IId} (path : Path) (h : CanResolve p s c) :
    (namei path).Wp (exec sb p) (fun e => e = some .igetNoInodes ∧ ¬TwoFree s)
      (Ends p s ((resolve s.disk (startOf s c path) (components path)).map fun n => (n, []))) s ∧
    (nameiparent path).Wp (exec sb p) (fun e => e = some .igetNoInodes ∧ ¬TwoFree s)
      (Ends p s (resolveParent s.disk (startOf s c path) (components path))) s ∧
    (components path ≠ [] →
      (lookupLast path).Wp (exec sb p) (fun e => e = some .igetNoInodes ∧ ¬TwoFree s)
        (fun r s' => r.map (fun r => (s'.inode r.1).inum) = resolve s.disk (startOf s c path)
          (components path)) s) := by
  have hparent : (nameiparent path).Wp (exec sb p) (fun e => e = some .igetNoInodes ∧ ¬TwoFree s)
      (Ends p s (resolveParent s.disk (startOf s c path) (components path))) s := by
    rw [← walk_true]
    exact namex_wp h
  refine ⟨?_, hparent, fun hne => ?_⟩
  · rw [← walk_false]
    exact namex_wp h
  · rw [resolve_eq hne]
    refine hparent.bind fun r s' hr => ?_
    cases ht : resolveParent s.disk (startOf s c path) (components path) with
    | none =>
      rw [ht] at hr
      obtain ⟨rfl, -⟩ := hr
      rfl
    | some t =>
      rw [ht] at hr
      obtain ⟨i, rfl, hn, w⟩ := hr
      have hdir := type_of_resolveParent ht
      have href : 0 < (s'.inode i).ref := by
        rw [w.ref, Pi.single_eq_same]
        exact Nat.succ_pos _
      have halloc : (s.disk (s'.inode i).inum).type ≠ .free := by
        rw [hn, hdir]
        exact nofun
      refine ((w.ilock_wp href halloc).weaken fun _ h => h.elim).bind fun _ s₁ h₁ => ?_
      refine (h₁.1.dirlookup_wp h.tree ((h₁.2 i).trans hn) hdir).mono fun r s₂ hr₂ => ?_
      rw [Option.bind_some, lookupIn, if_pos hdir]
      cases hb : binding (s.disk t.1).data (cstr t.2) with
      | none =>
        rw [hb] at hr₂
        rw [hr₂.1]
        rfl
      | some m =>
        rw [hb] at hr₂
        obtain ⟨-, j, off, rfl, hgot⟩ := hr₂
        rw [Option.map_some, hgot.inum]

/-- An image with a directory `d` in the root directory, and a file `f` in it. -/
def nestedDisk (n : Nat) : Node :=
  if n = ROOTINO then ⟨.dir, 0, 0, 1, [46], (Dirent.mk' dotName ROOTINO).bytes ++
    (Dirent.mk' dotdotName ROOTINO).bytes ++ (Dirent.mk' [100] 2).bytes⟩
  else if n = 2 then ⟨.dir, 0, 0, 1, [47], (Dirent.mk' dotName 2).bytes ++
    (Dirent.mk' dotdotName ROOTINO).bytes ++ (Dirent.mk' [102] 3).bytes⟩
  else if n = 3 then ⟨.file, 0, 0, 1, [48], [7]⟩
  else ⟨.free, 0, 0, 0, [], []⟩

theorem canResolve_nestedDisk : CanResolve true (bootState nestedDisk) ⟨0, by decide⟩ where
  table := by
    refine ⟨fun _ => rfl, nofun, fun i j hi hj _ => ?_⟩
    have h0 : ∀ i : IId, 0 < ((bootState nestedDisk).inode i).ref → i.val = 0 := by
      intro i hi
      by_contra hne
      simp [bootState, hne] at hi
    exact Fin.ext ((h0 i hi).trans (h0 j hj).symm)
  tree := by
    have hpresent : ∀ n, n = ROOTINO ∨ n = 2 ∨ n = 3 → Present (bootState nestedDisk) n := by
      rintro n (rfl | rfl | rfl) <;> exact ⟨by decide, .inl (by decide)⟩
    have hdir : ∀ d, ((bootState nestedDisk).disk d).type = .dir → d = ROOTINO ∨ d = 2 := by
      intro d hd
      by_contra hne
      obtain ⟨h1, h2⟩ := not_or.1 hne
      simp only [bootState, nestedDisk, if_neg h1, if_neg h2] at hd
      split at hd <;> cases hd
    refine ⟨hpresent _ (.inl rfl), fun d hd => ?_, fun d hd k hk _ => hpresent _ ?_⟩
    · rcases hdir d hd with rfl | rfl <;> decide
    · have hslots : ∀ d, d = ROOTINO ∨ d = 2 → ∀ k < slotCount (nestedDisk d).data,
          (entry (nestedDisk d).data k).inum = ROOTINO ∨ (entry (nestedDisk d).data k).inum = 2 ∨
            (entry (nestedDisk d).data k).inum = 3 := by
        rintro d (rfl | rfl) <;> decide
      exact hslots d (hdir d hd) k hk
  cwd := rfl
  ref := Nat.one_pos
  alloc := by decide

/-- The path `/d/f`. -/
theorem path_resolution_nested : CanResolve true (bootState nestedDisk) ⟨0, by decide⟩ ∧
    (namei [47, 100, 47, 102]).Wp (exec .mkfs true) (fun _ => False)
      (Ends true (bootState nestedDisk) (some (3, []))) (bootState nestedDisk) ∧
    (nameiparent [47, 100, 47, 102]).Wp (exec .mkfs true) (fun _ => False)
      (Ends true (bootState nestedDisk) (some (2, [102]))) (bootState nestedDisk) := by
  have hfree : TwoFree (bootState nestedDisk) :=
    ⟨⟨1, by decide⟩, ⟨2, by decide⟩, by decide, rfl, rfl⟩
  obtain ⟨hname, hparent, -⟩ := path_resolution [47, 100, 47, 102] canResolve_nestedDisk
  exact ⟨canResolve_nestedDisk, hname.weaken fun _ h => h.2 hfree,
    hparent.weaken fun _ h => h.2 hfree⟩

end Xv6.Dir
