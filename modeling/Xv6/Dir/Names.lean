import Xv6.Dir.Code
import Xv6.Dir.Entries

/-!
# Names and paths

What the loops of `string.c` and of `skipelem` compute: `strncmp` and `strncpy` see a name up to its
first NUL and up to `DIRSIZ`, and successive calls of `skipelem` give the components of a path.
-/

namespace Xv6.Dir

open Lib List

/-! ## `kernel/string.c` -/

/-- A string that ends is followed by a NUL. -/
def strncmp : (n : Nat) → (p q : List UInt8) → Int
  | 0, _, _ => 0
  | n + 1, p, q =>
    if p.headD 0 ≠ 0 ∧ p.headD 0 = q.headD 0 then strncmp n p.tail q.tail
    else (p.headD 0).toNat - (q.headD 0).toNat

/-- The `n` bytes that `strncpy` leaves. -/
def strncpy : (n : Nat) → (t : List UInt8) → List UInt8
  | 0, _ => []
  | n + 1, t => if t.headD 0 = 0 then replicate (n + 1) 0 else t.headD 0 :: strncpy n t.tail

theorem takeWhile_take_succ (n : Nat) (p : List UInt8) :
    (p.take (n + 1)).takeWhile (· ≠ 0) =
      if p.headD 0 = 0 then [] else p.headD 0 :: (p.tail.take n).takeWhile (· ≠ 0) := by
  cases p with
  | nil => rfl
  | cons a p => by_cases ha : a = 0 <;> simp [ha]

theorem strncmp_eq_zero {n : Nat} {p q : List UInt8} :
    strncmp n p q = 0 ↔ (p.take n).takeWhile (· ≠ 0) = (q.take n).takeWhile (· ≠ 0) := by
  induction n generalizing p q with
  | zero => simp [strncmp]
  | succ n ih =>
    have hsub : ((p.headD 0).toNat : Int) - (q.headD 0).toNat = 0 ↔ p.headD 0 = q.headD 0 := by
      rw [← UInt8.toNat_inj]
      omega
    rw [strncmp, takeWhile_take_succ, takeWhile_take_succ]
    by_cases hp : p.headD 0 = 0
    · rw [if_neg fun h => h.1 hp, hsub, hp, if_pos rfl]
      by_cases hq : q.headD 0 = 0
      · simp only [hq, if_true]
      · simp only [hq, if_false, reduceCtorEq, iff_false]
        exact fun h => hq h.symm
    · by_cases hpq : p.headD 0 = q.headD 0
      · rw [if_pos ⟨hp, hpq⟩, ih, if_neg hp, if_neg (hpq ▸ hp), hpq, cons_inj_right]
      · rw [if_neg fun h => hpq h.2, hsub, if_neg hp]
        split
        · simp only [hpq, reduceCtorEq]
        · simp only [hpq, cons.injEq, false_and]

theorem namecmp_iff {s t : List UInt8} : namecmp s t = true ↔ strncmp DIRSIZ s t = 0 := by
  rw [strncmp_eq_zero, namecmp, decide_eq_true_iff]
  rfl

theorem strncpy_eq (n : Nat) (t : List UInt8) :
    strncpy n t = ((t.take n).takeWhile (· ≠ 0) ++ replicate n 0).take n := by
  induction n generalizing t with
  | zero => rfl
  | succ n ih =>
    cases t with
    | nil => simp [strncpy]
    | cons a t =>
      rw [strncpy]
      by_cases ha : a = 0
      · simp [ha]
      · have hrep : replicate (n + 1) (0 : UInt8) = replicate n 0 ++ [0] :=
          replicate_succ'
        simp [ha, ih, hrep, ← append_assoc, take_append_of_le_length]

theorem mk'_eq (name : List UInt8) (inum : Nat) :
    Dirent.mk' name inum = ⟨inum % 2 ^ 16, strncpy DIRSIZ name⟩ := by
  rw [strncpy_eq]
  rfl

/-- `dirlookup` reads back what `dirlink` has stored, with 16 bits of the inode number, and finds it
under the names that begin like its own, up to a NUL and in `DIRSIZ` bytes. -/
theorem dirent_roundtrip (name t : List UInt8) (inum : Nat) :
    Dirent.ofBytes (Dirent.mk' name inum).bytes = ⟨inum % 2 ^ 16, strncpy DIRSIZ name⟩ ∧
    (strncmp DIRSIZ t (strncpy DIRSIZ name) = 0 ↔ cstr t = cstr name) := by
  have hname : cstr (Dirent.mk' name inum).name = cstr name := Dirent.cstr_name_mk'
  rw [mk'_eq] at hname
  rw [Dirent.ofBytes_mk', mk'_eq, ← namecmp_iff, namecmp, decide_eq_true_iff, hname]
  exact ⟨rfl, Iff.rfl⟩

/-! ## Paths -/

/-- The components of a path, cut to the length of a name. -/
def components (path : Path) : List (List UInt8) :=
  ((path.splitOn slash).filter (· ≠ [])).map (·.take DIRSIZ)

theorem components_slash (path : Path) : components (slash :: path) = components path := by
  simp [components, splitOn, splitOnP_cons_eq_if_modifyHead]

theorem components_dropWhile (path : Path) :
    components (path.dropWhile (· == slash)) = components path := by
  induction path with
  | nil => rfl
  | cons c path ih =>
    by_cases hc : c = slash
    · subst hc
      rw [components_slash, dropWhile_cons_of_pos (by simp), ih]
    · rw [dropWhile_cons_of_neg (by simpa using hc)]

theorem components_append {w : List UInt8} (hw : w ≠ []) (hs : slash ∉ w) (path : Path)
    (hp : ∀ c ∈ path.head?, c = slash) :
    components (w ++ path) = w.take DIRSIZ :: components path := by
  have hw' : ∀ c ∈ w, (c == slash) = false := by
    intro c hc
    rw [beq_eq_false_iff_ne]
    rintro rfl
    exact hs hc
  cases path with
  | nil => simp [components, splitOn, splitOnP_eq_singleton hw', hw]
  | cons c path =>
    obtain rfl := hp c rfl
    rw [components_slash, components, splitOn,
      splitOnP_append_cons_of_forall_mem hw' _ (beq_self_eq_true _)]
    simp [components, splitOn, hw]

theorem elems_eq_components (path : Path) : elems path = components path := by
  induction h : path.length using Nat.strong_induction_on generalizing path with
  | _ n ih =>
    rw [elems_eq, ← components_dropWhile]
    cases hs : skipelem path with
    | none =>
      rw [skipelem] at hs
      split at hs
      · rename_i hd
        rw [hd]
        rfl
      · cases hs
    | some r =>
      have hlt := (skipelem_eq_some hs).1
      rw [skipelem] at hs
      split at hs
      · cases hs
      rename_i s ss hd
      have hs0 : (s == slash) = false := by
        have := head?_dropWhile_not (· == slash) path
        simpa [hd] using this
      cases hs
      dsimp only
      rw [hd, ih _ (h ▸ hlt) _ rfl, components_dropWhile]
      conv_rhs => rw [← takeWhile_append_dropWhile (p := (· != slash)) (l := s :: ss)]
      refine (components_append ?_ ?_ _ ?_).symm
      · rw [takeWhile_cons_of_pos (by simp [bne, hs0])]
        exact cons_ne_nil _ _
      · intro h
        simpa using mem_takeWhile_imp h
      · intro c hc
        have := head?_dropWhile_not (· != slash) (s :: ss)
        rw [Option.mem_def.1 hc] at this
        simpa using this

/-- The loop of `namex`, which asks `skipelem` for one component after the other. -/
def namexWhile (nameiparent : Bool) : (fuel : Nat) → Path → IId → Code (Option (IId × List UInt8))
  | 0, _, _ => return none
  | fuel + 1, path, ip =>
    match skipelem path with
    | none =>
      if nameiparent then do
        iput ip
        return none
      else return some (ip, [])
    | some (path, name) => do
      ilock ip
      let x : Node ← op (.inode ip)
      if x.type ≠ .dir then
        iunlockput ip
        return none
      else if nameiparent && path.isEmpty then
        iunlock ip
        return some (ip, name)
      else
        let found ← dirlookup ip name
        match found with
        | none =>
          iunlockput ip
          return none
        | some (next, _) =>
          iunlockput ip
          namexWhile nameiparent fuel path next

theorem namexWhile_eq {par : Bool} {fuel : Nat} {path : Path} (h : path.length < fuel) (ip : IId) :
    namexWhile par fuel path ip = namexFrom par (components path) ip := by
  induction fuel generalizing path ip with
  | zero => exact absurd h (Nat.not_lt_zero _)
  | succ fuel ih =>
    rw [namexWhile, ← elems_eq_components, elems_eq]
    cases hs : skipelem path with
    | none => rfl
    | some r =>
      obtain ⟨rest, name⟩ := r
      have hlt := (skipelem_eq_some hs).1
      have hrest : (elems rest).isEmpty = rest.isEmpty := by
        rw [Bool.eq_iff_iff, List.isEmpty_iff, List.isEmpty_iff, elems_eq_nil hs]
      have hloop : namexWhile par fuel rest = namexFrom par (elems rest) := by
        funext next
        rw [ih (by omega), elems_eq_components]
      dsimp only
      rewrite [namexFrom, hrest, hloop]
      rfl

theorem namex_eq (path : Path) (par : Bool) :
    namex path par = (namexStart path).bind (namexWhile par (path.length + 1) path) := by
  have : namexWhile par (path.length + 1) path = namexFrom par (elems path) := by
    funext ip
    rw [namexWhile_eq (Nat.lt_succ_self _), elems_eq_components]
  rw [this]
  rfl

end Xv6.Dir
