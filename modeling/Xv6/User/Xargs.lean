import Xv6.Basic
import Xv6.User.Strings
import Mathlib.Data.List.Forall2
import Mathlib.Data.List.GetD
import Mathlib.Data.List.TakeWhile

/-!
# `xargs`

`user/xargs.c`: a line is assembled in `buf`, cut into words and handed to a child that executes the
command. A line that does not fit in the buffer is executed in pieces of 511 bytes, and the byte
after each of them is dropped. What is left in the buffer at the end of the input is never executed.
`xargs_iff` says which lines come out right in spite of this.
-/

namespace Xv6.Xargs

open User List

/-- `sizeof(buf)`. -/
def BUFSIZE : Nat := 512

def blank (c : UInt8) : Bool := c = chr ' ' ∨ c = chr '\t'

def inWord (c : UInt8) : Bool := c ≠ 0 ∧ ¬blank c

/-! ## The code -/

/-- `while(f(*p)) p++`. -/
def skip (f : UInt8 → Bool) (buf : List UInt8) (p : Nat) : Nat :=
  p + ((buf.drop p).takeWhile f).length

theorem lt_of_byteAt {buf : List UInt8} {p : Nat} (h : byteAt buf p ≠ 0) : p < buf.length := by
  by_contra hle
  exact h (getD_eq_default _ _ (Nat.not_lt.1 hle))

/-- The loop that cuts the line into words from `p` on, with where words have been found so far;
`none` if there are too many. -/
def split (fixed : Nat) (buf : List UInt8) (p : Nat) (args : List Nat) :
    Option (List UInt8 × List Nat) :=
  if _ : byteAt buf p = 0 then some (buf, args)
  else
    let start := skip blank buf p
    if byteAt buf start = 0 then some (buf, args)
    else if MAXARG - 1 ≤ fixed + args.length then none
    else
      let q := skip inWord buf start
      if _ : byteAt buf q ≠ 0 then split fixed (buf.set q 0) (q + 1) (args ++ [start])
      else split fixed buf q (args ++ [start])
termination_by buf.length - p
decreasing_by
  · have hlt := lt_of_byteAt ‹¬byteAt buf p = 0›
    simp only [length_set, skip]
    omega
  · rename_i h _ _ hq
    have hlt := lt_of_byteAt h
    have hne : skip inWord buf (skip blank buf p) ≠ p := fun he => hq fun h0 => h (he ▸ h0)
    simp only [skip] at hne ⊢
    omega

/-- The commands that children execute, and the exit status. -/
structure Outcome where
  runs : List (List (List UInt8))
  status : Nat
  deriving DecidableEq, Repr

/-- The loop of `main`, a byte at a time. -/
def mainLoop (fixed : List (List UInt8)) : (input buf : List UInt8) → (len : Nat) →
    (runs : List (List (List UInt8))) →
    Outcome
  | [], _, _, runs => ⟨runs, 0⟩
  | ch :: input, buf, len, runs =>
    if ch ≠ newline ∧ len < BUFSIZE - 1 then mainLoop fixed input (buf.set len ch) (len + 1) runs
    else
      match split fixed.length (buf.set len 0) 0 [] with
      | none => ⟨runs, 1⟩
      | some (buf, args) =>
        if args = [] then mainLoop fixed input buf 0 runs
        else mainLoop fixed input buf 0 (runs ++ [fixed ++ args.map fun p => str (buf.drop p)])

/-- `xargs` with the arguments `fixed`, of which there is at least one, and whatever is in `buf`. -/
def xargs (fixed : List (List UInt8)) (buf input : List UInt8) : Outcome :=
  mainLoop fixed input buf 0 []

/-! ## Words -/

/-- The words of a line. -/
def words (l : List UInt8) : List (List UInt8) := (l.splitOnP blank).filter (· ≠ [])

/-- Pieces that are separated by one byte, with where each of them begins. -/
def placed (p : Nat) : List (List UInt8) → List (Nat × List UInt8)
  | [] => []
  | w :: ws => (p, w) :: placed (p + w.length + 1) ws

/-- The maximal runs of bytes other than blanks, with where they begin in a line at `p`. -/
def runs (p : Nat) (l : List UInt8) : List (Nat × List UInt8) :=
  (placed p (l.splitOnP blank)).filter (·.2 ≠ [])

/-- The words of each line that has any. -/
def wordLists (ls : List (List UInt8)) : List (List (List UInt8)) := (ls.map words).filter (· ≠ [])

/-- What is to be executed for some lines. -/
def commands (fixed : List (List UInt8)) (ls : List (List UInt8)) : List (List (List UInt8)) :=
  (wordLists ls).map (fixed ++ ·)

section

variable {fixed : List (List UInt8)} {ls : List (List UInt8)} {l w t rest buf : List UInt8}
  {c : UInt8} {p : Nat}

theorem words_eq (p : Nat) (l : List UInt8) : words l = (runs p l).map Prod.snd := by
  have hplaced (ws : List (List UInt8)) (p : Nat) : (placed p ws).map Prod.snd = ws := by
    induction ws generalizing p with
    | nil => rfl
    | cons w ws ih => rw [placed, map_cons, ih]
  rw [words, runs, ← hplaced (l.splitOnP blank) p, filter_map, hplaced]
  rfl

theorem runs_blanks (h : ∀ c ∈ w, blank c = true) : runs p (w ++ t) = runs (p + w.length) t := by
  induction w generalizing p with
  | nil => rfl
  | cons c w ih =>
    obtain ⟨hc, hw⟩ := forall_mem_cons.1 h
    have hsplit : splitOnP blank ([] ++ c :: (w ++ t)) = [] :: splitOnP blank (w ++ t) :=
      splitOnP_append_cons_of_forall_mem (forall_mem_nil _) c hc _
    rw [length_cons, Nat.add_comm w.length, ← Nat.add_assoc, ← ih hw, cons_append, runs,
      ← nil_append (c :: _), hsplit]
    rfl

theorem runs_word (hw : w ≠ []) (h : ∀ c ∈ w, blank c = false) (hc : blank c = true) :
    runs p (w ++ c :: t) = (p, w) :: runs (p + w.length + 1) t := by
  rw [runs, splitOnP_append_cons_of_forall_mem h c hc, placed,
    filter_cons_of_pos (by simpa using hw), runs]

theorem runs_last (hw : w ≠ []) (h : ∀ c ∈ w, blank c = false) : runs p w = [(p, w)] := by
  rw [runs, splitOnP_eq_singleton h, placed, filter_cons_of_pos (by simpa using hw)]
  rfl

/-! ## Cutting a line -/

/-- The strings at the pointers are the words. -/
def Points (buf : List UInt8) (args : List Nat) (ws : List (List UInt8)) : Prop :=
  List.Forall₂ (fun p w => ∃ rest, buf.drop p = w ++ 0 :: rest ∧ 0 ∉ w) args ws

theorem Points.map_str {args : List Nat} {ws : List (List UInt8)} (h : Points buf args ws) :
    args.map (fun p => str (buf.drop p)) = ws := by
  induction h with
  | nil => rfl
  | cons hp _ ih =>
    obtain ⟨rest, hdrop, hzero⟩ := hp
    rw [map_cons, ih, hdrop, str_append_zero hzero]

/-- A word is still there if the bytes up to its end are. -/
theorem drop_of_take {buf' : List UInt8} (h : buf.drop p = w ++ 0 :: rest)
    (htake : buf'.take (p + w.length + 1) = buf.take (p + w.length + 1)) :
    ∃ rest, buf'.drop p = w ++ 0 :: rest := by
  refine ⟨buf'.drop (p + w.length + 1), ?_⟩
  have hword : (buf.take (p + w.length + 1)).drop p = w ++ [0] := by
    rw [drop_take, h, show p + w.length + 1 - p = w.length + 1 by omega, take_append,
      take_of_length_le (by omega), Nat.add_sub_cancel_left]
    rfl
  conv_lhs => rw [← take_append_drop (p + w.length + 1) buf']
  rw [drop_append_of_le_length, htake, hword, append_assoc, singleton_append]
  have hlen := congrArg length hword
  rw [← htake, length_drop, length_append, length_singleton] at hlen
  omega

theorem byteAt_of_drop (h : buf.drop p = c :: rest) : byteAt buf p = c := by
  rw [← Nat.add_zero p, ← byteAt_drop, h]
  rfl

theorem takeWhile_append_zero {f : UInt8 → Bool} (hf : f 0 = false) :
    (t ++ 0 :: rest).takeWhile f = t.takeWhile f := by
  induction t with
  | nil => exact takeWhile_cons_of_neg (by simp [hf])
  | cons c t ih =>
    by_cases hc : f c = true
    · rw [cons_append, takeWhile_cons_of_pos hc, takeWhile_cons_of_pos hc, ih]
    · rw [cons_append, takeWhile_cons_of_neg hc, takeWhile_cons_of_neg hc]

/-- A loop that skips bytes ends where the first other byte of the string is. -/
theorem skip_eq {f : UInt8 → Bool} (hf : f 0 = false) (h : buf.drop p = t ++ 0 :: rest) :
    ∃ w t', t = w ++ t' ∧ (∀ c ∈ w, f c = true) ∧ (∀ c ∈ t'.head?, f c = false) ∧
    skip f buf p = p + w.length ∧
      buf.drop (p + w.length) = t' ++ 0 :: rest := by
  refine ⟨t.takeWhile f, t.dropWhile f, takeWhile_append_dropWhile.symm,
    fun c hc => mem_takeWhile_imp hc, fun c hc => ?_, ?_, ?_⟩
  · have := head?_dropWhile_not f t
    rw [Option.mem_def.1 hc] at this
    simpa using this
  · rw [skip, h, takeWhile_append_zero hf]
  · have ht : t ++ 0 :: rest = t.takeWhile f ++ (t.dropWhile f ++ 0 :: rest) := by
      rw [← append_assoc, takeWhile_append_dropWhile]
    rw [← drop_drop, h, ht, drop_left]

/-- The loop that cuts a line finds its words, and writes only behind `p`. -/
theorem split_words {n : Nat} (args : List Nat) (hzero : 0 ∉ t) (h : buf.drop p = t ++ 0 :: rest)
    (hroom : n + args.length + (runs p t).length < MAXARG) :
    ∃ buf', split n buf p args = some (buf', args ++ (runs p t).map Prod.fst) ∧
    buf'.length = buf.length ∧
      buf'.take p = buf.take p ∧ ∀ r ∈ runs p t, ∃ rest, buf'.drop r.1 = r.2 ++ 0 :: rest ∧
      0 ∉ r.2 := by
  induction hn : t.length using Nat.strongRecOn generalizing t buf p args with
  | ind k ih =>
    subst hn
    have hstop {q : Nat} (hq : byteAt buf q = 0) (args : List Nat) :
        split n buf q args = some (buf, args) := by
      rw [split, dif_pos hq]
    by_cases h0 : byteAt buf p = 0
    · obtain rfl : t = [] := by
        cases t with
        | nil => rfl
        | cons c t => exact absurd ((byteAt_of_drop h).symm.trans h0 ▸ mem_cons_self) hzero
      exact ⟨buf, by rw [hstop h0, show runs p [] = [] from rfl, map_nil,
        append_nil], rfl, rfl, forall_mem_nil _⟩
    obtain ⟨bl, t₁, rfl, hbl, hhead, hskip, hdrop⟩ := skip_eq (f := blank) rfl h
    rw [runs_blanks hbl] at hroom ⊢
    rw [split, dif_neg h0]
    dsimp only
    rw [hskip]
    by_cases h1 : byteAt buf (p + bl.length) = 0
    · obtain rfl : t₁ = [] := by
        cases t₁ with
        | nil => rfl
        | cons c t₁ =>
          refine absurd (mem_append_right _ ?_) hzero
          exact (byteAt_of_drop hdrop).symm.trans h1 ▸ mem_cons_self
      exact ⟨buf, by rw [if_pos h1, show runs _ [] = [] from rfl, map_nil,
        append_nil], rfl, rfl, forall_mem_nil _⟩
    rw [if_neg h1]
    -- a word: it goes on to a blank or to the end of the line
    obtain ⟨w, t₂, rfl, hw, hhead₂, hskip₂, hdrop₂⟩ := skip_eq (f := inWord) rfl hdrop
    have hzw : 0 ∉ w := fun hm => hzero (mem_append_right _ (mem_append_left _ hm))
    have hwne : w ≠ [] := by
      rintro rfl
      cases t₂ with
      | nil => exact h1 (byteAt_of_drop hdrop)
      | cons c t₂ =>
        have hblank : blank c = false := hhead c rfl
        have hin : inWord c = false := hhead₂ c rfl
        have hc : c ≠ 0 := (byteAt_of_drop hdrop) ▸ h1
        simp [inWord, hblank, hc] at hin
    have hnb : ∀ c ∈ w, blank c = false := fun c hc => by
      simpa [inWord] using (of_decide_eq_true (hw c hc)).2
    rw [hskip₂]
    cases t₂ with
    | nil =>
      rw [append_nil, runs_last hwne hnb] at hroom ⊢
      rw [if_neg (by rw [length_singleton] at hroom; omega),
        dif_neg (not_not.2 (byteAt_of_drop hdrop₂)), hstop (byteAt_of_drop hdrop₂)]
      exact ⟨buf, rfl, rfl, rfl, forall_mem_singleton.2 ⟨rest, by rwa [append_nil] at hdrop, hzw⟩⟩
    | cons c t₃ =>
      have hc0 : c ≠ 0 := fun he => hzero (by rw [he]; simp)
      have hc : blank c = true := by
        have hin : inWord c = false := hhead₂ c rfl
        simpa [inWord, hc0] using hin
      rw [runs_word hwne hnb hc] at hroom ⊢
      rw [length_cons] at hroom
      rw [if_neg (by omega), dif_pos (byteAt_of_drop hdrop₂ ▸ hc0)]
      rw [append_assoc, cons_append] at hdrop
      have hcut := drop_set hdrop (c := 0)
      obtain ⟨buf', hsplit, hlen, htake, hpoints⟩ :=
        ih t₃.length (by simp only [length_append, length_cons]; omega)
        (args ++ [p + bl.length]) (fun hm => hzero (by simp [hm])) (drop_line hcut)
        (by rw [length_append, length_singleton]; omega) rfl
      refine ⟨buf', by rw [hsplit, append_assoc, singleton_append, map_cons], ?_, ?_, ?_⟩
      · rw [hlen, length_set]
      · have hp : p ≤ p + bl.length + w.length + 1 := by omega
        rw [← Nat.min_eq_left hp, ← take_take, htake, take_take, Nat.min_eq_left hp,
          take_set_of_le (by omega)]
      · obtain ⟨rest', hword⟩ := drop_of_take hcut htake
        exact forall_mem_cons.2 ⟨⟨rest', hword, hzw⟩, hpoints⟩

/-- After the loop, the pointers are where the maximal runs of other bytes than blanks begin, in
order, each of them ends with a NUL in place, and there is room for the null pointer. -/
theorem split_runs (fixed : Nat) (hzero : 0 ∉ t)
    (hroom : fixed + (runs 0 t).length ≤ MAXARG - 1) :
    ∃ buf args, split fixed (t ++ 0 :: rest) 0 [] = some (buf, args) ∧
    args = (runs 0 t).map Prod.fst ∧
      (∀ r ∈ runs 0 t, ∃ rest, buf.drop r.1 = r.2 ++ 0 :: rest) ∧
      fixed + args.length ≤ MAXARG - 1 := by
  have hdrop : (t ++ 0 :: rest).drop 0 = t ++ 0 :: rest := rfl
  obtain ⟨buf, hsplit, -, -, hpoints⟩ := split_words (n := fixed) [] hzero hdrop (by
    simp only [MAXARG, length_nil] at *
    omega)
  refine ⟨buf, _, hsplit, nil_append _, fun r hr => ?_, by simpa using hroom⟩
  obtain ⟨rest, hdrop, -⟩ := hpoints r hr
  exact ⟨rest, hdrop⟩

theorem split_runs_two :
    ∃ buf args, split 1 ([chr ' ', chr 'a', chr ' ', chr 'b'] ++ [0]) 0 [] = some (buf, args) ∧
    args = [1, 3] ∧
    (∀ r ∈ [(1, [chr 'a']), (3, [chr 'b'])], ∃ rest, buf.drop r.1 = r.2 ++ 0 :: rest) ∧
      1 + args.length ≤ MAXARG - 1 :=
  split_runs 1 (by decide) (by decide)

/-! ## Lines -/

theorem mainLoop_append (input : List UInt8) (runs : List (List (List UInt8))) {len : Nat}
    (hnl : newline ∉ t) (hlen : len + t.length ≤ BUFSIZE - 1) (hbuf : BUFSIZE ≤ buf.length) :
    ∃ buf', mainLoop fixed (t ++ input) buf len runs = mainLoop fixed input buf'
      (len + t.length) runs ∧
      buf'.length = buf.length ∧ buf'.take (len + t.length) = buf.take len ++ t := by
  induction t generalizing buf len with
  | nil => exact ⟨buf, rfl, rfl, (append_nil _).symm⟩
  | cons c t ih =>
    obtain ⟨hc, hnl⟩ := not_or.1 (mt mem_cons.2 hnl)
    rw [length_cons] at hlen
    obtain ⟨buf', hloop, hlength, htake⟩ := ih hnl (show len + 1 + t.length ≤ BUFSIZE - 1 by omega)
      (show BUFSIZE ≤ (buf.set len c).length by rwa [length_set])
    have hlt : len < (buf.set len c).length := by
      rw [length_set]
      simp only [BUFSIZE] at *
      omega
    refine ⟨buf', ?_, by rw [hlength, length_set], ?_⟩
    · rw [cons_append, mainLoop, if_pos ⟨Ne.symm hc, by omega⟩, hloop, length_cons,
        Nat.add_comm t.length, Nat.add_assoc]
    · rw [length_cons, Nat.add_comm t.length, ← Nat.add_assoc, htake, take_add_one,
        getElem?_eq_getElem hlt, getElem_set_self, take_set_of_le le_rfl, append_assoc]
      rfl

theorem wordLists_append (ls ls' : List (List UInt8)) :
    wordLists (ls ++ ls') = wordLists ls ++ wordLists ls' := by
  rw [wordLists, map_append, filter_append, wordLists, wordLists]

theorem commands_append (ls ls' : List (List UInt8)) :
    commands fixed (ls ++ ls') = commands fixed ls ++ commands fixed ls' := by
  rw [commands, wordLists_append, map_append, commands, commands]

theorem wordLists_one : wordLists [l] = if words l = [] then [] else [words l] := by
  rw [wordLists, map_singleton]
  split
  · rw [filter_cons_of_neg (by simpa), filter_nil]
  · rw [filter_cons_of_pos (by simpa), filter_nil]

theorem commands_one : commands fixed [l] = if words l = [] then [] else [fixed ++ words l] := by
  rw [commands, wordLists_one, apply_ite (map (fixed ++ ·)), map_nil, map_singleton]

/-- A line is executed if it has words, at its newline or when the buffer is full; the byte after it
is dropped. -/
theorem mainLoop_line {input : List UInt8} (runs : List (List (List UInt8))) (hl : Line l)
    (hlen : l.length ≤ BUFSIZE - 1)
    (hc : c = newline ∨ l.length = BUFSIZE - 1) (hroom : fixed.length + (words l).length < MAXARG)
    (hbuf : buf.length = BUFSIZE) :
    ∃ buf', mainLoop fixed (l ++ c :: input) buf 0 runs =
      mainLoop fixed input buf' 0 (runs ++ commands fixed [l]) ∧ buf'.length = BUFSIZE := by
  obtain ⟨buf₁, hloop, hlength, htake⟩ :=
    mainLoop_append (c :: input) runs hl.1 (show 0 + l.length ≤ BUFSIZE - 1 by omega) hbuf.ge
  rw [Nat.zero_add] at hloop htake
  have hset : (buf₁.set l.length 0).drop 0 = l ++ 0 :: buf₁.drop (l.length + 1) := by
    have hlt : l.length < buf₁.length := by
      simp only [BUFSIZE] at *
      omega
    rw [drop_zero, set_eq_take_append_cons_drop, if_pos hlt, htake]
    rfl
  rw [words_eq 0, length_map] at hroom
  obtain ⟨buf₂, hsplit, hlength₂, -, hruns⟩ := split_words [] hl.2 hset hroom
  have hpoints : Points buf₂ ((Xargs.runs 0 l).map Prod.fst) (words l) := by
    rw [words_eq 0, Points, forall₂_map_left_iff, forall₂_map_right_iff, forall₂_same]
    exact hruns
  have hstop : ¬(c ≠ newline ∧ l.length < BUFSIZE - 1) := by
    intro h
    rcases hc with hc | hc
    · exact h.1 hc
    · omega
  refine ⟨buf₂, ?_, by rw [hlength₂, length_set, hlength, hbuf]⟩
  rw [hloop, mainLoop, if_neg hstop, hsplit]
  dsimp only
  rw [nil_append, hpoints.map_str, commands_one]
  have hargs : (Xargs.runs 0 l).map Prod.fst = [] ↔ words l = [] := by
    rw [← length_eq_zero_iff, hpoints.length_eq, length_eq_zero_iff]
  by_cases hw : words l = []
  · rw [if_pos (hargs.2 hw), if_pos hw, append_nil]
  · rw [if_neg (mt hargs.1 hw), if_neg hw]

/-! ## Pieces of a line -/

/-- The parts of a line that are executed: 511 bytes at a time, where the byte after them is
dropped, and what is left of the line when a newline ends it. -/
def pieces (ends : Bool) (l : List UInt8) : List (List UInt8) :=
  if l.length < BUFSIZE then if ends then [l] else []
  else l.take (BUFSIZE - 1) :: pieces ends (l.drop BUFSIZE)
termination_by l.length
decreasing_by
  rw [length_drop]
  simp only [BUFSIZE] at *
  omega

theorem pieces_short (ends : Bool) (h : l.length < BUFSIZE) :
    pieces ends l = if ends then [l] else [] := by
  rw [pieces, if_pos h]

theorem pieces_long (ends : Bool) (h : w.length = BUFSIZE - 1) :
    pieces ends (w ++ c :: t) = w :: pieces ends t := by
  have hlen : (w ++ c :: t).length = BUFSIZE + t.length := by
    simp only [length_append, length_cons, h, BUFSIZE]
    omega
  have hdrop : (w ++ c :: t).drop BUFSIZE = t := by
    rw [append_cons]
    exact drop_left' (by rw [length_append, h]; rfl)
  rw [pieces, if_neg (by omega), take_left' h, hdrop]

/-- A line is short, or it has a piece of 511 bytes and a byte in front. -/
theorem line_cases {motive : List UInt8 → Prop} (short : ∀ l, l.length < BUFSIZE → motive l)
    (long : ∀ w c t, w.length = BUFSIZE - 1 → motive t → motive (w ++ c :: t)) (l : List UInt8) :
    motive l := by
  induction hn : l.length using Nat.strongRecOn generalizing l with
  | ind n ih =>
    by_cases h : l.length < BUFSIZE
    · exact short l h
    · have hlt : BUFSIZE - 1 < l.length := by
        simp only [BUFSIZE] at *
        omega
      rw [← take_append_drop (BUFSIZE - 1) l, drop_eq_getElem_cons hlt]
      refine long _ _ _ (length_take_of_le (by omega)) (ih _ ?_ _ rfl)
      rw [length_drop]
      omega

/-- Neither part of a line has more words than the line. -/
theorem length_words_le (l t : List UInt8) :
    (words l).length ≤ (words (l ++ t)).length ∧ (words t).length ≤ (words (l ++ t)).length := by
  -- the words after the one that the line may begin with
  have hcount (l : List UInt8) : ((l.splitOnP blank).tail.filter (· ≠ [])).length ≤
        (((l ++ t).splitOnP blank).tail.filter (· ≠ [])).length ∧
      (words l).length ≤ (words (l ++ t)).length ∧ (words t).length ≤ (words (l ++ t)).length := by
    induction l with
    | nil => exact ⟨Nat.zero_le _, Nat.zero_le _, le_rfl⟩
    | cons c l ih =>
      obtain ⟨htail, hl, ht⟩ := ih
      rw [cons_append, words, words, splitOnP_cons_eq_if_modifyHead, splitOnP_cons_eq_if_modifyHead]
      by_cases hc : blank c = true
      · rw [if_pos hc, if_pos hc]
        exact ⟨hl, hl, ht⟩
      · rw [if_neg hc, if_neg hc]
        have hgrow (l : List UInt8) :
            ((modifyHead (cons c) (l.splitOnP blank)).tail.filter (· ≠ [])).length =
                ((l.splitOnP blank).tail.filter (· ≠ [])).length ∧
              ((modifyHead (cons c) (l.splitOnP blank)).filter (· ≠ [])).length =
                ((l.splitOnP blank).tail.filter (· ≠ [])).length + 1 ∧
              (words l).length ≤ ((l.splitOnP blank).tail.filter (· ≠ [])).length + 1 := by
          rw [words]
          obtain ⟨w, ws, hws⟩ := exists_cons_of_ne_nil (splitOnP_ne_nil blank l)
          rw [hws, modifyHead_cons, filter_cons_of_pos (by simp), length_cons]
          exact ⟨rfl, rfl, by rw [filter_cons]; split <;> simp⟩
        obtain ⟨h₁, h₂, -⟩ := hgrow l
        obtain ⟨h₃, h₄, h₅⟩ := hgrow (l ++ t)
        rw [h₁, h₂, h₃, h₄]
        exact ⟨htail, by omega, by omega⟩
  exact (hcount l).2

/-- A line is executed in pieces, up to what is left in the buffer. -/
theorem mainLoop_pieces (input : List UInt8) (runs : List (List (List UInt8))) (hl : Line l)
    (hroom : fixed.length + (words l).length < MAXARG) (hbuf : buf.length = BUFSIZE) :
    ∃ t buf', mainLoop fixed (l ++ input) buf 0 runs =
        mainLoop fixed (t ++ input) buf' 0 (runs ++ commands fixed (pieces false l)) ∧
      pieces true l = pieces false l ++ [t] ∧ t.length < BUFSIZE ∧ Line t ∧
      fixed.length + (words t).length < MAXARG ∧ buf'.length = BUFSIZE := by
  induction l using line_cases generalizing buf runs with
  | short l h =>
    rw [pieces_short _ h, pieces_short _ h]
    exact ⟨l, buf, by rw [if_neg Bool.false_ne_true, commands, wordLists, map_nil,
      filter_nil, map_nil, append_nil], rfl, h, hl, hroom, hbuf⟩
  | long w c t hw ih =>
    have hword := length_words_le w (c :: t)
    have htail := length_words_le [c] t
    rw [singleton_append] at htail
    have hLw : Line w := ⟨fun h => hl.1 (mem_append_left _ h), fun h => hl.2 (mem_append_left _ h)⟩
    have hLt : Line t := ⟨fun h => hl.1 (mem_append_right _ (mem_cons_of_mem _ h)),
      fun h => hl.2 (mem_append_right _ (mem_cons_of_mem _ h))⟩
    obtain ⟨buf₁, hline, hbuf₁⟩ : ∃ buf₁, mainLoop fixed (w ++ c :: (t ++ input)) buf 0 runs = _ ∧
        _ :=
      mainLoop_line runs hLw hw.le (.inr hw) (by omega) hbuf
    obtain ⟨t', buf₂, hrest, hpieces, h⟩ := ih (runs ++ commands fixed [w]) hLt (by omega) hbuf₁
    refine ⟨t', buf₂, ?_, ?_, h⟩
    · rw [append_assoc, cons_append, hline, hrest, pieces_long _ hw, append_assoc,
        ← commands_append, singleton_append]
    · rw [pieces_long _ hw, pieces_long _ hw, hpieces, cons_append]

theorem mainLoop_lines (input : List UInt8) (runs : List (List (List UInt8)))
    (hls : ∀ l ∈ ls, Line l ∧ fixed.length + (words l).length < MAXARG)
    (hbuf : buf.length = BUFSIZE) :
    ∃ buf', mainLoop fixed (lines ls ++ input) buf 0 runs =
      mainLoop fixed input buf' 0 (runs ++ commands fixed (ls.flatMap (pieces true))) ∧
        buf'.length = BUFSIZE := by
  induction ls generalizing buf runs with
  | nil =>
    exact ⟨buf, by rw [flatMap_nil, commands, wordLists, map_nil, filter_nil, map_nil,
      append_nil]; rfl, hbuf⟩
  | cons l ls ih =>
    obtain ⟨⟨hl, hroom⟩, hls⟩ := forall_mem_cons.1 hls
    obtain ⟨t, buf₁, hpart, hpieces, hlt, ht, htroom, hbuf₁⟩ :=
      mainLoop_pieces (newline :: (lines ls ++ input)) runs hl hroom hbuf
    obtain ⟨buf₂, hline, hbuf₂⟩ : ∃ buf₂,
        mainLoop fixed (t ++ newline :: (lines ls ++ input)) buf₁ 0
        (runs ++ commands fixed (pieces false l)) = _ ∧ _ :=
      mainLoop_line _ ht (Nat.le_pred_of_lt hlt) (.inl rfl) htroom hbuf₁
    obtain ⟨buf₃, hrest, hbuf₃⟩ := ih (runs ++ commands fixed (pieces true l)) hls hbuf₂
    refine ⟨buf₃, ?_, hbuf₃⟩
    rw [append_assoc, ← commands_append, ← hpieces, hrest, append_assoc, ← commands_append] at hline
    rw [lines_cons, append_assoc, cons_append, hpart, hline, flatMap_cons]

/-- What `xargs` executes: the pieces of the lines. -/
theorem xargs_pieces (hbuf : buf.length = BUFSIZE)
    (hls : ∀ l' ∈ ls ++ [l], Line l' ∧ fixed.length + (words l').length < MAXARG) :
    xargs fixed buf (lines ls ++ l) =
      ⟨commands fixed (ls.flatMap (pieces true) ++ pieces false l), 0⟩ := by
  obtain ⟨buf₁, hlines, hbuf₁⟩ :=
    mainLoop_lines l [] (fun l' hl' => hls l' (mem_append_left _ hl')) hbuf
  obtain ⟨hl, hroom⟩ := hls l (mem_append_right _ mem_cons_self)
  obtain ⟨t, buf₂, hpart, -, hlt, ht, -, hbuf₂⟩ :=
    mainLoop_pieces [] (commands fixed (ls.flatMap (pieces true))) hl hroom hbuf₁
  obtain ⟨buf₃, hlast, -⟩ : ∃ buf₃, mainLoop fixed (t ++ []) buf₂ 0
      (commands fixed (ls.flatMap (pieces true)) ++ commands fixed (pieces false l)) = _ ∧ _ :=
    mainLoop_append [] _ ht.1 (show 0 + t.length ≤ BUFSIZE - 1 by omega) hbuf₂.ge
  rw [append_nil] at hpart
  rw [xargs, hlines, nil_append, hpart, hlast, mainLoop, commands_append]

/-! ## Lines that are executed as they are -/

/-- The bytes of a line that are in words. -/
def letters (l : List UInt8) : List UInt8 := l.filter (!blank ·)

theorem flatten_words (l : List UInt8) : (words l).flatten = letters l := by
  rw [words, flatten_filter_ne_nil, letters]
  induction l with
  | nil => rfl
  | cons c l ih =>
    rw [splitOnP_cons_eq_if_modifyHead]
    by_cases hc : blank c = true
    · rw [if_pos hc, flatten_cons, nil_append, ih, filter_cons_of_neg (by simp [hc])]
    · obtain ⟨w, ws, hws⟩ := exists_cons_of_ne_nil (splitOnP_ne_nil blank l)
      rw [hws, flatten_cons] at ih
      rw [if_neg hc, hws, modifyHead_cons, flatten_cons, cons_append, ih,
        filter_cons_of_pos (by simp [hc])]

theorem words_eq_nil : words l = [] ↔ letters l = [] := by
  rw [← flatten_words, flatten_eq_nil_iff]
  constructor
  · intro h
    rw [h]
    exact forall_mem_nil _
  · intro h
    refine eq_nil_iff_forall_not_mem.2 fun w hw => ?_
    exact absurd (h w hw) (of_decide_eq_true (mem_filter.1 hw).2)

theorem letters_eq_nil : letters l = [] ↔ ∀ c ∈ l, blank c = true := by
  simp [letters]

theorem letters_append (l t : List UInt8) : letters (l ++ t) = letters l ++ letters t :=
  filter_append ..

theorem words_append_blank (hc : blank c = true) : words (w ++ c :: t) = words w ++ words t := by
  rw [words, splitOnP_append_cons _ _ hc, filter_append, words, words]

/-- How many bytes the words of some lines have. -/
def weight (wss : List (List (List UInt8))) : Nat := wss.flatten.flatten.length

theorem weight_wordLists (ls : List (List UInt8)) :
    weight (wordLists ls) = (ls.flatMap letters).length := by
  have hflat : (ls.map words).flatten.flatten = ls.flatMap letters := by
    induction ls with
    | nil => rfl
    | cons l ls ih => rw [map_cons, flatten_cons, flatten_append, ih, flatten_words, flatMap_cons]
  rw [weight, wordLists, flatten_filter_ne_nil, hflat]

theorem weight_append (a b : List (List (List UInt8))) : weight (a ++ b) = weight a + weight b := by
  rw [weight, flatten_append, flatten_append, length_append, weight, weight]

theorem weight_one : weight (wordLists [l]) = (letters l).length := by
  rw [weight_wordLists, flatMap_singleton]

theorem wordLists_eq_nil : wordLists ls = [] ↔ weight (wordLists ls) = 0 := by
  constructor
  · intro h
    rw [h]
    rfl
  · intro h
    rw [weight_wordLists, length_eq_zero_iff, flatMap_eq_nil_iff] at h
    rw [wordLists, filter_eq_nil_iff]
    intro ws hws
    obtain ⟨l, hl, rfl⟩ := mem_map.1 hws
    simpa using words_eq_nil.2 (h l hl)

/-- The pieces of a line have no bytes in words that the line does not have. -/
theorem weight_pieces (ends : Bool) (l : List UInt8) :
    weight (wordLists (pieces ends l)) ≤ weight (wordLists [l]) := by
  rw [weight_wordLists, weight_one]
  induction l using line_cases with
  | short l h =>
    rw [pieces_short _ h]
    cases ends with
    | false => exact Nat.zero_le _
    | true => rw [if_pos rfl, flatMap_singleton]
  | long w c t hw ih =>
    rw [pieces_long _ hw, flatMap_cons, append_cons, letters_append, letters_append, length_append,
      length_append, length_append]
    omega

/-- The bytes of the words of a line are in one piece. -/
def Within (l : List UInt8) (k : Nat) : Prop :=
  ∀ i c, l[i]? = some c → blank c = false → BUFSIZE * k ≤ i ∧ i < BUFSIZE * k + (BUFSIZE - 1)

theorem within_zero (hw : w.length = BUFSIZE - 1) :
    Within (w ++ c :: t) 0 ↔ blank c = true ∧ letters t = [] := by
  rw [letters_eq_nil]
  constructor
  · intro h
    have hout (i : Nat) (b : UInt8) (hb : (c :: t)[i]? = some b) : blank b = true := by
      by_contra hn
      have hi : (w ++ c :: t)[w.length + i]? = some b := by
        rw [getElem?_append_right (Nat.le_add_right ..), Nat.add_sub_cancel_left, hb]
      have := (h _ b hi (Bool.not_eq_true _ ▸ hn)).2
      omega
    refine ⟨hout 0 c rfl, fun b hb => ?_⟩
    obtain ⟨i, hi⟩ := mem_iff_getElem?.1 hb
    exact hout (i + 1) b hi
  · intro h i b hi hb
    rw [getElem?_append] at hi
    split at hi
    · omega
    · have hmem : b ∈ c :: t := mem_of_getElem? hi
      rcases mem_cons.1 hmem with rfl | hmem
      · rw [h.1] at hb
        cases hb
      · rw [h.2 b hmem] at hb
        cases hb

theorem within_succ {k : Nat} (hw : w.length = BUFSIZE - 1) :
    Within (w ++ c :: t) (k + 1) ↔ letters w = [] ∧ blank c = true ∧ Within t k := by
  have hlen : (w ++ [c]).length = BUFSIZE := by
    rw [length_append, hw]
    rfl
  have hat (i : Nat) : (w ++ [c] ++ t)[BUFSIZE + i]? = t[i]? := by
    rw [getElem?_append_right (by omega), hlen, Nat.add_sub_cancel_left]
  rw [letters_eq_nil, append_cons]
  constructor
  · intro h
    have hin (b : UInt8) (hb : b ∈ w ++ [c]) : blank b = true := by
      by_contra hn
      obtain ⟨i, hi⟩ := mem_iff_getElem?.1 hb
      have hlt := (List.getElem?_eq_some_iff.1 hi).1
      have hi' : (w ++ [c] ++ t)[i]? = some b := by rw [getElem?_append_left hlt, hi]
      have := (h i b hi' (Bool.not_eq_true _ ▸ hn)).1
      rw [Nat.mul_succ] at this
      omega
    refine ⟨fun b hb => hin b (mem_append_left _ hb), hin c (mem_append_right _ mem_cons_self),
      fun i b hi hb => ?_⟩
    have := h (BUFSIZE + i) b (by rw [hat, hi]) hb
    rw [Nat.mul_succ] at this
    omega
  · intro h i b hi hb
    obtain ⟨hwb, hc, ht⟩ := h
    rw [getElem?_append] at hi
    split at hi
    · rcases mem_append.1 (mem_of_getElem? hi) with hmem | hmem
      · rw [hwb b hmem] at hb
        cases hb
      · rw [mem_singleton.1 hmem, hc] at hb
        cases hb
    · have := ht _ b hi hb
      rw [Nat.mul_succ]
      omega

theorem wordLists_pieces_short (ends : Bool) (h : l.length < BUFSIZE) :
    wordLists (pieces ends l) = wordLists [l] ↔
    words l = [] ∨ ∃ k, Within l k ∧ (ends = true ∨ BUFSIZE * (k + 1) ≤ l.length) := by
  rw [pieces_short _ h]
  cases ends with
  | true =>
    refine iff_of_true rfl (.inr ⟨0, fun i c hi _ => ?_, .inl rfl⟩)
    have := (List.getElem?_eq_some_iff.1 hi).1
    omega
  | false =>
    rw [if_neg Bool.false_ne_true, wordLists_one]
    constructor
    · intro h
      by_contra hne
      rw [if_neg (not_or.1 hne).1] at h
      cases h
    · intro h
      rcases h with h | ⟨k, -, h | h⟩
      · rw [if_pos h]
        rfl
      · cases h
      · rw [Nat.mul_succ] at h
        omega

/-- A first piece without words leaves the words to the rest of the line. -/
theorem wordLists_skip (hnil : words w = []) (hc : blank c = true) :
    wordLists [w ++ c :: t] = wordLists [t] := by
  rw [wordLists_one, wordLists_one, words_append_blank hc, hnil, nil_append]

/-- The pieces of a rest without words add nothing to the first piece. -/
theorem wordLists_keep (ends : Bool) (hc : blank c = true) (ht : letters t = []) :
    wordLists [w] ++ wordLists (pieces ends t) = wordLists [w ++ c :: t] := by
  have hsum := weight_pieces ends t
  rw [weight_one, ht] at hsum
  rw [wordLists_eq_nil.2 (Nat.le_zero.1 hsum), append_nil, wordLists_one, wordLists_one,
    words_append_blank hc, words_eq_nil.2 ht, append_nil]

/-- Where the bytes of the words are, if the executed pieces have the words of the line. -/
theorem wordLists_pieces (ends : Bool) (l : List UInt8) :
    wordLists (pieces ends l) = wordLists [l] ↔
    words l = [] ∨ ∃ k, Within l k ∧ (ends = true ∨ BUFSIZE * (k + 1) ≤ l.length) := by
  induction l using line_cases with
  | short l h => exact wordLists_pieces_short ends h
  | long w c t hw ih =>
    have hlen : (w ++ c :: t).length = BUFSIZE + t.length := by
      rw [append_cons, length_append, length_append, hw]
      rfl
    rw [pieces_long _ hw, ← singleton_append, wordLists_append]
    constructor
    · intro h
      -- no byte of a word has been dropped
      have hsum := weight_pieces ends t
      have hweight := congrArg weight h
      rw [weight_one] at hsum
      rw [weight_append, weight_one, weight_one, append_cons, letters_append, letters_append,
        length_append, length_append] at hweight
      have hc : blank c = true :=
        letters_eq_nil.1 (show letters [c] = [] from length_eq_zero_iff.1 (by omega))
          c mem_cons_self
      have hwords : words (w ++ c :: t) = words w ++ words t := words_append_blank hc
      by_cases hnil : words w = []
      · rw [wordLists_skip hnil hc, wordLists_one, if_pos hnil, nil_append] at h
        rcases ih.1 h with ht | ⟨k, hk, hends⟩
        · rw [hwords, hnil, ht]
          exact .inl rfl
        · refine .inr ⟨k + 1, (within_succ hw).2 ⟨words_eq_nil.1 hnil, hc, hk⟩, ?_⟩
          rw [hlen, Nat.mul_succ BUFSIZE (k + 1)]
          exact hends.imp_right fun h => by omega
      · have hall : words (w ++ c :: t) ≠ [] := by
          rw [hwords]
          exact append_ne_nil_of_left_ne_nil hnil _
        rw [wordLists_one, if_neg hnil, wordLists_one, if_neg hall] at h
        have hrest := wordLists_eq_nil.1 (cons.inj h).2
        refine .inr ⟨0, (within_zero hw).2 ⟨hc, length_eq_zero_iff.1 (by omega)⟩, .inr ?_⟩
        rw [hlen]
        omega
    · intro h
      rcases h with h | ⟨k, hk, hends⟩
      · rw [words_eq_nil, append_cons, letters_append, letters_append, append_eq_nil_iff,
          append_eq_nil_iff] at h
        exact wordLists_keep ends (letters_eq_nil.1 h.1.2 c mem_cons_self) h.2
      · cases k with
        | zero =>
          obtain ⟨hc, ht⟩ := (within_zero hw).1 hk
          exact wordLists_keep ends hc ht
        | succ k =>
          obtain ⟨hnil, hc, ht⟩ := (within_succ hw).1 hk
          rw [hlen, Nat.mul_succ BUFSIZE (k + 1)] at hends
          rw [ih.2 (.inr ⟨k, ht, hends.imp_right fun h => by omega⟩),
            wordLists_skip (words_eq_nil.2 hnil) hc, wordLists_one,
            if_pos (words_eq_nil.2 hnil), nil_append]

section

variable {α β : Type} {xs : List α} {f g : α → List β} {W : List β → Nat}

theorem flatMap_le (hW : ∀ a b, W (a ++ b) = W a + W b)
    (h : ∀ x ∈ xs, W (f x) ≤ W (g x) ∧ (W (f x) = W (g x) → (g x).length ≤ (f x).length)) :
    W (xs.flatMap f) ≤ W (xs.flatMap g) ∧
      (W (xs.flatMap f) = W (xs.flatMap g) → (xs.flatMap g).length ≤ (xs.flatMap f).length) := by
  induction xs with
  | nil => exact ⟨le_rfl, fun _ => le_rfl⟩
  | cons x xs ih =>
    obtain ⟨hx, hxs⟩ := forall_mem_cons.1 h
    obtain ⟨hle, hlen⟩ := ih hxs
    rw [flatMap_cons, flatMap_cons, hW, hW, length_append, length_append]
    refine ⟨by omega, fun heq => ?_⟩
    have := hx.2 (by omega)
    have := hlen (by omega)
    omega

/-- Lists with the same concatenation are the same one by one, if none of the first weighs more than
the second, or is shorter when they weigh the same. -/
theorem flatMap_eq_iff (hW : ∀ a b, W (a ++ b) = W a + W b)
    (h : ∀ x ∈ xs, W (f x) ≤ W (g x) ∧ (W (f x) = W (g x) → (g x).length ≤ (f x).length)) :
    xs.flatMap f = xs.flatMap g ↔ ∀ x ∈ xs, f x = g x := by
  induction xs with
  | nil => exact iff_of_true rfl (forall_mem_nil _)
  | cons x xs ih =>
    obtain ⟨⟨hle, hlen⟩, hxs⟩ := forall_mem_cons.1 h
    obtain ⟨hle', hlen'⟩ := flatMap_le hW hxs
    rw [flatMap_cons, flatMap_cons, forall_mem_cons, ← ih hxs]
    constructor
    · intro heq
      have hweight := congrArg W heq
      rw [hW, hW] at hweight
      have hlength := congrArg length heq
      rw [length_append, length_append] at hlength
      have := hlen (by omega)
      have := hlen' (by omega)
      exact append_inj heq (by omega)
    · intro heq
      rw [heq.1, heq.2]

theorem wordLists_flatMap (xs : List α) (f : α → List (List UInt8)) :
    wordLists (xs.flatMap f) = xs.flatMap fun x => wordLists (f x) := by
  induction xs with
  | nil => rfl
  | cons x xs ih => rw [flatMap_cons, wordLists_append, ih, flatMap_cons]

end

/-- A line with words has pieces with words, unless bytes of them are dropped. -/
theorem length_wordLists_one (ends : Bool)
    (h : weight (wordLists (pieces ends l)) = weight (wordLists [l])) :
    (wordLists [l]).length ≤ (wordLists (pieces ends l)).length := by
  rw [weight_one] at h
  rw [wordLists_one]
  split
  · exact Nat.zero_le _
  · rename_i hw
    refine length_pos_iff.2 fun hnil => hw (words_eq_nil.2 (length_eq_zero_iff.1 ?_))
    rw [← h, hnil]
    rfl

/-- When no line has too many words: `xargs` executes the command for every line that has words
exactly if the bytes of the words of each line are in one piece of it, and those after the last
newline in a piece that is full. -/
theorem xargs_iff (fixed ls : List (List UInt8)) (l buf : List UInt8) (hbuf : buf.length = BUFSIZE)
    (hls : ∀ l' ∈ ls ++ [l], Line l' ∧ fixed.length + (words l').length < MAXARG) :
    xargs fixed buf (lines ls ++ l) = ⟨commands fixed (ls ++ [l]), 0⟩ ↔
      (∀ l' ∈ ls, ∃ k, Within l' k) ∧
        (words l = [] ∨ ∃ k, Within l k ∧ BUFSIZE * (k + 1) ≤ l.length) := by
  -- the lines, and whether a newline ends them
  have hrun : ls.flatMap (pieces true) ++ pieces false l =
      (ls.map (Prod.mk true) ++ [(false, l)]).flatMap fun x => pieces x.1 x.2 := by
    rw [flatMap_append, flatMap_map, flatMap_singleton]
  have hgoal : ls ++ [l] = (ls.map (Prod.mk true) ++ [(false, l)]).flatMap fun x => [x.2] := by
    rw [flatMap_append, flatMap_map, flatMap_singleton, flatMap_singleton']
  have hblank (l' : List UInt8) (hw : words l' = []) : Within l' 0 := by
    intro i c hi hc
    rw [letters_eq_nil.1 (words_eq_nil.1 hw) c (mem_of_getElem? hi)] at hc
    cases hc
  rw [xargs_pieces hbuf hls, Outcome.mk.injEq, and_iff_left rfl, commands, commands,
    (map_injective_iff.2 fun _ _ => append_cancel_left).eq_iff, hrun, hgoal, wordLists_flatMap,
    wordLists_flatMap, flatMap_eq_iff weight_append fun x _ =>
      ⟨weight_pieces x.1 x.2, length_wordLists_one x.1⟩, forall_mem_append, forall_mem_map,
    forall_mem_singleton]
  refine and_congr (forall₂_congr fun l' _ => ?_) ?_
  · rw [wordLists_pieces]
    constructor
    · intro h
      rcases h with hw | ⟨k, hk, -⟩
      · exact ⟨0, hblank l' hw⟩
      · exact ⟨k, hk⟩
    · intro h
      obtain ⟨k, hk⟩ := h
      exact .inr ⟨k, hk, .inl rfl⟩
  · rw [wordLists_pieces]
    simp only [Bool.false_eq_true, false_or]

/-- A line of 513 bytes whose words are in its first piece, and blanks after the last newline. -/
theorem xargs_iff_newline :
    xargs [[chr 'e']] (replicate BUFSIZE 0)
    (lines [chr 'a' :: replicate BUFSIZE (chr ' ')] ++ [chr ' ']) =
      ⟨commands [[chr 'e']] ([chr 'a' :: replicate BUFSIZE (chr ' ')] ++ [[chr ' ']]), 0⟩ := by
  refine (xargs_iff _ _ _ _ (length_replicate ..) (by decide +kernel)).2
    ⟨forall_mem_singleton.2 ⟨0, fun i c hi hc => ?_⟩, .inl rfl⟩
  cases i with
  | zero => decide
  | succ i =>
    rw [getElem?_cons_succ] at hi
    rw [eq_of_mem_replicate (mem_of_getElem? hi)] at hc
    cases hc

/-- A last line without a newline is not executed; of a line with 512 bytes, the last one is lost.
-/
theorem xargs_loses : (xargs [[chr 'e']] (replicate BUFSIZE 0) [chr 'a']).runs = [] ∧
    (xargs [[chr 'e']] (replicate BUFSIZE 0) (lines [replicate 511 (chr 'a') ++ [chr 'b']])).runs =
      [[[chr 'e'], replicate 511 (chr 'a')]] := by
  refine ⟨rfl, ?_⟩
  have hls : ∀ l ∈ [replicate 511 (chr 'a') ++ [chr 'b']] ++ [[]],
      Line l ∧ [[chr 'e']].length + (words l).length < MAXARG := by decide +kernel
  have hfull : (replicate 511 (chr 'a')).length = BUFSIZE - 1 := length_replicate ..
  rw [← append_nil (lines _), xargs_pieces (length_replicate ..) hls, flatMap_singleton,
    pieces_long _ hfull, pieces_short _ (by decide), pieces_short _ (by decide)]
  decide +kernel

end

end Xv6.Xargs
