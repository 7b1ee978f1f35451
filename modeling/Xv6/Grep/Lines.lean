import Xv6.Grep.Match

/-!
# Reading line by line

The function `grep` of `user/grep.c`: lines are assembled in `buf` from what `read` returns, however
much that is. It prints the lines that match (`grep_lines`).
-/

namespace Xv6.Grep

open User List

/-- `sizeof(buf)`. -/
def BUFSIZE : Nat := 1024

/-! ## The code -/

/-- The inner loop: `p` is the beginning of a line in `buf`. -/
def scan (pattern buf : List UInt8) (p : Nat) (out : List UInt8) : List UInt8 × Nat × List UInt8 :=
  match h : strchr (buf.drop p) newline with
  | none => (buf, p, out)
  | some i =>
    let q := p + i
    let cut := buf.set q 0
    if «match» pattern (cut.drop p) then
      let joined := cut.set q newline
      scan pattern joined (q + 1) (out ++ (joined.drop p).take (q + 1 - p))
    else scan pattern cut (q + 1) out
termination_by buf.length - p
decreasing_by
  all_goals
    have hlt := strchr_lt h
    rw [length_drop] at hlt
    simp only [length_set]
    omega

/-- `read` of at most `n` bytes returns as many as it wants to, at least one if there are any. -/
def read (want : Nat) (input : List UInt8) (n : Nat) : List UInt8 := input.take (min n (max want 1))

theorem length_drop_read {want n : Nat} {input : List UInt8} (h : (read want input n).length ≠ 0) :
    (input.drop (read want input n).length).length < input.length := by
  rw [length_drop]
  have hle : (read want input n).length ≤ input.length := by
    rw [read, length_take]
    exact Nat.min_le_right ..
  omega

/-- The outer loop: `buf` begins with `m` bytes of a line, `round` calls of `read` have been made.
What is printed. -/
def grepLoop (pattern : List UInt8) (want : Nat → Nat) (round : Nat)
    (input buf : List UInt8) (m : Nat) (out : List UInt8) : List UInt8 :=
  let bs := read (want round) input (BUFSIZE - m - 1)
  if h : bs.length = 0 then out
  else
    let m' := m + bs.length
    let r := scan pattern ((overwrite buf m bs).set m' 0) 0 out
    if 0 < m' then
      let rest := (r.1.drop r.2.1).take (m' - r.2.1)
      grepLoop pattern want (round + 1) (input.drop bs.length) (overwrite r.1 0 rest)
        (m' - r.2.1) r.2.2
    else grepLoop pattern want (round + 1) (input.drop bs.length) r.1 m' r.2.2
termination_by input.length
decreasing_by
  all_goals exact length_drop_read h

/-- `grep`, with whatever is left in `buf` from the file before. -/
def grep (pattern : List UInt8) (want : Nat → Nat) (buf input : List UInt8) : List UInt8 :=
  grepLoop pattern want 0 input buf 0 []

/-! ## Lines -/

section

variable {ls : List (List UInt8)} {l rest buf out pattern : List UInt8} {p : Nat}

/-- The first line is what comes before the first newline. -/
theorem line_unique {l l' r r' : List UInt8} (h : newline ∉ l) (h' : newline ∉ l')
    (he : l ++ newline :: r = l' ++ newline :: r') : l = l' ∧ r = r' := by
  induction l generalizing l' with
  | nil =>
    cases l' with
    | nil => exact ⟨rfl, cons.inj he |>.2⟩
    | cons b l' =>
      obtain ⟨rfl, -⟩ := cons.inj he
      exact absurd mem_cons_self h'
  | cons b l ih =>
    cases l' with
    | nil =>
      obtain ⟨rfl, -⟩ := cons.inj he
      exact absurd mem_cons_self h
    | cons b' l' =>
      obtain ⟨rfl, htail⟩ := cons.inj he
      obtain ⟨rfl, hr⟩ := ih (fun hm => h (.tail _ hm)) (fun hm => h' (.tail _ hm)) htail
      exact ⟨rfl, hr⟩

/-- Where a text of lines begins with lines, it goes on with lines. -/
theorem lines_split {ls₁ : List (List UInt8)} (h : ∀ l ∈ ls, newline ∉ l)
    (h₁ : ∀ l ∈ ls₁, newline ∉ l)
    (he : lines ls = lines ls₁ ++ rest) : ∃ ls₂, ls = ls₁ ++ ls₂ ∧ rest = lines ls₂ := by
  induction ls₁ generalizing ls with
  | nil => exact ⟨ls, rfl, he.symm⟩
  | cons l₁ ls₁ ih =>
    cases ls with
    | nil =>
      rw [lines_cons, append_assoc] at he
      cases (append_eq_nil_iff.1 he.symm).2
    | cons l ls =>
      rw [lines_cons, lines_cons, append_assoc, cons_append] at he
      obtain ⟨hl, hls⟩ := forall_mem_cons.1 h
      obtain ⟨hl₁, hls₁⟩ := forall_mem_cons.1 h₁
      obtain ⟨rfl, htail⟩ := line_unique hl hl₁ he
      obtain ⟨ls₂, rfl, hrest⟩ := ih hls hls₁ htail
      exact ⟨ls₂, rfl, hrest⟩

/-- Any text is some lines and the beginning of another. -/
theorem exists_lines (s : List UInt8) : ∃ ls l, s = lines ls ++ l ∧ (∀ l ∈ ls, newline ∉ l) ∧
    newline ∉ l := by
  induction s with
  | nil => exact ⟨[], [], rfl, nofun, nofun⟩
  | cons b s ih =>
    obtain ⟨ls, l, rfl, hls, hl⟩ := ih
    by_cases hb : b = newline
    · refine ⟨[] :: ls, l, ?_, forall_mem_cons.2 ⟨nofun, hls⟩, hl⟩
      rw [lines_cons, hb]
      rfl
    · have hcons {l : List UInt8} (hl : newline ∉ l) : newline ∉ b :: l :=
        mt mem_cons.1 (not_or.2 ⟨Ne.symm hb, hl⟩)
      cases ls with
      | nil => exact ⟨[], b :: l, rfl, nofun, hcons hl⟩
      | cons l₀ ls =>
        obtain ⟨hl₀, hls⟩ := forall_mem_cons.1 hls
        refine ⟨(b :: l₀) :: ls, l, ?_, forall_mem_cons.2 ⟨hcons hl₀, hls⟩, hl⟩
        rw [lines_cons, lines_cons]
        rfl

/-! ## The loops -/

theorem match_str {text : List UInt8} (h : str text = l) (hl : 0 ∉ l) :
    «match» pattern text = «match» pattern l := by
  rw [Bool.eq_iff_iff, match_iff, match_iff, h, str_of_notMem hl]

/-- The inner loop prints the lines that match and stops at the beginning of the last line. -/
theorem scan_lines (pattern out : List UInt8) (hls : ∀ l ∈ ls, Line l) (hl : newline ∉ l)
    (h : buf.drop p = lines ls ++ (l ++ 0 :: rest)) :
    ∃ buf', scan pattern buf p out =
        (buf', p + (lines ls).length, out ++ lines (ls.filter («match» pattern))) ∧
      buf'.length = buf.length ∧ buf'.drop (p + (lines ls).length) = l ++ 0 :: rest := by
  induction ls generalizing buf p out with
  | nil =>
    have hnone : strchr (buf.drop p) newline = none := by
      rw [h]
      exact strchr_none hl
    refine ⟨buf, ?_, rfl, h⟩
    rw [scan]
    split
    · rw [filter_nil, lines, flatMap_nil, append_nil, length_nil, Nat.add_zero]
    · rename_i i hi
      rw [hnone] at hi
      cases hi
  | cons l₀ ls ih =>
    obtain ⟨⟨hnl, hzero⟩, hls⟩ := forall_mem_cons.1 hls
    rw [lines_cons, append_assoc, cons_append] at h
    have hfound : strchr (buf.drop p) newline = some l₀.length := by
      rw [h]
      exact strchr_append hzero hnl (by decide)
    have hlen : p + (lines (l₀ :: ls)).length = p + l₀.length + 1 + (lines ls).length := by
      rw [lines_cons, length_append, length_cons]
      omega
    have hcut := drop_set h (c := 0)
    have hmatch : «match» pattern ((buf.set (p + l₀.length) 0).drop p) = «match» pattern l₀ := by
      rw [hcut]
      exact match_str (str_append_zero hzero) hzero
    rw [scan]
    split
    · rename_i hi
      rw [hfound] at hi
      cases hi
    rename_i i hi
    obtain rfl : l₀.length = i := Option.some.inj (hfound.symm.trans hi)
    dsimp only
    rw [hmatch, hlen]
    by_cases hm : «match» pattern l₀ = true
    · have hjoin := drop_set hcut (c := newline)
      have hline : (((buf.set (p + l₀.length) 0).set (p + l₀.length) newline).drop p).take
          (p + l₀.length + 1 - p) =
          l₀ ++ [newline] := by
        rw [hjoin, show p + l₀.length + 1 - p =
          l₀.length + 1 by omega, take_append, take_of_length_le (by omega),
          Nat.add_sub_cancel_left]
        rfl
      obtain ⟨buf', hscan, hlength, hdrop⟩ := ih (out ++ (l₀ ++ [newline])) hls (drop_line hjoin)
      rw [if_pos hm, hline]
      refine ⟨buf', ?_, by rw [hlength, length_set, length_set], hdrop⟩
      rw [hscan, filter_cons_of_pos hm, lines_cons, append_assoc, append_assoc, singleton_append]
    · obtain ⟨buf', hscan, hlength, hdrop⟩ := ih out hls (drop_line hcut)
      rw [if_neg hm]
      refine ⟨buf', ?_, by rw [hlength, length_set], hdrop⟩
      rw [hscan, filter_cons_of_neg hm]

theorem read_append (want n : Nat) (input : List UInt8) :
    read want input n ++ input.drop (read want input n).length = input := by
  rw [read, length_take]
  conv_rhs => rw [← take_append_drop (min n (max want 1)) input]
  congr 1
  rw [Nat.min_def]
  split
  · rfl
  · rw [drop_length, drop_eq_nil_of_le (by omega)]

theorem length_read_le (want n : Nat) (input : List UInt8) : (read want input n).length ≤ n := by
  rw [read, length_take]
  omega

/-- `read` returns nothing only at the end of the input. -/
theorem read_eq_nil {want n : Nat} {input : List UInt8} (hn : 0 < n)
    (h : (read want input n).length = 0) : input = [] := by
  rw [read, length_take] at h
  exact length_eq_zero_iff.1 (by omega)

/-- The buffer when a `read` has filled it up: the beginning of a line, what was read, and a NUL. -/
theorem buffer_read {bs : List UInt8} (hbuf : buf.take l.length = l)
    (hlt : l.length + bs.length < buf.length) :
    ∃ rest, (overwrite buf l.length bs).set (l.length + bs.length) 0 = l ++ bs ++ 0 :: rest ∧
      (l ++ bs ++ 0 :: rest).length = buf.length := by
  obtain ⟨b, rest, hrest⟩ := exists_cons_of_length_pos (l := buf.drop (l.length + bs.length)) (by
    rw [length_drop]
    omega)
  have hlen := congrArg length hrest
  rw [length_drop, length_cons] at hlen
  refine ⟨rest, ?_, ?_⟩
  · rw [overwrite, hbuf, hrest, set_append_right _ _ (by rw [length_append]),
      length_append, Nat.sub_self, set_cons_zero]
  · rw [length_append, length_append, length_cons]
    omega

/-- The beginning of a line is no longer than the line. -/
theorem length_begin_le {input : List UInt8} {n : Nat} (hls : ∀ l ∈ ls, l.length ≤ n)
    (hl : newline ∉ l) (h : l ++ input = lines ls) : l.length ≤ n := by
  cases ls with
  | nil =>
    rw [(append_eq_nil_iff.1 h).1]
    exact Nat.zero_le n
  | cons l₀ ls =>
    rw [lines_cons] at h
    rcases append_eq_append_iff.1 h with ⟨as, hl₀, -⟩ | ⟨bs, hbs, hrest⟩
    · have := hls l₀ mem_cons_self
      rw [hl₀, length_append] at this
      omega
    · cases bs with
      | nil =>
        rw [hbs, append_nil]
        exact hls l₀ mem_cons_self
      | cons b bs =>
        obtain ⟨rfl, -⟩ := cons.inj hrest
        refine absurd ?_ hl
        rw [hbs]
        exact mem_append_right _ mem_cons_self

/-- The outer loop prints the lines that match, from the beginning of the one in the buffer on. -/
theorem grepLoop_lines {want : Nat → Nat} {round : Nat} {input : List UInt8}
    (hls : ∀ l ∈ ls, Line l ∧ l.length ≤ BUFSIZE - 2) (hl : newline ∉ l) (h : l ++ input = lines ls)
    (hlen : buf.length = BUFSIZE) (hbuf : buf.take l.length = l) :
    grepLoop pattern want round input buf l.length out =
      out ++ lines (ls.filter («match» pattern)) := by
  -- on the rest of the input: a `read` that is not the last takes something off
  induction hn : input.length using Nat.strong_induction_on generalizing ls l input buf
    out round with
  | _ n ih =>
    subst hn
    have hl_le : l.length ≤ BUFSIZE - 2 := length_begin_le (fun l hl => (hls l hl).2) hl h
    have hroom : 0 < BUFSIZE - l.length - 1 := by
      simp only [BUFSIZE] at *
      omega
    rw [grepLoop]
    dsimp only
    generalize hbs : read (want round) input (BUFSIZE - l.length - 1) = bs
    have happ := read_append (want round) (BUFSIZE - l.length - 1) input
    have hle := length_read_le (want round) (BUFSIZE - l.length - 1) input
    rw [hbs] at happ hle
    by_cases hnil : bs.length = 0
    · obtain rfl := read_eq_nil hroom (hbs ▸ hnil)
      rw [dif_pos hnil]
      cases ls with
      | nil => rw [filter_nil, lines, flatMap_nil, append_nil]
      | cons l₀ ls =>
        refine absurd ?_ hl
        rw [append_nil, lines_cons] at h
        rw [h]
        exact mem_append_right _ mem_cons_self
    rw [dif_neg hnil]
    generalize hinput : input.drop bs.length = input' at happ ⊢
    have hlt : input'.length < input.length := by
      rw [← hinput, length_drop, ← happ, length_append]
      omega
    obtain ⟨ls₁, l', hsplit, hls₁, hl'⟩ := exists_lines (l ++ bs)
    rw [← happ, ← append_assoc, hsplit, append_assoc] at h
    obtain ⟨ls₂, rfl, hrest⟩ := lines_split (fun l hl => (hls l hl).1.1) hls₁ h.symm
    obtain ⟨rest, hset, hlength⟩ :=
      buffer_read hbuf (show l.length + bs.length < buf.length by omega)
    have htext : (l ++ bs ++ 0 :: rest).drop 0 = lines ls₁ ++ (l' ++ 0 :: rest) := by
      rw [drop_zero, hsplit, append_assoc]
    obtain ⟨buf', hscan, hlength', hdrop⟩ :=
      scan_lines pattern out (fun l hl => (hls l (mem_append_left _ hl)).1) hl' htext
    rw [Nat.zero_add] at hscan hdrop
    have hsum : l.length + bs.length = (lines ls₁).length + l'.length := by
      rw [← length_append, hsplit, length_append]
    have hkeep : (buf'.drop (lines ls₁).length).take (l.length + bs.length - (lines ls₁).length) =
        l' := by
      rw [hdrop, hsum, Nat.add_sub_cancel_left, take_left]
    rw [hset, hscan, if_pos (show 0 < l.length + bs.length by omega)]
    dsimp only
    rw [hkeep, hsum, Nat.add_sub_cancel_left,
      ih _ hlt (fun l hl => hls l (mem_append_right _ hl)) hl' hrest ?_ ?_ rfl,
      filter_append, lines_append, append_assoc]
    · rw [overwrite, take_zero, nil_append, length_append, length_drop, hlength', hlength]
      have : l'.length ≤ buf.length := by omega
      omega
    · rw [overwrite, take_zero, nil_append, take_left]

/-- `grep` prints the lines that match, each with its newline, in order, however the input is cut up
by `read`: for every input made of lines without a NUL that fit in the buffer. -/
theorem grep_lines (pattern : List UInt8) (want : Nat → Nat) (buf : List UInt8)
    (hbuf : buf.length = BUFSIZE)
    (ls : List (List UInt8)) (hls : ∀ l ∈ ls, Line l ∧ l.length ≤ BUFSIZE - 2) :
    grep pattern want buf (lines ls) = lines (ls.filter («match» pattern)) :=
  grepLoop_lines hls not_mem_nil rfl hbuf rfl

/-- A line that matches and one that does not, one byte at a time. -/
theorem grep_lines_two : grep [chr 'b'] (fun _ => 1) (replicate BUFSIZE 0)
    (lines [[chr 'a'], [chr 'b']]) =
    lines ([[chr 'a'], [chr 'b']].filter («match» [chr 'b'])) := by
  apply grep_lines
  · exact length_replicate ..
  · decide

end

end Xv6.Grep
