import Xv6.Sh.Grammar

/-!
# The scanner

`gettoken` and `peek` see the tokens of the rest of the line: with `ts` to come, `peek` looks at the
first byte of the first of them (`peek_at`), and `gettoken` takes it off (`gettoken_at`).
-/

namespace Xv6.Sh

open List

/-! ## The rest of the line -/

section

variable {b : Text} {s n : Nat} {ts : List Tok}

/-- The line from a pointer on. -/
def Text.rest (b : Text) (s : Nat) : List UInt8 := (range' s (b.es - s)).map b.byte

theorem rest_of_le (h : b.es ≤ s) : b.rest s = [] := by
  rw [Text.rest, Nat.sub_eq_zero_of_le h, range'_zero, map_nil]

theorem rest_of_lt (h : s < b.es) : b.rest s = b.byte s :: b.rest (s + 1) := by
  obtain ⟨k, hk⟩ := Nat.exists_eq_add_of_lt h
  have hlen : b.es - s = k + 1 := by omega
  have hlen' : b.es - (s + 1) = k := by omega
  rw [Text.rest, Text.rest, hlen, hlen', range'_succ, map_cons]

theorem length_rest : (b.rest s).length = b.es - s := by
  rw [Text.rest, length_map, length_range']

theorem skip_spec (hs : s ≤ b.es) : skip b (b.es - s) s ≤ b.es ∧
    b.rest (skip b (b.es - s) s) = (b.rest s).dropWhile (· ∈ whitespace) ∧
    (skip b (b.es - s) s < b.es → b.byte (skip b (b.es - s) s) ∉ whitespace) := by
  generalize hn : b.es - s = n
  induction n generalizing s with
  | zero =>
    rw [skip, rest_of_le (by omega)]
    exact ⟨hs, rfl, fun hlt => absurd hlt (by omega)⟩
  | succ n ih =>
    have hcons : b.rest s = b.byte s :: b.rest (s + 1) := rest_of_lt (by omega)
    rw [skip, hcons]
    by_cases hb : b.byte s ∈ whitespace
    · rw [if_pos hb, dropWhile_cons_of_pos (by simpa using hb)]
      exact ih (show s + 1 ≤ b.es by omega) (by omega)
    · rw [if_neg hb, dropWhile_cons_of_neg (by simpa using hb)]
      exact ⟨hs, hcons, fun _ => hb⟩

theorem skipWord_spec (hs : s ≤ b.es) :
    s ≤ skipWord b (b.es - s) s ∧ skipWord b (b.es - s) s ≤ b.es ∧
    b.rest s = (range' s (skipWord b (b.es - s) s - s)).map b.byte ++ b.rest
      (skipWord b (b.es - s) s) ∧
    (∀ i, s ≤ i → i < skipWord b (b.es - s) s → inWord (b.byte i) = true) ∧
    ∀ c ∈ (b.rest (skipWord b (b.es - s) s)).head?, inWord c = false := by
  generalize hn : b.es - s = n
  induction n generalizing s with
  | zero =>
    rw [skipWord, Nat.sub_self, rest_of_le (by omega)]
    exact ⟨le_rfl, hs, rfl, fun i hi hlt => absurd hi (by omega), nofun⟩
  | succ n ih =>
    rw [skipWord]
    by_cases hb : b.byte s ∉ whitespace ∧ b.byte s ∉ symbols
    · rw [if_pos hb]
      obtain ⟨hle, hes, hrest, hword, hstop⟩ := ih (show s + 1 ≤ b.es by omega) (by omega)
      refine ⟨by omega, hes, ?_, fun i hi hlt => ?_, hstop⟩
      · have hlen : skipWord b n (s + 1) - s = skipWord b n (s + 1) - (s + 1) + 1 := by omega
        rw [rest_of_lt (by omega), hrest, hlen, range'_succ, map_cons, cons_append]
      · obtain rfl | hlt' := Nat.eq_or_lt_of_le hi
        · exact decide_eq_true hb
        · exact hword i hlt' hlt
    · rw [if_neg hb, Nat.sub_self, rest_of_lt (by omega)]
      refine ⟨le_rfl, hs, rfl, fun i hi hlt => absurd hi (by omega), fun c hc => ?_⟩
      obtain rfl := Option.some.inj hc
      exact decide_eq_false hb

end

/-! ## Tokens -/

theorem tokens_dropWhile (s : List UInt8) : tokens (s.dropWhile (· ∈ whitespace)) = tokens s := by
  induction s with
  | nil => rfl
  | cons c s ih =>
    by_cases hc : c ∈ whitespace
    · rw [dropWhile_cons_of_pos (by simpa using hc), ih, tokens.eq_2, if_pos hc]
    · rw [dropWhile_cons_of_neg (by simpa using hc)]

theorem length_tokens_le (s : List UInt8) : (tokens s).length ≤ s.length := by
  fun_induction tokens s with
  | case1 => exact le_rfl
  | case2 c s hc ih => exact ih.trans (Nat.le_succ _)
  | case3 s hc hgt ih =>
    rw [length_cons, length_cons]
    rw [length_tail] at ih
    omega
  | case4 s hc hgt ih => exact Nat.succ_le_succ ih
  | case5 c s hc hgt t ht ih => exact Nat.succ_le_succ ih
  | case6 c s hc hgt ht ih =>
    have := (dropWhile_suffix (l := s) inWord).length_le
    exact Nat.succ_le_succ (ih.trans this)

/-- The first byte of a symbol. -/
def Tok.byte? : Tok → Option UInt8
  | word _ => none
  | arrow .input => some (ch '<')
  | arrow _ => some (ch '>')
  | bar => some (ch '|')
  | amp => some (ch '&')
  | semi => some (ch ';')
  | lpar => some (ch '(')
  | rpar => some (ch ')')

/-- What `gettoken` returns. -/
def Tok.code : Tok → UInt8
  | word _ => ch 'a'
  | arrow .append => ch '+'
  | t => t.byte?.getD 0

/-- The first token is a symbol whose first byte is one of `toks`. -/
def starts (toks : List UInt8) : List Tok → Bool
  | t :: _ => t.byte?.any (· ∈ toks)
  | [] => false

theorem symbol_some {c : UInt8} {t : Tok} (h : symbol c = some t) :
    t.byte? = some c ∧ t.code = c ∧ c ∈ [ch '|', ch '(', ch ')', ch ';', ch '&', ch '<'] := by
  rw [symbol] at h
  split_ifs at h
  all_goals
    cases h
    subst c
    decide

theorem symbol_none {c : UInt8} (h : symbol c = none) (hgt : c ≠ ch '>') : c ∉ symbols := by
  rw [symbol] at h
  split_ifs at h
  simp [symbols, *]

/-! ## The cursor -/

section

variable {b : Text} {s : Nat} {t : Tok} {ts : List Tok}

/-- The line ends at its first NUL. -/
structure Text.Wf (b : Text) : Prop where
  nul : b.byte b.es = 0
  ne : ∀ i < b.es, b.byte i ≠ 0

/-- The tokens that are still to come. -/
structure Text.At (b : Text) (s : Nat) (ts : List Tok) : Prop where
  le : s ≤ b.es
  eq : tokens (b.rest s) = ts

theorem Text.At.skip (h : b.At s ts) : b.At (skip b (b.es - s) s) ts := by
  obtain ⟨hle, hrest, -⟩ := skip_spec h.le
  refine ⟨hle, ?_⟩
  rw [hrest, tokens_dropWhile, h.eq]

/-- What a span of the line holds: a whole word. -/
structure Text.Word (b : Text) (p : Span) (w : List UInt8) : Prop where
  le : p.q ≤ p.eq
  le_es : p.eq ≤ b.es
  eq : w = (range' p.q (p.eq - p.q)).map b.byte
  inWord : ∀ i, p.q ≤ i → i < p.eq → inWord (b.byte i) = true
  stop : ∀ c ∈ (b.rest p.eq).head?, Sh.inWord c = false

theorem takeWhile_append {p : UInt8 → Bool} {l r : List UInt8} (hl : ∀ c ∈ l, p c = true)
    (hr : ∀ c ∈ r.head?, p c = false) : (l ++ r).takeWhile p = l ∧ (l ++ r).dropWhile p = r := by
  rw [takeWhile_append_of_pos hl, dropWhile_append_of_pos hl]
  cases r with
  | nil => exact ⟨append_nil l, rfl⟩
  | cons c r =>
    have hc : ¬p c = true := by simp [hr c rfl]
    rw [takeWhile_cons_of_neg hc, dropWhile_cons_of_neg hc]
    exact ⟨append_nil l, rfl⟩

theorem tokens_word {c : UInt8} {s l r : List UInt8} (hc : inWord c = true) (hs : c :: s = l ++ r)
    (hl : ∀ c ∈ l, inWord c = true) (hr : ∀ c ∈ r.head?, inWord c = false) :
    tokens (c :: s) = .word l :: tokens r := by
  obtain ⟨htake, hdrop⟩ := takeWhile_append hl hr
  rw [← hs, takeWhile_cons_of_pos hc] at htake
  rw [← hs, dropWhile_cons_of_pos hc] at hdrop
  have hw : c ∉ whitespace ∧ c ∉ symbols := of_decide_eq_true hc
  have hgt : c ≠ ch '>' := fun h => hw.2 (by simp [h, symbols])
  have hsym : symbol c = none := by
    simp only [symbols, mem_cons, not_mem_nil, or_false, not_or] at hw
    simp [symbol, hw]
  rw [tokens.eq_2, if_neg hw.1, if_neg hgt, hsym]
  dsimp only
  rw [htake, hdrop]

theorem rest_head (hb : b.Wf) (hs : s < b.es) :
    (b.rest (s + 1)).head? = some (ch '>') ↔ b.byte (s + 1) = ch '>' := by
  by_cases hlt : s + 1 < b.es
  · rw [rest_of_lt hlt, head?_cons, Option.some_inj]
  · have hes : s + 1 = b.es := by omega
    rw [rest_of_le hes.ge, hes, hb.nul]
    decide

/-- The token at a pointer that is not at the end nor before a blank. -/
theorem lexeme_spec (hb : b.Wf) (hs : s < b.es) (hblank : b.byte s ∉ whitespace) : ∃ t,
    tokens (b.rest s) = t :: tokens (b.rest (lexeme b s).2) ∧ (lexeme b s).1 = t.code ∧
    (lexeme b s).2 ≤ b.es ∧
    (∀ toks ⊆ symbols, t.byte?.any (· ∈ toks) = decide (b.byte s ∈ toks)) ∧
    ∀ w, t = .word w → b.Word ⟨s, (lexeme b s).2⟩ w := by
  have hcons := rest_of_lt hs
  rw [lexeme, hcons, if_neg (hb.ne s hs)]
  by_cases hgt : b.byte s = ch '>'
  · have hone : b.byte s ∉ [ch '|', ch '(', ch ')', ch ';', ch '&', ch '<'] := by
      rw [hgt]
      decide
    rw [if_neg hone, if_pos hgt, tokens.eq_2, if_neg hblank, if_pos hgt]
    by_cases hgt' : b.byte (s + 1) = ch '>'
    · have hlt : s + 1 < b.es := by
        by_contra hle
        have hnul := hb.nul
        rw [show b.es = s + 1 by omega, hgt'] at hnul
        exact absurd hnul (by decide)
      rw [if_pos ((rest_head hb hs).2 hgt'), if_pos hgt', rest_of_lt hlt, tail_cons]
      exact ⟨_, rfl, rfl, hlt, fun toks _ => by rw [hgt]; rfl, by simp⟩
    · rw [if_neg (mt (rest_head hb hs).1 hgt'), if_neg hgt']
      exact ⟨_, rfl, hgt, hs, fun toks _ => by rw [hgt]; rfl, by simp⟩
  · cases hsym : symbol (b.byte s) with
    | some t =>
      obtain ⟨hbyte, hcode, hone⟩ := symbol_some hsym
      rw [if_pos hone, tokens.eq_2, if_neg hblank, if_neg hgt, hsym]
      refine ⟨t, rfl, hcode.symm, hs, fun toks _ => by rw [hbyte]; rfl, ?_⟩
      rintro w rfl
      cases hbyte
    | none =>
      have hsymbols := symbol_none hsym hgt
      have hone : b.byte s ∉ [ch '|', ch '(', ch ')', ch ';', ch '&', ch '<'] := by
        simp only [symbols, mem_cons, not_mem_nil, or_false, not_or] at hsymbols
        simp [hsymbols]
      rw [if_neg hone, if_neg hgt]
      obtain ⟨hle, hes, hrest, hword, hstop⟩ := skipWord_spec hs.le
      refine ⟨_, tokens_word (decide_eq_true ⟨hblank, hsymbols⟩) (hcons.symm.trans hrest) ?_ hstop,
        rfl, hes, fun toks hsub => (decide_eq_false fun h => hsymbols (hsub h)).symm, ?_⟩
      · intro c hc
        obtain ⟨i, hi, rfl⟩ := mem_map.1 hc
        rw [mem_range'_1] at hi
        exact hword i hi.1 (by omega)
      · rintro w ⟨⟩
        exact ⟨hle, hes, rfl, hword, hstop⟩

/-- Past the blanks: the end of the line, or a token. -/
theorem skip_cases (hb : b.Wf) (h : b.At s ts) :
    skip b (b.es - s) s = b.es ∧ ts = [] ∨ skip b (b.es - s) s < b.es ∧ ∃ t ts', ts = t :: ts' ∧
      b.At (lexeme b (skip b (b.es - s) s)).2 ts' ∧ (lexeme b (skip b (b.es - s) s)).1 = t.code ∧
      (∀ toks ⊆ symbols, t.byte?.any (· ∈ toks) = decide (b.byte (skip b (b.es - s) s) ∈ toks)) ∧
      ∀ w, t = .word w → b.Word ⟨skip b (b.es - s) s, (lexeme b (skip b (b.es - s) s)).2⟩ w := by
  have hskip := h.skip
  obtain ⟨hle, -, hblank⟩ := skip_spec h.le
  generalize Sh.skip b (b.es - s) s = q at *
  obtain rfl | hlt := Nat.eq_or_lt_of_le hle
  · refine .inl ⟨rfl, ?_⟩
    rw [← hskip.eq, rest_of_le le_rfl, tokens.eq_1]
  · obtain ⟨t, htokens, hcode, hes, hbyte, hword⟩ := lexeme_spec hb hlt (hblank hlt)
    exact .inr ⟨hlt, t, _, hskip.eq.symm.trans htokens, ⟨hes, rfl⟩, hcode, hbyte, hword⟩

theorem peek_at (hb : b.Wf) (h : b.At s ts) (toks : List UInt8)
    (hsub : toks ⊆ symbols := by decide) :
    ∃ s', peek b s toks = (starts toks ts, s') ∧ b.At s' ts ∧ (s' = b.es ↔ ts = []) := by
  refine ⟨_, ?_, h.skip, ?_⟩
  · refine Prod.ext ?_ rfl
    obtain ⟨he, rfl⟩ | ⟨hlt, t, ts', rfl, -, -, hbyte, -⟩ := skip_cases hb h
    · simp [peek, he, hb.nul, starts]
    · simp [peek, starts, hbyte toks hsub, hb.ne _ hlt]
  · obtain ⟨he, rfl⟩ | ⟨hlt, t, ts', rfl, -⟩ := skip_cases hb h
    · simp [he]
    · simp [hlt.ne]

theorem gettoken_at (hb : b.Wf) (h : b.At s (t :: ts)) : (gettoken b s).ret = t.code ∧
    b.At (gettoken b s).next ts ∧ ∀ w, t = .word w → b.Word (gettoken b s).word w := by
  obtain ⟨-, hnil⟩ | ⟨-, t', ts', heq, hat, hcode, -, hword⟩ := skip_cases hb h
  · cases hnil
  · cases heq
    exact ⟨hcode, hat.skip, hword⟩

theorem gettoken_at_nil (hb : b.Wf) (h : b.At s []) :
    (gettoken b s).ret = 0 ∧ b.At (gettoken b s).next [] := by
  obtain ⟨he, -⟩ | ⟨-, t', ts', heq, -⟩ := skip_cases hb h
  · have hlex : lexeme b b.es = (0, b.es) := by
      rw [lexeme, hb.nul]
      rfl
    have hat : b.At b.es [] := ⟨le_rfl, by rw [rest_of_le le_rfl, tokens.eq_1]⟩
    simp only [gettoken, he, hlex]
    exact ⟨trivial, hat.skip⟩
  · cases heq

end

end Xv6.Sh
