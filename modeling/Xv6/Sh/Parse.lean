import Xv6.Sh.Scan

/-!
# The parser is the grammar

Every function of the parser that returns has read a string of its nonterminal, and whatever the
grammar derives is read, since each choice of the parser is forced by the token that follows. The
depth of the calls is bounded by the number of tokens.
-/

namespace Xv6.Sh

open Function List

/-! ## Trees and results -/

/-- Two commands of the same shape with related words. -/
inductive Cmd.Rel {α β : Type} (R : α → β → Prop) : Cmd α → Cmd β → Prop
  | exec {as bs} : List.Forall₂ R as bs → Rel R (.exec as) (.exec bs)
  | redir {c d f g mode fd} : Rel R c d → R f g → Rel R (.redir c f mode fd) (.redir d g mode fd)
  | pipe {c d c' d'} : Rel R c d → Rel R c' d' → Rel R (.pipe c c') (.pipe d d')
  | list {c d c' d'} : Rel R c d → Rel R c' d' → Rel R (.list c c') (.list d d')
  | back {c d} : Rel R c d → Rel R (.back c) (.back d)

variable {α β : Type}

theorem Cmd.Rel.push {R : α → β → Prop} {c : Cmd α} {d : Cmd β} {v : α} {w : β} (h : c.Rel R d)
    (hw : R v w) : (c.push v).Rel R (d.push w) := by
  induction h with
  | exec h => exact .exec (rel_append h (.cons hw .nil))
  | redir _ hf ih => exact .redir ih hf
  | pipe h h' => exact .pipe h h'
  | list h h' => exact .list h h'
  | back h => exact .back h

variable {rs : List Redir}

theorem Cmd.push_wrap {c : Cmd (List UInt8)} {w : List UInt8} :
    (c.wrap rs).push w = (c.push w).wrap rs := by
  induction rs generalizing c with
  | nil => rfl
  | cons r rs ih => exact ih

theorem Cmd.wrap_append {c : Cmd (List UInt8)} {rs' : List Redir} :
    c.wrap (rs ++ rs') = (c.wrap rs).wrap rs' := foldl_append

theorem Cmd.fits_wrap {c : Cmd (List UInt8)} : (c.wrap rs).Fits ↔ c.Fits := by
  induction rs generalizing c with
  | nil => rfl
  | cons r rs ih => exact ih

/-- The result satisfies `Q`, or the parser stopped in a way that `tol` allows. -/
def Ends {α : Type} (tol : Halt → Prop) (Q : α → Prop) : Except Halt α → Prop
  | .ok a => Q a
  | .error e => tol e

variable {tol : Halt → Prop}

theorem Ends.bind {P : α → Prop} {Q : β → Prop} {r : Except Halt α}
    {f : α → Except Halt β} (h : Ends tol P r) (hf : ∀ a, P a → Ends tol Q (f a)) :
    Ends tol Q (r >>= f) := by
  cases r with
  | ok a => exact hf a h
  | error e => exact h

theorem Ends.mono {P Q : α → Prop} {r : Except Halt α} (h : Ends tol P r)
    (hpq : ∀ a, P a → Q a) : Ends tol Q r := by
  cases r with
  | ok a => exact hpq a h
  | error e => exact h

/-! ## Redirections and arguments -/

section

variable {b : Text} {s n k : Nat} {ts : List Tok} {c : Cmd Span} {d : Cmd (List UInt8)}

/-- The tree points at the words of a command. -/
abbrev Text.Reads (b : Text) (c : Cmd Span) (d : Cmd (List UInt8)) : Prop := c.Rel b.Word d

/-- The parser did not run into the bound of the model. -/
abbrev Panic (e : Halt) : Prop := e ≠ .deep

theorem addRedir_code (a : Arrow) (c : Cmd Span) (f : Span) :
    addRedir (Tok.arrow a).code c f = .redir c f a.mode a.fd := by
  cases a <;> rfl

variable {t : Tok}

theorem code_eq_word (h : t.code = ch 'a') : ∃ w, t = .word w := by
  match t, h with
  | .word w, _ => exact ⟨w, rfl⟩

theorem code_ne_zero (t : Tok) : t.code ≠ 0 := by
  match t with
  | .word _ => exact show ch 'a' ≠ 0 by decide
  | .arrow .input | .arrow .output | .arrow .append | .bar | .amp | .semi | .lpar | .rpar => decide

theorem parseredirs_stop (hb : b.Wf) (hat : b.At s ts) (h : starts [ch '<', ch '>'] ts = false) :
    ∃ s', parseredirs b (n + 1) c s = .ok (c, s') ∧ b.At s' ts := by
  obtain ⟨s', hpeek, hat', -⟩ := peek_at hb hat [ch '<', ch '>']
  refine ⟨s', ?_, hat'⟩
  rw [parseredirs, hpeek, h]
  rfl

variable {a : Arrow}

theorem parseredirs_file (hb : b.Wf) (hat : b.At s (.arrow a :: ts)) :
    ∃ s₁, b.At s₁ ts ∧ parseredirs b (n + 1) c s =
      if (gettoken b s₁).ret ≠ ch 'a' then .error .missingFile
      else parseredirs b n (.redir c (gettoken b s₁).word a.mode a.fd) (gettoken b s₁).next := by
  obtain ⟨s', hpeek, hat', -⟩ := peek_at hb hat [ch '<', ch '>']
  obtain ⟨hcode, hat₁, -⟩ := gettoken_at hb hat'
  refine ⟨_, hat₁, ?_⟩
  have hstart : starts [ch '<', ch '>'] (.arrow a :: ts) = true := by cases a <;> rfl
  rw [parseredirs, hpeek, hstart, ← addRedir_code, ← hcode]
  rfl

variable {w : List UInt8}

theorem parseredirs_cons (hb : b.Wf) (hat : b.At s (.arrow a :: .word w :: ts)) :
    ∃ p s', parseredirs b (n + 1) c s = parseredirs b n (.redir c p a.mode a.fd) s' ∧ b.Word p w ∧
    b.At s' ts := by
  obtain ⟨s₁, hat₁, heq⟩ := parseredirs_file (n := n) (c := c) hb hat
  obtain ⟨hcode, hat₂, hword⟩ := gettoken_at hb hat₁
  have hret : (gettoken b s₁).ret = ch 'a' := hcode
  rw [if_neg (not_not.2 hret)] at heq
  exact ⟨_, _, heq, hword w rfl, hat₂⟩

theorem parseredirs_missing (hb : b.Wf) (hat : b.At s (.arrow a :: ts))
    (h : ∀ w ts', ts ≠ .word w :: ts') : parseredirs b (n + 1) c s = .error .missingFile := by
  obtain ⟨s₁, hat₁, heq⟩ := parseredirs_file (n := n) (c := c) hb hat
  rw [heq, if_pos]
  cases ts with
  | nil =>
    rw [(gettoken_at_nil hb hat₁).1]
    decide
  | cons t ts =>
    rw [(gettoken_at hb hat₁).1]
    intro hcode
    obtain ⟨w, rfl⟩ := code_eq_word hcode
    exact h w ts rfl

theorem parseredirs_sound (hb : b.Wf) (hr : b.Reads c d) (hat : b.At s ts) (hn : ts.length < n) :
    Ends Panic (fun r => ∃ rs rest, Redirs ts rs rest ∧ b.Reads r.1 (d.wrap rs) ∧ b.At r.2 rest)
      (parseredirs b n c s) := by
  induction n generalizing c d s ts with
  | zero => cases hn
  | succ n ih =>
    match ts, hn with
    | .arrow a :: .word w :: ts, hn =>
      obtain ⟨p, s', heq, hword, hat'⟩ := parseredirs_cons (n := n) (c := c) hb hat
      rw [heq]
      simp only [length_cons] at hn
      refine (ih (.redir hr hword) hat' (by omega)).mono ?_
      rintro r ⟨rs, rest, hrs, hreads, hat''⟩
      exact ⟨_, rest, .cons hrs, hreads, hat''⟩
    | [.arrow a], _ =>
      rw [parseredirs_missing hb hat nofun]
      exact nofun
    | .arrow a :: .arrow _ :: _, _ | .arrow a :: .bar :: _, _ | .arrow a :: .amp :: _,
        _ | .arrow a :: .semi :: _, _
    | .arrow a :: .lpar :: _, _ | .arrow a :: .rpar :: _, _ =>
      rw [parseredirs_missing hb hat nofun]
      exact nofun
    | [], _ | .word _ :: _, _ | .bar :: _, _ | .amp :: _, _ | .semi :: _, _ | .lpar :: _,
        _ | .rpar :: _, _ =>
      obtain ⟨s', heq, hat'⟩ := parseredirs_stop (n := n) (c := c) hb hat rfl
      rw [heq]
      exact ⟨[], _, .nil, hr, hat'⟩

/-- The tokens end here, or go on with one of the symbols. -/
def Follows (toks : List UInt8) (ts : List Tok) : Prop := ts = [] ∨ starts toks ts = true

variable {toks toks' : List UInt8}

theorem Follows.mono (h : Follows toks ts) (hsub : toks ⊆ toks') : Follows toks' ts := by
  refine h.imp_right fun hstart => ?_
  match ts, hstart with
  | t :: ts, hstart =>
    simp only [starts, Option.any_eq_true, decide_eq_true_eq] at hstart ⊢
    obtain ⟨c, hc, hmem⟩ := hstart
    exact ⟨c, hc, hsub hmem⟩

theorem Follows.starts_eq_false (h : Follows toks ts)
    (hdisj : toks.all (· ∉ toks') = true) : starts toks' ts = false := by
  obtain rfl | hstart := h
  · rfl
  · match ts, hstart with
    | t :: ts, hstart =>
      simp only [starts, Option.any_eq_true, decide_eq_true_eq] at hstart
      obtain ⟨c, hc, hmem⟩ := hstart
      have hnot : c ∉ toks' := of_decide_eq_true (all_eq_true.1 hdisj c hmem)
      simp [starts, hc, hnot]

variable {rs : List Redir} {rest : List Tok}

theorem parseredirs_complete (hb : b.Wf) (h : Redirs ts rs rest)
    (hstop : starts [ch '<', ch '>'] rest = false) (hr : b.Reads c d) (hat : b.At s ts)
    (hn : ts.length < n) :
    Ends (fun _ => False) (fun r => b.Reads r.1 (d.wrap rs) ∧ b.At r.2 rest)
    (parseredirs b n c s) := by
  obtain ⟨n, rfl⟩ := Nat.exists_eq_succ_of_ne_zero (Nat.ne_zero_of_lt hn)
  induction h generalizing c d s n with
  | nil =>
    obtain ⟨s', heq, hat'⟩ := parseredirs_stop (n := n) (c := c) hb hat hstop
    rw [heq]
    exact ⟨hr, hat'⟩
  | cons hrs ih =>
    obtain ⟨p, s', heq, hword, hat'⟩ := parseredirs_cons (n := n) (c := c) hb hat
    rw [heq]
    simp only [length_cons] at hn
    obtain ⟨n, rfl⟩ := Nat.exists_eq_succ_of_ne_zero (show n ≠ 0 by omega)
    exact ih hstop (.redir hr hword) hat' n (by omega)

theorem length_lt_es (hat : b.At s ts) : ts.length < b.es + 1 := by
  have hlen := length_tokens_le (b.rest s)
  rw [hat.eq, length_rest] at hlen
  omega

theorem parseargs_stop (hb : b.Wf) (hat : b.At s ts)
    (h : Follows [ch '|', ch ')', ch '&', ch ';'] ts) :
    ∃ s', parseargs b (n + 1) k c s = .ok (c, s') ∧ b.At s' ts := by
  obtain ⟨s', hpeek, hat', -⟩ := peek_at hb hat [ch '|', ch ')', ch '&', ch ';']
  obtain rfl | hstart := h
  · obtain ⟨hret, hat''⟩ := gettoken_at_nil hb hat'
    refine ⟨_, ?_, hat''⟩
    rw [parseargs, hpeek]
    dsimp only [starts]
    rw [if_neg Bool.false_ne_true, if_pos hret]
  · refine ⟨s', ?_, hat'⟩
    rw [parseargs, hpeek, hstart]
    rfl

theorem parseargs_cons (hb : b.Wf) (hat : b.At s (.word w :: ts)) :
    ∃ p s', b.Word p w ∧ b.At s' ts ∧ parseargs b (n + 1) k c s =
      if MAXARGS ≤ k + 1 then .error .tooManyArgs
      else parseredirs b (b.es + 1) (c.push p) s' >>= fun r => parseargs b n (k + 1) r.1 r.2 := by
  obtain ⟨s', hpeek, hat', -⟩ := peek_at hb hat [ch '|', ch ')', ch '&', ch ';']
  obtain ⟨hcode, hat₁, hword⟩ := gettoken_at hb hat'
  refine ⟨_, _, hword w rfl, hat₁, ?_⟩
  have hret : (gettoken b s').ret = ch 'a' := hcode
  rw [parseargs, hpeek]
  dsimp only [starts, Tok.byte?, Option.any_none]
  have hne : ¬(gettoken b s').ret = 0 := by
    rw [hret]
    decide
  rw [if_neg Bool.false_ne_true, if_neg hne, if_neg (not_not.2 hret)]

theorem parseargs_bad (hb : b.Wf) (hat : b.At s (t :: ts))
    (h : starts [ch '|', ch ')', ch '&', ch ';'] (t :: ts) = false) (hcode : t.code ≠ ch 'a') :
    parseargs b (n + 1) k c s = .error .badToken := by
  obtain ⟨s', hpeek, hat', -⟩ := peek_at hb hat [ch '|', ch ')', ch '&', ch ';']
  have hret := (gettoken_at hb hat').1
  rw [parseargs, hpeek, h]
  dsimp only
  rw [if_neg Bool.false_ne_true, hret, if_neg (code_ne_zero t), if_pos hcode]

theorem Redirs.length_le (h : Redirs ts rs rest) : rest.length ≤ ts.length := by
  induction h with
  | nil => exact le_rfl
  | cons _ ih => exact ih.trans ((Nat.le_succ _).trans (Nat.le_succ _))

variable {ws : List (List UInt8)}

theorem parseargs_sound (hb : b.Wf)
    (hr : b.Reads c ((Cmd.exec ws).wrap rs)) (hargc : ws.length = k) (hmax : k ≤ MAXARGS - 1)
    (hat : b.At s ts) (hn : ts.length < n) :
    Ends Panic (fun r => ∃ ws' rs' rest, Args ts ws' rs' rest ∧
      b.Reads r.1 ((Cmd.exec (ws ++ ws')).wrap (rs ++ rs')) ∧
      (ws ++ ws').length ≤ MAXARGS - 1 ∧ b.At r.2 rest) (parseargs b n k c s) := by
  induction n generalizing c ws rs s ts k with
  | zero => cases hn
  | succ n ih =>
    have stop {s : Nat} (hat : b.At s ts) : ∃ ws' rs' rest, Args ts ws' rs' rest ∧
        b.Reads c ((Cmd.exec (ws ++ ws')).wrap (rs ++ rs')) ∧ (ws ++ ws').length ≤ MAXARGS - 1 ∧
          b.At s rest := by
      refine ⟨[], [], ts, .nil, ?_, ?_, hat⟩
      · rwa [append_nil, append_nil]
      · rwa [append_nil, hargc]
    match ts, hn with
    | [], _ | .bar :: _, _ | .amp :: _, _ | .semi :: _, _ | .rpar :: _, _ =>
      obtain ⟨s', heq, hat'⟩ :=
        parseargs_stop (n := n) (k := k) (c := c) hb hat
          (by first | exact .inl rfl | exact .inr rfl)
      rw [heq]
      exact stop hat'
    | .arrow .input :: _, _ | .arrow .output :: _, _ | .arrow .append :: _, _ | .lpar :: _, _ =>
      rw [parseargs_bad hb hat rfl (by decide)]
      exact nofun
    | .word w :: ts, hn =>
      obtain ⟨p, s', hword, hat', heq⟩ := parseargs_cons (n := n) (k := k) (c := c) hb hat
      rw [heq]
      split
      · exact nofun
      rename_i hargs
      have hpush := hr.push hword
      rw [Cmd.push_wrap] at hpush
      refine (parseredirs_sound hb hpush hat' (length_lt_es hat')).bind ?_
      rintro r ⟨rs', rest, hrs', hreads, hat''⟩
      have hlen := hrs'.length_le
      simp only [length_cons] at hn
      have hreads : b.Reads r.1 ((Cmd.exec (ws ++ [w])).wrap (rs ++ rs')) := by
        rw [Cmd.wrap_append]
        exact hreads
      refine (ih hreads ?_ (by omega) hat'' (by omega)).mono ?_
      · rw [length_append, hargc, length_singleton]
      · rintro r ⟨ws', rs'', rest', hargs', hreads', hfits, hat₂⟩
        rw [append_assoc] at hreads' hfits
        rw [append_assoc] at hreads'
        exact ⟨_, _, rest', .cons hrs' hargs', hreads', hfits, hat₂⟩

theorem Args.starts_eq_false (h : Args ts ws rs rest)
    (hf : Follows [ch '|', ch ')', ch '&', ch ';'] rest) :
    starts [ch '<', ch '>'] ts = false ∧ starts [ch '('] ts = false := by
  cases h with
  | nil => exact ⟨hf.starts_eq_false (by decide), hf.starts_eq_false (by decide)⟩
  | cons => exact ⟨rfl, rfl⟩

theorem parseargs_complete (hb : b.Wf) {ws₀ : List (List UInt8)} {rs₀ : List Redir}
    (h : Args ts ws rs rest) (hf : Follows [ch '|', ch ')', ch '&', ch ';'] rest)
    (hmax : k + ws.length ≤ MAXARGS - 1)
    (hr : b.Reads c ((Cmd.exec ws₀).wrap rs₀)) (hat : b.At s ts) (hn : ts.length < n) :
    Ends (fun _ => False)
    (fun r => b.Reads r.1 ((Cmd.exec (ws₀ ++ ws)).wrap (rs₀ ++ rs)) ∧ b.At r.2 rest)
      (parseargs b n k c s) := by
  obtain ⟨n, rfl⟩ := Nat.exists_eq_succ_of_ne_zero (Nat.ne_zero_of_lt hn)
  induction h generalizing c ws₀ rs₀ s n k with
  | nil =>
    obtain ⟨s', heq, hat'⟩ := parseargs_stop (n := n) (k := k) (c := c) hb hat hf
    rw [heq, append_nil, append_nil]
    exact ⟨hr, hat'⟩
  | cons hrs hargs ih =>
    obtain ⟨p, s', hword, hat', heq⟩ := parseargs_cons (n := n) (k := k) (c := c) hb hat
    simp only [length_cons, MAXARGS] at hmax hn
    rw [heq, if_neg (by simp only [MAXARGS]; omega)]
    have hpush := hr.push hword
    rw [Cmd.push_wrap] at hpush
    refine (parseredirs_complete hb hrs (hargs.starts_eq_false hf).1 hpush hat'
      (length_lt_es hat')).bind ?_
    rintro r ⟨hreads, hat''⟩
    have hlen := hrs.length_le
    rw [← Cmd.wrap_append] at hreads
    obtain ⟨n, rfl⟩ := Nat.exists_eq_succ_of_ne_zero (show n ≠ 0 by omega)
    refine (ih hf (by simp only [MAXARGS]; omega) hreads hat'' n (by omega)).mono ?_
    rintro r ⟨hreads', hat₂⟩
    rw [append_assoc, append_assoc] at hreads'
    exact ⟨hreads', hat₂⟩

theorem symbol_byte {c : UInt8} (h : t.byte? = some c) (hgt : c ≠ ch '>') : symbol c = some t := by
  match t, h with
  | .arrow .output, rfl | .arrow .append, rfl => exact absurd rfl hgt
  | .arrow .input, rfl | .bar, rfl | .amp, rfl | .semi, rfl | .lpar, rfl | .rpar, rfl => rfl

/-- `if(peek(..)) gettoken(..)` with a symbol of one byte. -/
theorem accept (hb : b.Wf) (hat : b.At s ts) (c : UInt8) (hsym : symbol c = some t)
    (hsub : [c] ⊆ symbols := by decide) :
    (∃ s' ts', ts = t :: ts' ∧ peek b s [c] = (true, s') ∧ b.At s' ts ∧
      b.At (gettoken b s').next ts') ∨
      ∃ s', starts [c] ts = false ∧ peek b s [c] = (false, s') ∧ b.At s' ts := by
  obtain ⟨s', hpeek, hat', -⟩ := peek_at hb hat [c] hsub
  cases hstart : starts [c] ts with
  | false => exact .inr ⟨s', rfl, hpeek.trans (by rw [hstart]), hat'⟩
  | true =>
    match ts, hstart with
    | t' :: ts', hstart =>
      simp only [starts, Option.any_eq_true, mem_singleton, decide_eq_true_eq] at hstart
      obtain ⟨c', hc', rfl⟩ := hstart
      have hgt : c' ≠ ch '>' := by
        rintro rfl
        cases hsym
      have heq := (symbol_byte hc' hgt).symm.trans hsym
      cases heq
      refine .inl ⟨s', ts', rfl, hpeek.trans ?_, hat', (gettoken_at hb hat').2.1⟩
      simp [starts, hc']

/-! ## Lines -/

theorem Args.length_le (h : Args ts ws rs rest) :
    rest.length ≤ ts.length := by
  induction h with
  | nil => exact le_rfl
  | cons hrs _ ih => exact (ih.trans hrs.length_le).trans (Nat.le_succ _)

mutual

theorem Line.length_le {ts c rest} : Line ts c rest → rest.length ≤ ts.length
  | .last h => h.length_le
  | .list h h' => h'.length_le.trans ((Nat.le_succ _).trans h.length_le)

theorem Job.length_le {ts c rest} : Job ts c rest → rest.length ≤ ts.length
  | .pipe h => h.length_le
  | .back h => (Nat.le_succ _).trans h.length_le

theorem Pipe.length_le {ts c rest} : Pipe ts c rest → rest.length ≤ ts.length
  | .last h => h.length_le
  | .pipe h h' => h'.length_le.trans ((Nat.le_succ _).trans h.length_le)

theorem Exec.length_le {ts c rest} : Exec ts c rest → rest.length ≤ ts.length
  | .block h hrs => (hrs.length_le.trans (Nat.le_succ _)).trans (h.length_le.trans (Nat.le_succ _))
  | .simple hrs hargs => hargs.length_le.trans hrs.length_le

end

/-- The parser has read a string of the nonterminal `N`. -/
def Parsed (b : Text) (N : List Tok → Cmd (List UInt8) → List Tok → Prop) (ts : List Tok)
    (r : Cmd Span × Nat) :
    Prop := ∃ d rest, N ts d rest ∧ d.Fits ∧ b.Reads r.1 d ∧ b.At r.2 rest

theorem parseback_sound (hb : b.Wf) {ts₀ : List Tok} (h : Job ts₀ d ts) (hfits : d.Fits)
    (hr : b.Reads c d)
    (hat : b.At s ts) (hn : ts.length < n) : Ends Panic (Parsed b Job ts₀) (parseback b n c s) := by
  induction n generalizing c d s ts with
  | zero => cases hn
  | succ n ih =>
    rw [parseback]
    obtain ⟨s', ts', rfl, hpeek, -, hat'⟩ | ⟨s', -, hpeek, hat'⟩ := accept hb hat (ch '&') rfl
    · rw [hpeek]
      exact ih (.back h) hfits (.back hr) hat' (Nat.lt_of_succ_lt_succ hn)
    · rw [hpeek]
      exact ⟨d, ts, h, hfits, hr, hat'⟩

/-- What the four functions return, called with a bound that is large enough. -/
structure Sound (b : Text) (n : Nat) : Prop where
  line : ∀ {s ts}, b.At s ts → 4 * ts.length + 4 ≤ n →
    Ends Panic (Parsed b Line ts) (parseline b n s)
  pipe : ∀ {s ts}, b.At s ts → 4 * ts.length + 3 ≤ n →
    Ends Panic (Parsed b Pipe ts) (parsepipe b n s)
  exec : ∀ {s ts}, b.At s ts → 4 * ts.length + 2 ≤ n →
    Ends Panic (Parsed b Exec ts) (parseexec b n s)
  block : ∀ {s ts}, b.At s (.lpar :: ts) → 4 * ts.length + 5 ≤ n →
    Ends Panic (Parsed b Exec (.lpar :: ts)) (parseblock b n s)

theorem Sound.parseline (hb : b.Wf) (h : Sound b n) (hat : b.At s ts)
    (hn : 4 * ts.length + 4 ≤ n + 1) :
    Ends Panic (Parsed b Line ts) (parseline b (n + 1) s) := by
  rw [Sh.parseline]
  refine (h.pipe hat (by omega)).bind ?_
  rintro ⟨c, s₁⟩ ⟨d, rest, hpipe, hfits, hr, hat₁⟩
  refine (parseback_sound hb (.pipe hpipe) hfits hr hat₁ (length_lt_es hat₁)).bind ?_
  rintro ⟨c, s₂⟩ ⟨d, rest, hjob, hfits, hr, (hat₂ : b.At s₂ rest)⟩
  dsimp only
  obtain ⟨s', rest', rfl, hpeek, -, hat₃⟩ | ⟨s', -, hpeek, hat₃⟩ := accept hb hat₂ (ch ';') rfl
  · have hlen := hjob.length_le
    rw [length_cons] at hlen
    rw [hpeek]
    refine (h.line hat₃ (by omega)).bind ?_
    rintro r ⟨d', rest, hline, hfits', hr', hat₄⟩
    exact ⟨_, rest, .list hjob hline, ⟨hfits, hfits'⟩, .list hr hr', hat₄⟩
  · rw [hpeek]
    exact ⟨d, rest, .last hjob, hfits, hr, hat₃⟩

theorem Sound.parsepipe (hb : b.Wf) (h : Sound b n) (hat : b.At s ts)
    (hn : 4 * ts.length + 3 ≤ n + 1) :
    Ends Panic (Parsed b Pipe ts) (parsepipe b (n + 1) s) := by
  rw [Sh.parsepipe]
  refine (h.exec hat (by omega)).bind ?_
  rintro ⟨c, s₁⟩ ⟨d, rest, hexec, hfits, hr, (hat₁ : b.At s₁ rest)⟩
  dsimp only
  obtain ⟨s', rest', rfl, hpeek, -, hat₂⟩ | ⟨s', -, hpeek, hat₂⟩ := accept hb hat₁ (ch '|') rfl
  · have hlen := hexec.length_le
    rw [length_cons] at hlen
    rw [hpeek]
    refine (h.pipe hat₂ (by omega)).bind ?_
    rintro r ⟨d', rest, hpipe, hfits', hr', hat₃⟩
    exact ⟨_, rest, .pipe hexec hpipe, ⟨hfits, hfits'⟩, .pipe hr hr', hat₃⟩
  · rw [hpeek]
    exact ⟨d, rest, .last hexec, hfits, hr, hat₂⟩

theorem Sound.parseexec (hb : b.Wf) (h : Sound b n) (hat : b.At s ts)
    (hn : 4 * ts.length + 2 ≤ n + 1) :
    Ends Panic (Parsed b Exec ts) (parseexec b (n + 1) s) := by
  rw [Sh.parseexec]
  obtain ⟨s', ts', rfl, hpeek, hat₁, -⟩ | ⟨s', -, hpeek, hat₁⟩ := accept hb hat (ch '(') rfl
  · rw [hpeek]
    rw [length_cons] at hn
    exact h.block hat₁ (by omega)
  · rw [hpeek]
    have hnil : b.Reads (.exec []) (.exec []) := .exec .nil
    refine (parseredirs_sound hb hnil hat₁ (length_lt_es hat₁)).bind ?_
    rintro r ⟨rs, rest, hrs, hr, hat₂⟩
    refine (parseargs_sound hb hr rfl (Nat.zero_le _) hat₂ (length_lt_es hat₂)).mono ?_
    rintro r ⟨ws, rs', rest', hargs, hr', hfits, hat₃⟩
    exact ⟨_, rest', .simple hrs hargs, Cmd.fits_wrap.2 hfits, hr', hat₃⟩

theorem Sound.parseblock (hb : b.Wf) (h : Sound b n) (hat : b.At s (.lpar :: ts))
    (hn : 4 * ts.length + 5 ≤ n + 1) :
    Ends Panic (Parsed b Exec (.lpar :: ts)) (parseblock b (n + 1) s) := by
  rw [Sh.parseblock]
  obtain ⟨s', ts', heq, hpeek, -, hat₁⟩ | ⟨s', hstart, -⟩ := accept hb hat (ch '(') rfl
  · cases heq
    rw [hpeek]
    refine (h.line hat₁ (by omega)).bind ?_
    rintro ⟨c, s₂⟩ ⟨d, rest, hline, hfits, hr, (hat₂ : b.At s₂ rest)⟩
    dsimp only
    obtain ⟨s'', rest', rfl, hpeek', -, hat₃⟩ | ⟨s'', -, hpeek', -⟩ := accept hb hat₂ (ch ')') rfl
    · rw [hpeek']
      refine (parseredirs_sound hb hr hat₃ (length_lt_es hat₃)).mono ?_
      rintro r ⟨rs, rest, hrs, hr', hat₄⟩
      exact ⟨_, rest, .block hline hrs, Cmd.fits_wrap.2 hfits, hr', hat₄⟩
    · rw [hpeek']
      rintro ⟨⟩
  · cases hstart

theorem sound (hb : b.Wf) (n : Nat) : Sound b n := by
  induction n with
  | zero =>
    exact ⟨fun _ h => by omega, fun _ h => by omega, fun _ h => by omega, fun _ h => by omega⟩
  | succ n ih => exact ⟨ih.parseline hb, ih.parsepipe hb, ih.parseexec hb, ih.parseblock hb⟩

/-! ## What the grammar derives is read -/

theorem Job.pipe_amps {ts d rest} : Job ts d rest →
    ∃ k d₀, Pipe ts d₀ (replicate k .amp ++ rest) ∧ d = Cmd.back^[k] d₀
  | .pipe h => ⟨0, d, h, rfl⟩
  | .back h => by
    obtain ⟨k, d₀, hpipe, rfl⟩ := Job.pipe_amps h
    refine ⟨k + 1, d₀, ?_, (iterate_succ_apply' Cmd.back k d₀).symm⟩
    rwa [replicate_succ', append_assoc]

theorem Cmd.fits_back {c : Cmd (List UInt8)} : (Cmd.back^[k] c).Fits ↔ c.Fits := by
  induction k generalizing c with
  | zero => rfl
  | succ k ih => exact ih

theorem parseback_complete (hb : b.Wf) (hstop : starts [ch '&'] rest = false) (hr : b.Reads c d)
    (hat : b.At s (replicate k .amp ++ rest)) (hn : k < n) :
    Ends (fun _ => False) (fun r => b.Reads r.1 (Cmd.back^[k] d) ∧ b.At r.2 rest)
    (parseback b n c s) := by
  obtain ⟨n, rfl⟩ := Nat.exists_eq_succ_of_ne_zero (Nat.ne_zero_of_lt hn)
  induction k generalizing c d s n with
  | zero =>
    rw [parseback]
    obtain ⟨s', ts', rfl, -⟩ | ⟨s', -, hpeek, hat'⟩ := accept hb hat (ch '&') rfl
    · cases hstop
    · rw [hpeek]
      exact ⟨hr, hat'⟩
  | succ k ih =>
    rw [parseback]
    obtain ⟨s', ts', heq, hpeek, -, hat'⟩ | ⟨s', hstart, -⟩ := accept hb hat (ch '&') rfl
    · cases heq
      rw [hpeek]
      obtain ⟨n, rfl⟩ := Nat.exists_eq_succ_of_ne_zero (show n ≠ 0 by omega)
      exact ih (.back hr) hat' n (Nat.lt_of_succ_lt_succ hn)
    · cases hstart

/-- The parser returns the command and stands before the rest. -/
abbrev Reaches (b : Text) (d : Cmd (List UInt8)) (rest : List Tok) :
    Except Halt (Cmd Span × Nat) → Prop :=
  Ends (fun _ => False) fun r => b.Reads r.1 d ∧ b.At r.2 rest

/-- What the four functions read, if the token after it is one that can follow. -/
structure Complete (b : Text) (n : Nat) : Prop where
  line : ∀ {s ts d rest}, Line ts d rest → d.Fits → Follows [ch ')'] rest → b.At s ts →
    4 * ts.length + 4 ≤ n →
    Reaches b d rest (parseline b n s)
  pipe : ∀ {s ts d rest}, Pipe ts d rest → d.Fits → Follows [ch ')', ch '&', ch ';'] rest →
    b.At s ts →
    4 * ts.length + 3 ≤ n → Reaches b d rest (parsepipe b n s)
  exec : ∀ {s ts d rest}, Exec ts d rest → d.Fits → Follows [ch '|', ch ')', ch '&', ch ';'] rest →
    b.At s ts →
    4 * ts.length + 2 ≤ n → Reaches b d rest (parseexec b n s)
  block : ∀ {s ts d ts' rs rest}, Line ts d (.rpar :: ts') → Redirs ts' rs rest → d.Fits →
    starts [ch '<', ch '>'] rest = false → b.At s (.lpar :: ts) → 4 * ts.length + 5 ≤ n →
    Reaches b (d.wrap rs) rest (parseblock b n s)

/-- The beginning of `parseline`: a pipe and the `&` after it. -/
theorem Complete.job (hb : b.Wf) (h : Complete b n) (hjob : Job ts d rest) (hfits : d.Fits)
    (hf : Follows [ch ')', ch ';'] rest) (hat : b.At s ts) (hn : 4 * ts.length + 4 ≤ n + 1)
    {Q : Cmd Span × Nat → Prop} {f : Cmd Span × Nat → Except Halt (Cmd Span × Nat)}
    (hQ : ∀ c s, b.Reads c d → b.At s rest → Ends (fun _ => False) Q (f (c, s))) :
    Ends (fun _ => False) Q
      (Sh.parsepipe b n s >>= fun r => parseback b (b.es + 1) r.1 r.2 >>= f) := by
  obtain ⟨k, d₀, hpipe, rfl⟩ := hjob.pipe_amps
  have hfollow : Follows [ch ')', ch '&', ch ';'] (replicate k .amp ++ rest) := by
    cases k with
    | zero => exact hf.mono (by decide)
    | succ k => exact .inr rfl
  refine (h.pipe hpipe (Cmd.fits_back.1 hfits) hfollow hat (by omega)).bind ?_
  rintro ⟨c, s₁⟩ ⟨hr, hat₁⟩
  have hlen := length_lt_es hat₁
  rw [length_append, length_replicate] at hlen
  refine (parseback_complete hb (hf.starts_eq_false (by decide)) hr hat₁ (by omega)).bind ?_
  rintro ⟨c, s₂⟩ ⟨hr, hat₂⟩
  exact hQ c s₂ hr hat₂

theorem Complete.parseline (hb : b.Wf) (h : Complete b n) (hline : Line ts d rest) (hfits : d.Fits)
    (hf : Follows [ch ')'] rest) (hat : b.At s ts) (hn : 4 * ts.length + 4 ≤ n + 1) :
    Reaches b d rest (parseline b (n + 1) s) := by
  rw [Sh.parseline]
  cases hline with
  | last hjob =>
    refine h.job hb hjob hfits (hf.mono (by decide)) hat hn ?_
    intro c s₁ hr hat₁
    dsimp only
    obtain ⟨s', rest', rfl, -⟩ | ⟨s', -, hpeek, hat₂⟩ := accept hb hat₁ (ch ';') rfl
    · have hstart : starts [ch ';'] _ = false := hf.starts_eq_false (by decide)
      cases hstart
    · rw [hpeek]
      exact ⟨hr, hat₂⟩
  | list hjob hline =>
    refine h.job hb hjob hfits.1 (.inr rfl) hat hn ?_
    intro c s₁ hr hat₁
    dsimp only
    obtain ⟨s', rest', heq, hpeek, -, hat₂⟩ | ⟨s', hstart, -⟩ := accept hb hat₁ (ch ';') rfl
    · cases heq
      have hlen := hjob.length_le
      rw [length_cons] at hlen
      rw [hpeek]
      refine (h.line hline hfits.2 hf hat₂ (by omega)).bind ?_
      rintro ⟨c', s₂⟩ ⟨hr', hat₃⟩
      exact ⟨.list hr hr', hat₃⟩
    · cases hstart

theorem Complete.parsepipe (hb : b.Wf) (h : Complete b n) (hpipe : Pipe ts d rest) (hfits : d.Fits)
    (hf : Follows [ch ')', ch '&', ch ';'] rest) (hat : b.At s ts)
    (hn : 4 * ts.length + 3 ≤ n + 1) :
    Reaches b d rest (parsepipe b (n + 1) s) := by
  rw [Sh.parsepipe]
  cases hpipe with
  | last hexec =>
    refine (h.exec hexec hfits (hf.mono (by decide)) hat (by omega)).bind ?_
    rintro ⟨c, s₁⟩ ⟨hr, (hat₁ : b.At s₁ rest)⟩
    dsimp only
    obtain ⟨s', rest', rfl, -⟩ | ⟨s', -, hpeek, hat₂⟩ := accept hb hat₁ (ch '|') rfl
    · have hstart : starts [ch '|'] _ = false := hf.starts_eq_false (by decide)
      cases hstart
    · rw [hpeek]
      exact ⟨hr, hat₂⟩
  | pipe hexec hpipe =>
    refine (h.exec hexec hfits.1 (.inr rfl) hat (by omega)).bind ?_
    rintro ⟨c, s₁⟩ ⟨hr, (hat₁ : b.At s₁ _)⟩
    dsimp only
    obtain ⟨s', rest', heq, hpeek, -, hat₂⟩ | ⟨s', hstart, -⟩ := accept hb hat₁ (ch '|') rfl
    · cases heq
      have hlen := hexec.length_le
      rw [length_cons] at hlen
      rw [hpeek]
      refine (h.pipe hpipe hfits.2 hf hat₂ (by omega)).bind ?_
      rintro ⟨c', s₂⟩ ⟨hr', hat₃⟩
      exact ⟨.pipe hr hr', hat₃⟩
    · cases hstart

theorem Complete.parseexec (hb : b.Wf) (h : Complete b n) (hexec : Exec ts d rest) (hfits : d.Fits)
    (hf : Follows [ch '|', ch ')', ch '&', ch ';'] rest) (hat : b.At s ts)
    (hn : 4 * ts.length + 2 ≤ n + 1) :
    Reaches b d rest (parseexec b (n + 1) s) := by
  rw [Sh.parseexec]
  cases hexec with
  | block hline hrs =>
    obtain ⟨s', ts', heq, hpeek, hat₁, -⟩ | ⟨s', hstart, -⟩ := accept hb hat (ch '(') rfl
    · rw [length_cons] at hn
      rw [hpeek]
      exact h.block hline hrs (Cmd.fits_wrap.1 hfits) (hf.starts_eq_false (by decide))
        hat₁ (by omega)
    · cases hstart
  | simple hrs hargs =>
    obtain ⟨s', ts', rfl, -⟩ | ⟨s', -, hpeek, hat₁⟩ := accept hb hat (ch '(') rfl
    · cases hrs
      cases (hargs.starts_eq_false hf).2
    · rw [hpeek]
      have hnil : b.Reads (.exec []) (.exec []) := .exec .nil
      refine (parseredirs_complete hb hrs (hargs.starts_eq_false hf).1 hnil hat₁
        (length_lt_es hat₁)).bind ?_
      rintro ⟨c, s₂⟩ ⟨hr, hat₂⟩
      have hmax : 0 + _ ≤ MAXARGS - 1 := (Nat.zero_add _).trans_le (Cmd.fits_wrap.1 hfits)
      exact parseargs_complete hb hargs hf hmax hr hat₂ (length_lt_es hat₂)

theorem Complete.parseblock (hb : b.Wf) (h : Complete b n) {ts' : List Tok}
    (hline : Line ts d (.rpar :: ts')) (hrs : Redirs ts' rs rest) (hfits : d.Fits)
    (hstop : starts [ch '<', ch '>'] rest = false) (hat : b.At s (.lpar :: ts))
    (hn : 4 * ts.length + 5 ≤ n + 1) :
    Reaches b (d.wrap rs) rest (parseblock b (n + 1) s) := by
  rw [Sh.parseblock]
  obtain ⟨s', _, heq, hpeek, -, hat₁⟩ | ⟨s', hstart, -⟩ := accept hb hat (ch '(') rfl
  · cases heq
    rw [hpeek]
    refine (h.line hline hfits (.inr rfl) hat₁ (by omega)).bind ?_
    rintro ⟨c, s₂⟩ ⟨hr, (hat₂ : b.At s₂ _)⟩
    dsimp only
    obtain ⟨s'', _, heq, hpeek', -, hat₃⟩ | ⟨s'', hstart, -⟩ := accept hb hat₂ (ch ')') rfl
    · cases heq
      rw [hpeek']
      exact parseredirs_complete hb hrs hstop hr hat₃ (length_lt_es hat₃)
    · cases hstart
  · cases hstart

theorem complete (hb : b.Wf) (n : Nat) : Complete b n := by
  induction n with
  | zero =>
    exact ⟨fun _ _ _ _ h => by omega, fun _ _ _ _ h => by omega, fun _ _ _ _ h => by omega,
      fun _ _ _ _ _ h => by omega⟩
  | succ n ih => exact ⟨ih.parseline hb, ih.parsepipe hb, ih.parseexec hb, ih.parseblock hb⟩

end

/-! ## Whole lines -/

/-- The string at an offset of a line with a NUL at `es`. -/
def stringAt (m : Nat → UInt8) (es p : Nat) : List UInt8 :=
  ((range' p (es - p)).map m).takeWhile (· ≠ 0)

/-- The offsets at which `nulterminate` writes a NUL. -/
def Cmd.ends : Cmd Span → List Nat
  | exec argv => argv.map Span.eq
  | redir cmd file _ _ => file.eq :: cmd.ends
  | pipe left right | list left right => left.ends ++ right.ends
  | back cmd => cmd.ends

theorem foldl_update (l : List Span) (m : Nat → UInt8) (i : Nat) :
    l.foldl (fun m w => update m w.eq 0) m i = if i ∈ l.map Span.eq then 0 else m i := by
  induction l generalizing m with
  | nil => rfl
  | cons w l ih =>
    rw [foldl_cons, ih, map_cons, update_apply]
    by_cases hi : i = w.eq <;> by_cases hl : i ∈ l.map Span.eq <;> simp [hi, hl]

theorem nulterminate_apply (c : Cmd Span) (m : Nat → UInt8) (i : Nat) :
    nulterminate c m i = if i ∈ c.ends then 0 else m i := by
  induction c generalizing m with
  | exec argv => exact foldl_update argv m i
  | redir c file mode fd ih =>
    rw [nulterminate, update_apply, ih, Cmd.ends]
    by_cases hi : i = file.eq <;> simp [hi]
  | pipe c c' ih ih' | list c c' ih ih' =>
    rw [nulterminate, ih', ih, Cmd.ends]
    by_cases hi : i ∈ c.ends <;> by_cases hi' : i ∈ c'.ends <;> simp [hi, hi']
  | back c ih => exact ih m

section

variable {b : Text} {c : Cmd Span} {d : Cmd (List UInt8)}

/-- An offset at which no word goes on. -/
def Text.Stops (b : Text) (e : Nat) : Prop := e = b.es ∨ inWord (b.byte e) = false

variable {p : Span} {w : List UInt8}

theorem Text.Word.stops (h : b.Word p w) : b.Stops p.eq := by
  obtain he | hlt := Nat.eq_or_lt_of_le h.le_es
  · exact .inl he
  · refine .inr (h.stop _ ?_)
    rw [rest_of_lt hlt, head?_cons]
    exact rfl

variable {l : List Span} {ws : List (List UInt8)}

theorem stops_of_forall₂ (h : List.Forall₂ b.Word l ws) :
    ∀ e ∈ l.map Span.eq, b.Stops e := by
  induction h with
  | nil => exact nofun
  | cons hw _ ih => exact forall_mem_cons.2 ⟨hw.stops, ih⟩

theorem stops_of_reads (h : b.Reads c d) : ∀ e ∈ c.ends, b.Stops e := by
  induction h with
  | exec h => exact stops_of_forall₂ h
  | redir _ hw ih => exact forall_mem_cons.2 ⟨hw.stops, ih⟩
  | pipe _ _ ih ih' | list _ _ ih ih' => exact forall_mem_append.2 ⟨ih, ih'⟩
  | back _ ih => exact ih

variable {f : Span → List UInt8}

theorem map_of_forall₂
    (h : List.Forall₂ b.Word l ws) (hf : ∀ p w, b.Word p w → p.eq ∈ l.map Span.eq → f p = w) :
    l.map f = ws := by
  induction h with
  | nil => rfl
  | cons hw _ ih =>
    rw [map_cons, hf _ _ hw mem_cons_self, ih fun p w hw hp => hf p w hw (mem_cons_of_mem _ hp)]

theorem map_of_reads (h : b.Reads c d)
    (hf : ∀ p w, b.Word p w → p.eq ∈ c.ends → f p = w) : c.map f = d := by
  induction h with
  | exec h => exact congrArg Cmd.exec (map_of_forall₂ h hf)
  | redir _ hw ih =>
    rw [Cmd.map, hf _ _ hw mem_cons_self, ih fun p w hw hp => hf p w hw (mem_cons_of_mem _ hp)]
  | pipe _ _ ih ih' | list _ _ ih ih' =>
    rw [Cmd.map, ih fun p w hw hp => hf p w hw (mem_append_left _ hp),
      ih' fun p w hw hp => hf p w hw (mem_append_right _ hp)]
  | back _ ih => exact congrArg Cmd.back (ih hf)

/-- A word, once there are NULs after this one and after others. -/
theorem stringAt_word (hb : b.Wf) {m : Nat → UInt8} {ends : List Nat}
    (hm : ∀ i, m i = if i ∈ ends then 0 else b.byte i) (hends : ∀ e ∈ ends, b.Stops e)
    (hw : b.Word p w) (hp : p.eq ∈ ends) : stringAt m b.es p.q = w := by
  have hle := hw.le
  have hes := hw.le_es
  have hsame : ∀ i, p.q ≤ i → i < p.eq → m i = b.byte i := by
    intro i hq heq
    rw [hm, if_neg]
    intro hi
    obtain rfl | hstop := hends i hi
    · omega
    · rw [hw.inWord i hq heq] at hstop
      cases hstop
  have hsplit : range' p.q (b.es - p.q) = range' p.q (p.eq - p.q) ++ range' p.eq (b.es - p.eq) := by
    have happend := range'_append_1 (s := p.q) (m := p.eq - p.q) (n := b.es - p.eq)
    rw [Nat.add_sub_cancel' hle, show p.eq - p.q + (b.es - p.eq) = b.es - p.q by omega] at happend
    exact happend.symm
  have hmap : (range' p.q (p.eq - p.q)).map m = w := by
    rw [hw.eq]
    refine map_congr_left fun i hi => ?_
    rw [mem_range'_1] at hi
    exact hsame i hi.1 (by omega)
  rw [stringAt, hsplit, map_append, hmap]
  refine (takeWhile_append ?_ ?_).1
  · intro c hc
    rw [hw.eq] at hc
    obtain ⟨i, hi, rfl⟩ := mem_map.1 hc
    rw [mem_range'_1] at hi
    exact decide_eq_true (hb.ne i (by omega))
  · intro c hc
    rw [head?_map, Option.mem_def, Option.map_eq_some_iff] at hc
    obtain ⟨i, hi, rfl⟩ := hc
    rw [head?_range'] at hi
    split at hi
    · cases hi
    · cases hi
      simp [hm, hp]

theorem reads_nulterminate (hb : b.Wf) (h : b.Reads c d) :
    c.map (fun p => stringAt (nulterminate c b.byte) b.es p.q) = d :=
  map_of_reads h fun _ _ hw hp =>
    stringAt_word hb (nulterminate_apply c b.byte) (stops_of_reads h) hw hp

end

theorem getD_of_lt_strlen {s : List UInt8} {i : Nat} (h : i < (s.takeWhile (· ≠ 0)).length) :
    s.getD i 0 = (s.takeWhile (· ≠ 0)).get ⟨i, h⟩ := by
  have heq := (List.takeWhile_prefix (l := s) (· ≠ 0)).getElem h
  rw [getD_eq_getElem?_getD, getElem?_eq_getElem (h.trans_le (List.takeWhile_prefix _).length_le)]
  exact heq.symm

theorem wf_ofString (s : List UInt8) : (Text.ofString s).Wf := by
  refine ⟨?_, fun i hi => ?_⟩
  · show s.getD (strlen s) 0 = 0
    rw [strlen]
    induction s with
    | nil => rfl
    | cons c s ih =>
      by_cases hc : c = 0
      · simp [hc]
      · simpa [hc] using ih
  · have hget := getD_of_lt_strlen hi
    have hmem : s.getD i 0 ∈ s.takeWhile (· ≠ 0) := by
      rw [hget]
      exact get_mem _ _
    simpa [Text.ofString] using mem_takeWhile_imp hmem

theorem at_ofString (s : List UInt8) : (Text.ofString s).At 0 (tokens (s.takeWhile (· ≠ 0))) := by
  refine ⟨Nat.zero_le _, congrArg tokens ?_⟩
  refine ext_getElem length_rest fun i hi hi' => ?_
  rw [length_rest] at hi
  have hget := getD_of_lt_strlen hi
  simpa [Text.rest, Text.ofString] using hget

variable {s : List UInt8} {c : Cmd Span} {d : Cmd (List UInt8)} {m : Nat → UInt8}

theorem bound_ofString (s : List UInt8) :
    4 * (tokens (s.takeWhile (· ≠ 0))).length + 4 ≤ 4 * (Text.ofString s).es + 4 := by
  have := length_lt_es (at_ofString s)
  omega

theorem parsecmd_sound (s : List UInt8) :
    Ends (· ≠ .deep) (fun r => ∃ d, Line (tokens (s.takeWhile (· ≠ 0))) d [] ∧
    d.Fits ∧ (Text.ofString s).Reads r.1 d ∧ r.2 = nulterminate r.1 (Text.ofString s).byte)
    (parsecmd s) := by
  have hb := wf_ofString s
  refine ((sound hb _).line (at_ofString s) (bound_ofString s)).bind ?_
  rintro ⟨c, p⟩ ⟨d, rest, hd, hfits, hr, (hat : (Text.ofString s).At p rest)⟩
  obtain ⟨q, hpeek, -, hes⟩ := peek_at hb hat []
  show Ends _ _ (if (peek (Text.ofString s) p []).2 ≠ _ then _ else _)
  rw [hpeek]
  split
  · exact nofun
  · rename_i hend
    obtain rfl := hes.1 (not_not.1 hend)
    exact ⟨d, hd, hfits, hr, rfl⟩

theorem parsecmd_ok (h : parsecmd s = .ok (c, m)) :
    ∃ d, Line (tokens (s.takeWhile (· ≠ 0))) d [] ∧ d.Fits ∧
    (Text.ofString s).Reads c d ∧ m = nulterminate c (Text.ofString s).byte := by
  have hsound := parsecmd_sound s
  rwa [h] at hsound

theorem parsecmd_complete (h : Line (tokens (s.takeWhile (· ≠ 0))) d []) (hfits : d.Fits) :
    ∃ c, parsecmd s = .ok (c, nulterminate c (Text.ofString s).byte) ∧
    (Text.ofString s).Reads c d := by
  have hb := wf_ofString s
  have hline := (complete hb _).line h hfits (.inl rfl) (at_ofString s) (bound_ofString s)
  cases hrun : parseline (Text.ofString s) (4 * (Text.ofString s).es + 4) 0 with
  | error e =>
    rw [hrun] at hline
    exact hline.elim
  | ok r =>
    rw [hrun] at hline
    obtain ⟨hr, hat⟩ := hline
    obtain ⟨q, hpeek, -, hes⟩ := peek_at hb hat []
    refine ⟨r.1, ?_, hr⟩
    rw [parsecmd, hrun]
    show (if (peek (Text.ofString s) r.2 []).2 ≠ _ then _ else _) = _
    rw [hpeek, if_neg (not_not.2 (hes.2 rfl))]

/-- `parsecmd` returns the command that the line derives, and panics if there is none. -/
theorem parsecmd_grammar (s : List UInt8) :
    (∀ d, (∃ c m, parsecmd s = .ok (c, m) ∧ c.map (fun p => stringAt m (strlen s) p.q) = d) ↔
      Line (tokens (s.takeWhile (· ≠ 0))) d [] ∧ d.Fits) ∧
    ∀ e, parsecmd s = .error e → e ≠ .deep := by
  refine ⟨fun d => ⟨?_, fun ⟨h, hfits⟩ => ?_⟩, fun e he => ?_⟩
  · rintro ⟨c, m, hrun, rfl⟩
    obtain ⟨d, hd, hfits, hr, rfl⟩ := parsecmd_ok hrun
    have hmap : c.map _ = d := reads_nulterminate (wf_ofString s) hr
    exact hmap ▸ ⟨hd, hfits⟩
  · obtain ⟨c, hrun, hr⟩ := parsecmd_complete h hfits
    exact ⟨c, _, hrun, reads_nulterminate (wf_ofString s) hr⟩
  · have hsound := parsecmd_sound s
    rwa [he] at hsound

theorem Cmd.fits_map {f : α → β} {c : Cmd α} : (c.map f).Fits ↔ c.Fits := by
  induction c with
  | exec argv => rw [Cmd.map, Cmd.Fits, length_map, Cmd.Fits]
  | redir c file mode fd ih => exact ih
  | pipe l r ihl ihr | list l r ihl ihr => exact and_congr ihl ihr
  | back c ih => exact ih

/-- The text of a token in the line. -/
def Span.text (s : List UInt8) (p : Span) : List UInt8 := (s.drop p.q).take (p.eq - p.q)

theorem Text.Word.text {p : Span} {w : List UInt8} (h : (Text.ofString s).Word p w) :
    p.text s = w := by
  have hle : p.eq ≤ s.length := h.le_es.trans (List.takeWhile_prefix _).length_le
  have hq := h.le
  rw [h.eq, Span.text]
  refine ext_getElem ?_ fun i hi hi' => ?_
  · rw [length_take, length_drop, length_map, length_range']
    omega
  · rw [length_map, length_range'] at hi'
    have hlt : p.q + i < s.length := by omega
    simp [Text.ofString, hlt]

/-- After `nulterminate` the strings of the tree are the tokens of the line, each command with a
null pointer after them in `argv`. -/
theorem nulterminate_strings (h : parsecmd s = .ok (c, m)) :
    c.map (fun p => stringAt m (strlen s) p.q) = c.map (Span.text s) ∧
    Line (tokens (s.takeWhile (· ≠ 0))) (c.map (Span.text s)) [] ∧ c.Fits := by
  obtain ⟨d, hd, hfits, hr, rfl⟩ := parsecmd_ok h
  have htext : c.map (Span.text s) = d := map_of_reads hr fun p w hw _ => hw.text
  have hstring : c.map _ = d := reads_nulterminate (wf_ofString s) hr
  rw [htext]
  exact ⟨hstring, hd, Cmd.fits_map.1 (htext ▸ hfits)⟩

/-- `a>b`, where only the symbol is between the words. -/
theorem nulterminate_strings_adjacent : ∃ c m, parsecmd (['a', '>', 'b'].map ch) = .ok (c, m) ∧
    c.map (fun p => stringAt m 3 p.q) = .redir (.exec [[ch 'a']]) [ch 'b'] 0x601 1 := by
  have hrun : (parsecmd (['a', '>', 'b'].map ch)).map (·.1) =
      .ok (.redir (.exec [⟨0, 1⟩]) ⟨2, 3⟩ 0x601 1) := by
    decide +kernel
  cases h : parsecmd (['a', '>', 'b'].map ch) with
  | error e =>
    rw [h] at hrun
    cases hrun
  | ok r =>
    obtain ⟨c, m⟩ := r
    rw [h] at hrun
    cases hrun
    exact ⟨_, _, rfl, (nulterminate_strings h).1⟩

end Xv6.Sh
