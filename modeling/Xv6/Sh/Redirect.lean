import Xv6.Sh.Parse
import Xv6.Sh.Wired

/-!
# Which redirection wins

`parseredirs` puts each redirection around the ones before it, and `runcmd` carries them out from
the outside in: the first redirection of a descriptor is carried out last.
-/

namespace Xv6.Sh

open User List

/-- The redirections of a descriptor, in the order of the line. -/
def redirsOf (fd : Nat) (rs : List Redir) : List Redir := rs.filter fun r => r.arrow.fd = fd

section

variable {ws : List Word} {rs rs' : List Redir} {s s' : State Node} {inherited : Table}

theorem wrap_concat {c : Cmd Word} {r : Redir} :
    c.wrap (rs ++ [r]) = .redir (c.wrap rs) r.file r.arrow.mode r.arrow.fd := Cmd.wrap_append

/-- The way to a node of a simple command leads through the last redirections, and the first of
these decides. -/
theorem Path.simple {τ : List Node} {c : Cmd Word} (h : Path ((Cmd.exec ws).wrap rs) τ c) :
    ∃ rs₁ rs₂, rs = rs₁ ++ rs₂ ∧ c = (Cmd.exec ws).wrap rs₁ ∧ ∀ s inherited fd o,
      Stands s inherited fd τ o →
      o = ((redirsOf fd rs₂).head?.map fun r => .file r.file r.arrow.mode).or (inherited fd) := by
  induction h with
  | root => exact ⟨rs, [], (append_nil rs).symm, rfl, fun s inherited fd o ho => ho⟩
  | down _ hchild ih =>
    obtain ⟨rs₁, rs₂, hrs, rfl, hstands⟩ := ih
    rcases eq_nil_or_concat rs₁ with rfl | ⟨rs₀, r, rfl⟩
    · cases hchild
    · rw [concat_eq_append] at hrs hchild
      rw [wrap_concat] at hchild
      cases hchild
      refine ⟨rs₀, r :: rs₂,
        by rw [hrs, append_assoc, singleton_append], rfl, fun s inherited fd o ho => ?_⟩
      rw [Stands] at ho
      split at ho
      · rename_i hfd
        rw [redirsOf, filter_cons_of_pos (by simpa using hfd), head?_cons, ho]
        rfl
      · rename_i hfd
        rw [redirsOf, filter_cons_of_neg (by simpa using hfd)]
        exact hstands s inherited fd o ho

/-- The program of a simple command is executed with the files of the first redirections. -/
theorem Wired.simple {p : Nat} {x : User.Proc Node} {argv : List Word} {k : Int → User.Code Node}
    (h : Wired ((Cmd.exec ws).wrap rs) inherited s) (here : s.Runs p x (.call (Sys.exec argv) k)) :
    argv = ws ∧ ∀ fd < 3,
      x.fds fd = ((redirsOf fd rs).head?.map fun r => .file r.file r.arrow.mode).or
        (inherited fd) := by
  obtain ⟨hpath, hstands⟩ := h.exec here
  obtain ⟨rs₁, rs₂, rfl, hargv, hfirst⟩ := hpath.simple
  rcases eq_nil_or_concat rs₁ with rfl | ⟨rs₀, r, rfl⟩
  · cases hargv
    exact ⟨rfl, fun fd hfd => hfirst _ _ fd _ (hstands fd hfd)⟩
  · rw [concat_eq_append, wrap_concat] at hargv
    cases hargv

/-- A simple command runs with the files of the last redirections of descriptors 0 and 1 exactly if
these are the files of the first ones. -/
theorem last_redirection_iff {line : List UInt8} {ts : List Tok}
    (hredirs : Redirs (tokens (line.takeWhile (· ≠ 0))) rs ts) (hargs : Args ts ws rs' [])
    (hfits : ws.length ≤ MAXARGS - 1) : ∃ c m, parsecmd line = .ok (c, m) ∧
    ∀ {inherited s s' p x argv k},
      Starts (c.map fun q => stringAt m (strlen line) q.q) inherited s →
      Relation.ReflTransGen (fun s s' => ∃ ok, Step shell ok s s') s s' →
      s'.Runs p x (.call (Sys.exec argv) k) →
      argv = ws ∧
      ((∀ fd < 2, ∀ r ∈ (redirsOf fd (rs ++ rs')).getLast?, ∃ mode,
        x.fds fd = some (.file r.file mode)) ↔
        ∀ fd < 2, (redirsOf fd (rs ++ rs')).head?.map Redir.file =
          (redirsOf fd (rs ++ rs')).getLast?.map Redir.file) := by
  have hline : Line (tokens (line.takeWhile (· ≠ 0))) ((Cmd.exec ws).wrap (rs ++ rs')) [] :=
    .last (.pipe (.last (.simple hredirs hargs)))
  obtain ⟨c, hrun, hreads⟩ := parsecmd_complete hline (Cmd.fits_wrap.2 hfits)
  refine ⟨c, _, hrun, fun {inherited s s' p x argv k} hs hr here => ?_⟩
  have hmap : c.map (fun q => stringAt _ (strlen line) q.q) = _ :=
    reads_nulterminate (wf_ofString line) hreads
  rw [hmap] at hs
  obtain ⟨hargv, hfds⟩ := (hs.reaches (stdRedirs_wrap.2 trivial) hr).wired.simple here
  refine ⟨hargv, forall₂_congr fun fd hfd => ?_⟩
  rw [hfds fd (by omega)]
  generalize redirsOf fd (rs ++ rs') = l
  cases l with
  | nil => exact iff_of_true nofun rfl
  | cons r l =>
    rw [getLast?_cons]
    simp only [Option.mem_some_iff, forall_eq', head?_cons, Option.map_some, Option.some_or,
      Option.some.injEq, Obj.file.injEq, exists_and_left, exists_eq', and_true]

end

/-- `a<c>b>b` runs with `c` as descriptor 0 and `b` as descriptor 1. -/
theorem last_redirection_twice : ∃ c m, parsecmd [97, 60, 99, 62, 98, 62, 98] = .ok (c, m) ∧
    ∀ {inherited s s' p x argv k}, Starts (c.map fun q => stringAt m 7 q.q) inherited s →
      Relation.ReflTransGen (fun s s' => ∃ ok, Step shell ok s s') s s' →
      s'.Runs p x (.call (Sys.exec argv) k) →
      (∃ mode, x.fds 0 = some (.file [99] mode)) ∧ ∃ mode, x.fds 1 = some (.file [98] mode) := by
  have hargs : Args (tokens (([97, 60, 99, 62, 98, 62, 98] : List UInt8).takeWhile (· ≠ 0))) [[97]]
      [⟨.input, [99]⟩, ⟨.output, [98]⟩, ⟨.output, [98]⟩] [] := by
    have htokens : tokens (([97, 60, 99, 62, 98, 62, 98] : List UInt8).takeWhile (· ≠ 0)) =
        [.word [97], .arrow .input, .word [99], .arrow .output, .word [98], .arrow .output,
          .word [98]] := by
      decide +kernel
    rw [htokens]
    exact .cons (.cons (.cons (.cons .nil))) .nil
  obtain ⟨c, m, hrun, h⟩ := last_redirection_iff .nil hargs (by decide)
  refine ⟨c, m, hrun, fun hs hr here => ?_⟩
  have hlast := (h hs hr here).2.2 (by decide)
  exact ⟨hlast 0 (by decide) _ rfl, hlast 1 (by decide) _ rfl⟩

/-- `a>b>c` runs with `b` as descriptor 1. -/
theorem first_redirection_wins : ∃ c m, parsecmd [97, 62, 98, 62, 99] = .ok (c, m) ∧
    ∃ s s' x k, Starts (c.map fun q => stringAt m 5 q.q) consoleTable s ∧
      Relation.ReflTransGen (fun s s' => ∃ ok, Step shell ok s s') s s' ∧
      s'.Runs 0 x (.call (Sys.exec [[97]]) k) ∧ x.fds 1 = some (.file [98] 0x601) := by
  have hline : Line (tokens (([97, 62, 98, 62, 99] : List UInt8).takeWhile (· ≠ 0)))
      (.redir (.redir (.exec [[97]]) [98] 0x601 1) [99] 0x601 1) [] := by
    have htokens : tokens (([97, 62, 98, 62, 99] : List UInt8).takeWhile (· ≠ 0)) =
        [.word [97], .arrow .output, .word [98], .arrow .output, .word [99]] := by decide +kernel
    rw [htokens]
    exact .last (.pipe (.last (.simple .nil (.cons (.cons (.cons .nil)) .nil))))
  obtain ⟨c, hrun, hreads⟩ := parsecmd_complete hline (show 1 ≤ MAXARGS - 1 by decide)
  refine ⟨c, _, hrun, ?_⟩
  have hmap : c.map (fun q => stringAt _ 5 q.q) = _ := reads_nulterminate (wf_ofString _) hreads
  rw [hmap]
  refine ⟨_, _, _, _, starts_console, .head ⟨_, .close (p := 0) ⟨rfl, rfl⟩ rfl⟩
    (.head ⟨_, .openFile (p := 0) ⟨rfl, rfl⟩ rfl⟩ (.head ⟨_, .jump (p := 0) ⟨rfl, rfl⟩⟩
    (.head ⟨_, .close (p := 0) ⟨rfl, rfl⟩ rfl⟩ (.head ⟨_, .openFile (p := 0) ⟨rfl, rfl⟩ rfl⟩
    (.head ⟨_, .jump (p := 0) ⟨rfl, rfl⟩⟩ .refl))))), ⟨rfl, rfl⟩, ?_⟩
  rfl

end Xv6.Sh
