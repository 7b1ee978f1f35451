import Xv6.Sh.Wiring
import Xv6.Sh.Grammar

/-!
# Every command gets its descriptors

In every state that `runcmd` reaches, whatever the order in which the processes run and whichever
calls fail: a command is executed with the descriptors that the way to its node asks for, and the
write end of a pipe is held only by the left side of its node and by processes that still evaluate
the node and do not wait.
-/

namespace Xv6.Sh

open Lib User Function List

/-- The program of the processes. -/
abbrev shell (n : Node) : User.Code Node := runcmd n.cmd

/-- The way from the root to a node, the last step first. -/
inductive Path (root : Cmd Word) : List Node → Cmd Word → Prop
  | root : Path root [] root
  | down {τ c f c'} : Path root τ c → Child c f c' → Path root (⟨f, c'⟩ :: τ) c'

/-- What descriptor `fd` has to refer to at the end of a way: the file of the nearest redirection of
`fd`, or the end of the nearest pipe, or what it referred to before. -/
def Stands (s : State Node) (inherited : Table) (fd : Nat) : List Node → Option Obj → Prop
  | [], o => o = inherited fd
  | ⟨.redir fd' file mode, _⟩ :: τ, o =>
    if fd' = fd then o = some (.file file mode) else Stands s inherited fd τ o
  | ⟨.pipeLeft, _⟩ :: τ, o =>
    if fd = 1 then ∃ i, s.Made i τ ∧ o = some (.writeEnd i) else Stands s inherited fd τ o
  | ⟨.pipeRight, _⟩ :: τ, o =>
    if fd = 0 then ∃ i, s.Made i τ ∧ o = some (.readEnd i) else Stands s inherited fd τ o
  | ⟨.listLeft, _⟩ :: τ, o | ⟨.listRight, _⟩ :: τ, o | ⟨.back, _⟩ :: τ, o =>
    Stands s inherited fd τ o

/-- The process is on the left side of the pipe node at `τ`. -/
def Left (τ : List Node) (x : User.Proc Node) : Prop := ∃ c, ⟨.pipeLeft, c⟩ :: τ <:+ x.trail

/-- The process has exited. -/
def Exited (x : User.Proc Node) : Prop := x.run = .zombie ∨ x.run = .gone

def Waits (x : User.Proc Node) : Prop := ∃ k, x.run = .code (.call Sys.wait k)

/-- A command is executed with the descriptors of the redirections and pipes on its way. A pipe node
makes one pipe; neither its right side nor the process that waits for both sides has the write end,
so that no process has it once all of the left side has exited. -/
structure Wired (root : Cmd Word) (inherited : Table) (s : State Node) : Prop where
  exec : ∀ {p x argv k}, s.Runs p x (.call (Sys.exec argv) k) →
    Path root x.trail (.exec argv) ∧ ∀ fd < 3, Stands s inherited fd x.trail (x.fds fd)
  once : ∀ {i j τ}, s.Made i τ → s.Made j τ → i = j
  right : ∀ {p : Nat} {x c τ i}, s.procs[p]? = some x →
    ⟨.pipeRight, c⟩ :: τ <:+ x.trail → s.Made i τ →
    ¬Holds x.fds (.writeEnd i)
  waits : ∀ {p x k i}, s.Runs p x (.call Sys.wait k) → s.Made i x.trail → ¬Holds x.fds (.writeEnd i)
  eof : ∀ {i τ}, s.Made i τ → (∀ x ∈ s.procs, Left τ x → Exited x) →
    (∀ x ∈ s.procs, x.trail = τ → Waits x ∨ Exited x) → ¬s.Held (.writeEnd i)

/-- One process is about to evaluate `root`; the pipes that are there are not its own. -/
structure Starts (root : Cmd Word) (inherited : Table) (s : State Node) : Prop where
  procs : ∃ parent, s.procs = [⟨.code (runcmd root), inherited, parent, [], 0⟩]
  std : Std inherited
  valid : ∀ i, Holds inherited (.writeEnd i) → i < s.pipes.length
  others : ∀ pi ∈ s.pipes, pi.maker = none

/-! ## Worlds -/

section

variable {s s' : State Node} {root c : Cmd Word} {inherited : Table} {x : User.Proc Node}

theorem Path.stdRedirs {τ : List Node} (hroot : root.StdRedirs) (h : Path root τ c) :
    c.StdRedirs := by
  induction h with
  | root => exact hroot
  | down _ hchild ih =>
    cases hchild with
    | redir => exact ih.2
    | pipeLeft | listLeft => exact ih.1
    | pipeRight | listRight => exact ih.2
    | back => exact ih

theorem Stands.mono (h : ∀ i τ, s.Made i τ → s'.Made i τ) {fd : Nat} {τ : List Node}
    {o : Option Obj} (ho : Stands s inherited fd τ o) : Stands s' inherited fd τ o := by
  induction τ with
  | nil => exact ho
  | cons n τ ih =>
    obtain ⟨f, c⟩ := n
    cases f with
    | redir fd' file mode =>
      rw [Stands] at ho ⊢
      split at ho
      · rwa [if_pos ‹_›]
      · rw [if_neg ‹_›]
        exact ih ho
    | pipeLeft | pipeRight =>
      rw [Stands] at ho ⊢
      split at ho
      · rw [if_pos ‹_›]
        obtain ⟨i, hi, rfl⟩ := ho
        exact ⟨i, h i τ hi, rfl⟩
      · rw [if_neg ‹_›]
        exact ih ho
    | listLeft | listRight | back => exact ih ho

/-- What holds of every process. -/
structure Fits (root : Cmd Word) (inherited : Table) (s : State Node) (x : User.Proc Node) :
    Prop where
  block : ∀ c, x.run = .code c → ∃ cmd std own, Path root x.trail cmd ∧ Safe cmd std c own x.fds ∧
    (∀ fd < 3, (std fd).isSome ∧ Stands s inherited fd x.trail (std fd)) ∧ ∀ i, own = some i ↔
      s.Made i x.trail
  valid : ∀ i, Holds x.fds (.writeEnd i) → i < s.pipes.length
  writer : ∀ i τ, Holds x.fds (.writeEnd i) → s.Made i τ → x.trail = τ ∨ Left τ x
  closed : Exited x → ∀ fd, x.fds fd = none

theorem Fits.world (h : Fits root inherited s x) (hmono : ∀ i τ, s.Made i τ → s'.Made i τ)
    (hnew : ∀ i τ, s'.Made i τ → s.Made i τ ∨ s.pipes.length ≤ i ∧ τ ≠ x.trail)
    (hlen : s.pipes.length ≤ s'.pipes.length) : Fits root inherited s' x where
  block c hc := by
    obtain ⟨cmd, std, own, hpath, hsafe, hstd, hown⟩ := h.block c hc
    refine ⟨cmd, std, own, hpath, hsafe,
      fun fd hfd => ⟨(hstd fd hfd).1, (hstd fd hfd).2.mono hmono⟩, fun i => ?_⟩
    refine (hown i).trans ⟨hmono i _, fun hi => ?_⟩
    obtain hi | ⟨-, hne⟩ := hnew i _ hi
    · exact hi
    · exact absurd rfl hne
  valid i hi := (h.valid i hi).trans_le hlen
  writer i τ hi hmade := by
    obtain hmade | ⟨hle, -⟩ := hnew i τ hmade
    · exact h.writer i τ hi hmade
    · exact absurd (h.valid i hi) (Nat.not_lt.2 hle)
  closed := h.closed

theorem length_makers (s : State Node) : s.makers.length = s.pipes.length := length_map ..

theorem lt_of_made {i : Nat} {τ : List Node} (h : s.Made i τ) : i < s.pipes.length := by
  rw [← length_makers]
  exact (List.getElem?_eq_some_iff.1 h).1

theorem Fits.same (h : Fits root inherited s x) (heq : s'.makers = s.makers) :
    Fits root inherited s' x := by
  have hmade (i : Nat) (τ : List Node) : s'.Made i τ ↔ s.Made i τ := by
    rw [State.Made, heq, State.Made]
  refine h.world (fun i τ => (hmade i τ).2) (fun i τ hi => .inl ((hmade i τ).1 hi)) ?_
  rw [← length_makers, ← length_makers, heq]

/-- Only `pipe` gives a process the write end of a pipe. -/
theorem Effect.holds {o : Sys} {t t' : Table} {r : iface.Res o} {new : Option Nat}
    (h : Effect o t r new t') {i : Nat}
    (hi : Holds t' (.writeEnd i)) : Holds t (.writeEnd i) ∨ new = some i := by
  cases h with
  | close | closeFail | fork | wait | pipeFail | dupFail | openFail | execFail | read | write =>
    first
    | exact .inl hi
    | exact .inl ((holds_update hi).resolve_right nofun)
  | pipe =>
    obtain hi | hi := holds_update hi
    · exact .inl ((holds_update hi).resolve_right nofun)
    · cases hi
      exact .inr rfl
  | dup isOpen =>
    obtain hi | hi := holds_update hi
    · exact .inl hi
    · cases hi
      exact .inl ⟨_, of_get isOpen⟩
  | openFile => exact .inl ((holds_update hi).resolve_right nofun)

theorem Fits.effect {o : Sys} {k : iface.Res o → User.Code Node} {r : iface.Res o}
    {new : Option Nat} {t' : Table}
    {parent : Option Nat} {sent : Nat} (h : Fits root inherited s x)
    (hrun : x.run = .code (.call o k))
    (he : Effect o x.fds r new t') (hmono : ∀ i τ, s.Made i τ → s'.Made i τ)
    (hnew : ∀ i τ, s'.Made i τ → s.Made i τ ∨ new = some i ∧ τ = x.trail)
    (hmine : ∀ i, new = some i → s'.Made i x.trail ∧ s.pipes.length ≤ i)
    (hunique : ∀ {i j τ}, s'.Made i τ → s'.Made j τ → i = j)
    (hlen : s.pipes.length ≤ s'.pipes.length) :
    Fits root inherited s'
      { x with run := .code (k r), fds := t', parent := parent, sent := sent } where
  block c hc := by
    cases hc
    obtain ⟨cmd, std, own, hpath, hsafe, hstd, hown⟩ := h.block _ hrun
    refine ⟨cmd, std, new.or own, hpath, hsafe.2 r new t' he,
      fun fd hfd => ⟨(hstd fd hfd).1, (hstd fd hfd).2.mono hmono⟩, fun i => ?_⟩
    cases new with
    | none =>
      refine (hown i).trans ⟨hmono i _, fun hi => (hnew i _ hi).resolve_right nofun⟩
    | some j =>
      refine ⟨fun hi => (hmine i hi).1, fun hi => ?_⟩
      rw [hunique hi (hmine j rfl).1, Option.some_or]
  valid i hi := by
    obtain hi | rfl := he.holds hi
    · exact (h.valid i hi).trans_le hlen
    · exact lt_of_made (hmine i rfl).1
  writer i τ hi hmade := by
    obtain hold | ⟨-, rfl⟩ := hnew i τ hmade
    · obtain hi | rfl := he.holds hi
      · exact h.writer i τ hi hold
      · exact absurd (lt_of_made hold) (Nat.not_lt.2 (hmine i rfl).2)
    · exact .inl rfl
  closed hexit := by
    obtain hexit | hexit := hexit <;> cases hexit

theorem Leads.stands {own : Option Nat} {std std' : Table} {n : Node} {τ : List Node} {fd : Nat}
    (h : Leads own std n.frame std') (hstd : (std fd).isSome ∧ Stands s inherited fd τ (std fd))
    (hown : ∀ i, own = some i → s.Made i τ) : (std' fd).isSome ∧ Stands s inherited fd (n :: τ)
    (std' fd) := by
  obtain ⟨f, c⟩ := n
  cases h with
  | @redir fd' file mode =>
    rw [Stands]
    by_cases he : fd' = fd
    · subst he
      rw [update_self, if_pos rfl]
      exact ⟨rfl, rfl⟩
    · rw [update_of_ne (Ne.symm he), if_neg he]
      exact hstd
  | pipeLeft mine | pipeRight mine =>
    rw [Stands]
    split
    · subst fd
      rw [update_self]
      exact ⟨rfl, _, hown _ mine, rfl⟩
    · rw [update_of_ne ‹_›]
      exact hstd
  | listLeft | listRight | back => exact hstd

theorem Fits.jump {n : Node} (hroot : root.StdRedirs) (hl : Lineage s) {p : Nat}
    (hp : s.procs[p]? = some x) (h : Fits root inherited s x) (hrun : x.run = .code (.ret n)) :
    Fits root inherited s { x with run := .code (shell n), trail := n :: x.trail } where
  block c hc := by
    cases hc
    obtain ⟨cmd, std, own, hpath, ⟨hchild, ⟨std', hleads, hsame⟩, -⟩, hstd, hown⟩ := h.block _ hrun
    have hpath' : Path root (n :: x.trail) n.cmd := .down hpath hchild
    have hstd' (fd : Nat) (hfd : fd < 3) := hleads.stands (hstd fd hfd) fun i hi => (hown i).1 hi
    refine ⟨n.cmd, std', none, hpath', runcmd_safe (hpath'.stdRedirs hroot) ?_ hsame, hstd',
      fun i => ⟨nofun, fun hi => ?_⟩⟩
    · intro fd hfd
      rw [hsame fd hfd]
      exact (hstd' fd hfd).1
    · exact absurd ⟨_, hrun, .inr ⟨n, rfl, suffix_rfl⟩⟩ (hl.made hi hp)
  valid := h.valid
  writer i τ hi hmade := by
    obtain rfl | ⟨c, hleft⟩ := h.writer i τ hi hmade
    · obtain ⟨cmd, std, own, -, ⟨-, -, hframe⟩, -, hown⟩ := h.block _ hrun
      obtain hframe | hno := hframe
      · refine .inr ⟨n.cmd, ?_⟩
        rw [← hframe]
      · exact absurd hi (hno i ((hown i).2 hmade))
    · exact .inr ⟨c, hleft.trans (suffix_cons ..)⟩
  closed hexit := by
    obtain hexit | hexit := hexit <;> cases hexit

theorem Fits.stop {x' : User.Proc Node} (h : Fits root inherited s x) (htrail : x'.trail = x.trail)
    (hfds : ∀ i, Holds x'.fds (.writeEnd i) → Holds x.fds (.writeEnd i))
    (hrun : ∀ c, x'.run = .code c → x.run = .code c ∧ ∃ n k, c = .call (Sys.exit n) k)
    (hclosed : Exited x' → ∀ fd, x'.fds fd = none) : Fits root inherited s x' where
  block c hc := by
    obtain ⟨hc, n, k, rfl⟩ := hrun c hc
    obtain ⟨cmd, std, own, hpath, -, hstd⟩ := h.block _ hc
    rw [htrail]
    exact ⟨cmd, std, own, hpath, ⟨trivial, fun r => r.elim⟩, hstd⟩
  valid i hi := h.valid i (hfds i hi)
  writer i τ hi hmade := by
    rw [Left, htrail]
    exact h.writer i τ (hfds i hi) hmade
  closed := hclosed

/-! ## Runs -/

structure Inv (root : Cmd Word) (inherited : Table) (s : State Node) : Prop where
  lineage : Lineage s
  fits : ∀ {p : Nat} {x}, s.procs[p]? = some x → Fits root inherited s x

variable {s₁ : State Node} {p : Nat} {x' : User.Proc Node}

/-- One process changes, and the pipes as far as their contents go. -/
theorem Inv.set (h : Inv root inherited s) (hmakers : s₁.makers = s.makers)
    (hprocs : s₁.procs = s.procs)
    (hx : Fits root inherited s x') {q : Nat} {y : User.Proc Node}
    (hq : (s₁.set p x').procs[q]? = some y) :
    Fits root inherited (s₁.set p x') y := by
  have hy : Fits root inherited s y := by
    obtain ⟨-, rfl⟩ | ⟨-, hq⟩ := set_cases hq
    · exact hx
    · rw [hprocs] at hq
      exact h.fits hq
  exact hy.same hmakers

theorem Inv.fits_effect {o : Sys} {k : iface.Res o → User.Code Node} {r : iface.Res o} {t' : Table}
    {parent : Option Nat} {sent : Nat}
    (h : Inv root inherited s) (here : s.Runs p x (.call o k)) (he : Effect o x.fds r none t') :
    Fits root inherited s
      { x with run := .code (k r), fds := t', parent := parent, sent := sent } :=
  (h.fits here.1).effect here.2 he (fun _ _ => id) (fun _ _ => .inl) nofun h.lineage.unique le_rfl

theorem Inv.resume {o : Sys} {k : iface.Res o → User.Code Node} {r : iface.Res o} {t' : Table}
    (h : Inv root inherited s) (here : s.Runs p x (.call o k)) (he : Effect o x.fds r none t')
    (hmakers : s₁.makers = s.makers) (hprocs : s₁.procs = s.procs) {q : Nat} {y : User.Proc Node}
    (hq : (s₁.resume p { x with fds := t' } (k r)).procs[q]? = some y) :
    Fits root inherited (s₁.resume p { x with fds := t' } (k r)) y :=
  h.set hmakers hprocs (h.fits_effect here he) hq

theorem Inv.fits_fork {k : Int → User.Code Node} (h : Inv root inherited s)
    (here : s.Runs p x (.call Sys.fork k)) {q : Nat} {y : User.Proc Node}
    (hq : ((s.resume p x (k s.procs.length)).spawn
      { x with run := .code (k (0 : Int)), parent := some p }).procs[q]? = some y) :
    Fits root inherited
      ((s.resume p x (k s.procs.length)).spawn
        { x with run := .code (k (0 : Int)), parent := some p }) y := by
  have hy : Fits root inherited s y := by
    obtain ⟨-, rfl⟩ | hq := spawn_cases hq
    · exact h.fits_effect here (.fork 0)
    · obtain ⟨-, rfl⟩ | ⟨-, hq⟩ := set_cases hq
      · exact h.fits_effect here (.fork _)
      · exact h.fits hq
  exact hy.same rfl

theorem Inv.fits_wait {k : Int →
    User.Code Node} {q : Nat} {y : User.Proc Node} (h : Inv root inherited s)
    (here : s.Runs p x (.call Sys.wait k)) (child : s.procs[q]? = some y) (zombie : y.run = .zombie)
    {r : Nat} {z : User.Proc Node}
    (hr : ((s.set q { y with run := .gone }).resume p x (k q)).procs[r]? = some z) :
    Fits root inherited ((s.set q { y with run := .gone }).resume p x (k q)) z := by
  have hgone : Fits root inherited s { y with run := .gone } :=
    (h.fits child).stop rfl (fun i => id) nofun fun _ => (h.fits child).closed (.inl zombie)
  have hz : Fits root inherited s z := by
    obtain ⟨-, rfl⟩ | ⟨-, hr⟩ := set_cases hr
    · exact h.fits_effect here (.wait _)
    · obtain ⟨-, rfl⟩ | ⟨-, hr⟩ := set_cases hr
      · exact hgone
      · exact h.fits hr
  exact hz.same rfl

theorem Inv.fits_pipe {k : Option (Nat × Nat) → User.Code Node} {fd₀ fd₁ : Nat}
    (h : Inv root inherited s)
    (here : s.Runs p x (.call Sys.pipe k)) (hread : fdalloc x.fds = some fd₀)
    (hwrite : fdalloc (update x.fds fd₀ (some (.readEnd s.pipes.length))) = some fd₁)
    (hl : Lineage
      ((s.addPipe x.trail).resume p { x with fds := x.fds.addPipe s.pipes.length fd₀ fd₁ }
        (k (some (fd₀, fd₁)))))
    {q : Nat} {y : User.Proc Node}
    (hq : ((s.addPipe x.trail).resume p { x with fds := x.fds.addPipe s.pipes.length fd₀ fd₁ }
      (k (some (fd₀, fd₁)))).procs[q]? = some y) :
    Fits root inherited
      ((s.addPipe x.trail).resume p { x with fds := x.fds.addPipe s.pipes.length fd₀ fd₁ }
      (k (some (fd₀, fd₁)))) y := by
  have hmono (i : Nat) (τ : List Node) (hi : s.Made i τ) : (s.addPipe x.trail).Made i τ := by
    have hlt := lt_of_made hi
    rw [State.Made, State.makers, State.addPipe, map_append,
      getElem?_append_left (by rwa [length_map])]
    exact hi
  have hmine : (s.addPipe x.trail).Made s.pipes.length x.trail := by
    rw [State.Made, State.makers, State.addPipe, map_append,
      getElem?_append_right (by rw [length_map]), length_map, Nat.sub_self]
    rfl
  have hlen : s.pipes.length ≤ (s.addPipe x.trail).pipes.length := by
    rw [State.addPipe, length_append]
    omega
  obtain ⟨-, rfl⟩ | ⟨hne, hq⟩ := set_cases hq
  · have hfresh : ¬Holds x.fds (.writeEnd s.pipes.length) :=
      fun hi => (h.fits here.1).valid _ hi |>.false
    refine (h.fits here.1).effect here.2 (.pipe hfresh hread hwrite) hmono ?_ ?_ hl.unique hlen
    · intro i τ hi
      obtain hi | ⟨rfl, rfl⟩ := made_addPipe hi
      · exact .inl hi
      · exact .inr ⟨rfl, rfl⟩
    · rintro _ ⟨⟩
      exact ⟨hmine, le_rfl⟩
  · refine (h.fits hq).world hmono (fun i τ hi => ?_) hlen
    obtain hi | ⟨rfl, rfl⟩ := made_addPipe hi
    · exact .inl hi
    · have hahead : x.Ahead x.trail := ⟨_, here.2, .inl ⟨.inl rfl, rfl⟩⟩
      exact .inr ⟨le_rfl, (h.lineage.apart here.1 hq hne.symm hahead).2.symm⟩

theorem Inv.step
    (hroot : root.StdRedirs) {ok : Bool} (h : Inv root inherited s) (hs : Step shell ok s s') :
    Inv root inherited s' := by
  have hl := h.lineage.step (fun n => runcmd_linear n.cmd) hs
  refine ⟨hl, ?_⟩
  cases hs with
  | jump here => exact h.set rfl rfl ((h.fits here.1).jump hroot h.lineage here.1 here.2)
  | fork here => exact h.fits_fork here
  | pipe here hread hwrite => exact h.fits_pipe here hread hwrite hl
  | exitClose here =>
    refine h.set rfl rfl ?_
    refine (h.fits here.1).stop rfl (fun i => holds_close) (fun c hc => ⟨hc, ?_⟩) ?_
    · cases here.2.symm.trans hc
      exact ⟨_, _, rfl⟩
    · rintro (hexit | hexit) <;> cases here.2.symm.trans hexit
  | imageClose here image =>
    refine h.set rfl rfl ?_
    refine (h.fits here).stop rfl (fun i => holds_close) (fun c hc => ?_) ?_
    · cases image.symm.trans hc
    · rintro (hexit | hexit) <;> cases image.symm.trans hexit
  | exit here closed =>
    refine h.set rfl rfl ?_
    exact (h.fits here.1).stop rfl (fun i => id) nofun fun _ => closed
  | imageExit here image closed =>
    refine h.set rfl rfl ?_
    exact (h.fits here).stop rfl (fun i => id) nofun fun _ => closed
  | exec here =>
    refine h.set rfl rfl ?_
    refine (h.fits here.1).stop rfl (fun i => id) nofun ?_
    rintro (hexit | hexit) <;> cases hexit
  | wait here child mine zombie => exact h.fits_wait here child zombie
  | read here => exact h.resume here (.read _) makers_setPipe rfl
  | write here => exact h.resume here (.write _) makers_setPipe rfl
  | writePart here =>
    have hx := h.fits here.1
    intro q y hq
    refine h.set makers_setPipe rfl ?_ hq
    exact ⟨hx.block, hx.valid, hx.writer, hx.closed⟩
  | writeConsole here =>
    intro q y hq
    exact h.resume here (.write _) (by rfl) (by rfl) hq
  | forkFail here => exact h.resume here (.fork _) rfl rfl
  | waitNone here => exact h.resume here (.wait _) rfl rfl
  | pipeFail here => exact h.resume here .pipeFail rfl rfl
  | close here isOpen => exact h.resume here (.close isOpen) rfl rfl
  | closeFail here closed => exact h.resume here (.closeFail closed) rfl rfl
  | dup here isOpen free => exact h.resume here (.dup isOpen free) rfl rfl
  | dupFail here fails => exact h.resume here (.dupFail fails) rfl rfl
  | openFile here free => exact h.resume here (.openFile free) rfl rfl
  | openFail here => exact h.resume here .openFail rfl rfl
  | execFail here => exact h.resume here .execFail rfl rfl
  | readOther here | readFail here => exact h.resume here (.read _) rfl rfl
  | writeBroken here | writeFile here | writeFail here => exact h.resume here (.write _) rfl rfl

theorem Starts.inv (hroot : root.StdRedirs) (h : Starts root inherited s) :
    Inv root inherited s := by
  obtain ⟨parent, hprocs⟩ := h.procs
  have hmade (i : Nat) (τ : List Node) : ¬s.Made i τ := by
    intro hi
    rw [State.Made, State.makers, getElem?_map, Option.map_eq_some_iff] at hi
    obtain ⟨pi, hpi, hmaker⟩ := hi
    rw [h.others pi (mem_of_getElem? hpi)] at hmaker
    cases hmaker
  have hfirst {p : Nat} {x : User.Proc Node} (hp : s.procs[p]? = some x) :
      p = 0 ∧ x = ⟨.code (runcmd root), inherited, parent, [], 0⟩ := by
    rw [hprocs, getElem?_singleton] at hp
    split at hp
    · cases hp
      exact ⟨‹_›, rfl⟩
    · cases hp
  refine ⟨⟨?_, ?_, fun hi => absurd hi (hmade _ _), fun hi => absurd hi (hmade _ _)⟩, fun hp => ?_⟩
  · rintro p x c ⟨hp, hrun⟩
    obtain ⟨-, rfl⟩ := hfirst hp
    cases hrun
    exact runcmd_linear root
  · intro p q x y σ hp hq hne
    exact absurd ((hfirst hp).1.trans (hfirst hq).1.symm) hne
  · obtain ⟨-, rfl⟩ := hfirst hp
    refine ⟨?_, h.valid, fun i τ _ hi => absurd hi (hmade i τ), ?_⟩
    · rintro c ⟨⟩
      refine ⟨root, inherited, none, .root, runcmd_safe hroot h.std fun _ _ => rfl,
        fun fd hfd => ⟨h.std fd hfd, rfl⟩, ?_⟩
      exact fun i => ⟨by simp, fun hi => absurd hi (hmade i _)⟩
    · rintro (hexit | hexit) <;> cases hexit

theorem Inv.wired (h : Inv root inherited s) : Wired root inherited s where
  exec {p x argv k} here := by
    obtain ⟨cmd, std, own, hpath, ⟨⟨rfl, hsame⟩, -⟩, hstd, -⟩ := (h.fits here.1).block _ here.2
    refine ⟨hpath, fun fd hfd => ?_⟩
    rw [hsame fd hfd]
    exact (hstd fd hfd).2
  once := h.lineage.unique
  right {p x c τ i} hp hright hi hholds := by
    obtain htrail | ⟨c', hleft⟩ := (h.fits hp).writer i τ hholds hi
    · rw [htrail] at hright
      have := hright.length_le
      simp at this
    · have hsame := (suffix_of_suffix_length_le hleft hright (by simp)).eq_of_length (by simp)
      cases hsame
  waits {p x k i} here hi := by
    obtain ⟨cmd, std, own, -, ⟨hown, -⟩, -, hmade⟩ := (h.fits here.1).block _ here.2
    exact hown i ((hmade i).2 hi)
  eof {i τ} hi hleft hhere := by
    rintro ⟨x, hx, fd, hfd⟩
    obtain ⟨p, hp⟩ := mem_iff_getElem?.1 hx
    have hfits := h.fits hp
    have hopen (hexit : Exited x) : False := by
      rw [hfits.closed hexit fd] at hfd
      cases hfd
    obtain rfl | hl := hfits.writer i τ ⟨fd, hfd⟩ hi
    · obtain ⟨k, hwait⟩ | hexit := hhere x hx rfl
      · obtain ⟨cmd, std, own, -, ⟨hown, -⟩, -, hmade⟩ := hfits.block _ hwait
        exact hown i ((hmade i).2 hi) ⟨fd, hfd⟩
      · exact hopen hexit
    · exact hopen (hleft x hx hl)

end

/-- `runcmd` keeps the invariant, whatever the order in which its processes run and whichever calls
fail. -/
theorem Starts.reaches {root : Cmd Word} {inherited : Table} {s s' : State Node}
    (hs : Starts root inherited s)
    (hroot : root.StdRedirs)
    (hr : Relation.ReflTransGen (fun s s' => ∃ ok, Step shell ok s s') s s') :
    Inv root inherited s' := by
  induction hr with
  | refl => exact hs.inv hroot
  | tail _ hstep ih =>
    obtain ⟨ok, hstep⟩ := hstep
    exact ih.step hroot hstep

/-- `runcmd` wires every command. -/
theorem runcmd_wires {root : Cmd Word} {inherited : Table} {s s' : State Node}
    (hroot : root.StdRedirs) (hs : Starts root inherited s)
    (hr : Relation.ReflTransGen (fun s s' => ∃ ok, Step shell ok s s') s s') :
    Wired root inherited s' :=
  (hs.reaches hroot hr).wired

/-! ## Commands of the grammar -/

theorem stdRedirs_wrap {c : Cmd Word} {rs : List Redir} : (c.wrap rs).StdRedirs ↔ c.StdRedirs := by
  induction rs generalizing c with
  | nil => rfl
  | cons r rs ih =>
    refine ih.trans ⟨And.right, fun h => ⟨?_, h⟩⟩
    cases r.arrow <;> decide

mutual

theorem Line.stdRedirs {ts c rest} : Line ts c rest → c.StdRedirs
  | .last h => h.stdRedirs
  | .list h h' => ⟨h.stdRedirs, h'.stdRedirs⟩

theorem Job.stdRedirs {ts c rest} : Job ts c rest → c.StdRedirs
  | .pipe h => h.stdRedirs
  | .back h => h.stdRedirs

theorem Pipe.stdRedirs {ts c rest} : Pipe ts c rest → c.StdRedirs
  | .last h => h.stdRedirs
  | .pipe h h' => ⟨h.stdRedirs, h'.stdRedirs⟩

theorem Exec.stdRedirs {ts c rest} : Exec ts c rest → c.StdRedirs
  | .block h _ => stdRedirs_wrap.2 h.stdRedirs
  | .simple _ _ => stdRedirs_wrap.2 trivial

end

/-- `a | b` on the console. -/
def twoCommands : Cmd Word := .pipe (.exec [[97]]) (.exec [[98]])

theorem starts_console {root : Cmd Word} :
    Starts root consoleTable ⟨[⟨.code (runcmd root), consoleTable, none, [], 0⟩], [], []⟩ := by
  refine ⟨⟨none, rfl⟩, fun fd hfd => ?_, ?_, nofun⟩
  · rw [consoleTable, if_pos hfd]
    rfl
  · rintro i ⟨fd, hfd⟩
    rw [consoleTable] at hfd
    split at hfd <;> cases hfd

/-- A run up to the `exec` of `a`. -/
theorem runcmd_wires_left : ∃ s s', Starts twoCommands consoleTable s ∧
    Relation.ReflTransGen (fun s s' => ∃ ok, Step shell ok s s') s s' ∧
    (∃ x k, s'.Runs 1 x (.call (Sys.exec [[97]]) k)) ∧ Wired twoCommands consoleTable s' := by
  have hrun : ∃ s', Relation.ReflTransGen (fun s s' => ∃ ok, Step shell ok s s')
      ⟨[⟨.code (runcmd twoCommands), consoleTable, none, [], 0⟩], [], []⟩ s' ∧
      ∃ x k, s'.Runs 1 x (.call (Sys.exec [[97]]) k) := by
    refine ⟨_, .head ⟨_, .pipe (p := 0) ⟨rfl, rfl⟩ rfl rfl⟩ (.head ⟨_, .fork (p := 0) ⟨rfl, rfl⟩⟩
      (.head ⟨_, .close (p := 1) ⟨rfl, rfl⟩ rfl⟩ (.head ⟨_, .dup (p := 1) ⟨rfl, rfl⟩ rfl rfl⟩
      (.head ⟨_, .close (p := 1) ⟨rfl, rfl⟩ rfl⟩ (.head ⟨_, .close (p := 1) ⟨rfl, rfl⟩ rfl⟩
      (.head ⟨_, .jump (p := 1) ⟨rfl, rfl⟩⟩ .refl)))))), _, _, rfl, rfl⟩
  obtain ⟨s', hr, hexec⟩ := hrun
  exact ⟨_, s', starts_console, hr, hexec, runcmd_wires ⟨trivial, trivial⟩ starts_console hr⟩

end Xv6.Sh
