import Xv6.Sh.Run
import Xv6.User.Descriptors
import Xv6.User.Lineage

/-!
# `runcmd` wires every command

A block of `runcmd` is checked alone, against what each system call can do to the descriptors of its
caller (`Effect`): it calls `exec` with the descriptors 0 to 2 that the way to its node asks for,
and it holds the write end of its own pipe neither while it waits nor below any other node than the
left one (`Safe`).
-/

namespace Xv6.Sh

open Lib User Function

/-! ## Descriptors -/

/-- What a system call can do to the descriptors of its caller: the result, the pipe it makes, and
the table afterwards. -/
inductive Effect : (o : Sys) → Table → iface.Res o → Option Nat → Table → Prop
  | fork {t} (r : Int) : Effect Sys.fork t r none t
  | wait {t} (r : Int) : Effect Sys.wait t r none t
  | pipe {t i fd₀ fd₁} (fresh : ¬Holds t (.writeEnd i)) (read : fdalloc t = some fd₀)
    (write : fdalloc (update t fd₀ (some (.readEnd i))) = some fd₁) :
    Effect Sys.pipe t (some (fd₀, fd₁) : Option (Nat × Nat)) (some i) (t.addPipe i fd₀ fd₁)
  | pipeFail {t} : Effect Sys.pipe t (none : Option (Nat × Nat)) none t
  | close {t fd} {o : Obj} (isOpen : t.get fd = some o) :
    Effect (Sys.close fd) t (0 : Int) none (update t fd none)
  | closeFail {t fd} (closed : t.get fd = none) : Effect (Sys.close fd) t (-1 : Int) none t
  | dup {t fd fd'} {o : Obj} (isOpen : t.get fd = some o) (free : fdalloc t = some fd') :
    Effect (Sys.dup fd) t (fd' : Int) none (update t fd' (some o))
  | dupFail {t fd} (fails : t.get fd = none ∨ fdalloc t = none) :
      Effect (Sys.dup fd) t (-1 : Int) none t
  | openFile {t path mode fd} (free : fdalloc t = some fd) :
    Effect (Sys.open path mode) t (fd : Int) none (update t fd (some (.file path mode)))
  | openFail {t path mode} : Effect (Sys.open path mode) t (-1 : Int) none t
  | execFail {t argv} : Effect (Sys.exec argv) t (-1 : Int) none t
  | read {t fd n} (r : Option (List UInt8)) : Effect (Sys.read fd n) t r none t
  | write {t fd bs} (r : Int) : Effect (Sys.write fd bs) t r none t

/-! ## Blocks -/

/-- What the descriptors have to be at a node below, from what they have to be here. -/
inductive Leads (own : Option Nat) (std : Table) : Frame → Table → Prop
  | redir {fd file mode} : Leads own std (.redir fd file mode)
      (update std fd (some (.file file mode)))
  | pipeLeft {i} (mine : own = some i) : Leads own std .pipeLeft (update std 1 (some (.writeEnd i)))
  | pipeRight {i} (mine : own = some i) :
      Leads own std .pipeRight (update std 0 (some (.readEnd i)))
  | listLeft : Leads own std .listLeft std
  | listRight : Leads own std .listRight std
  | back : Leads own std .back std

/-- The table has the descriptors 0, 1 and 2 of another one. -/
def SameStd (t std : Table) : Prop := ∀ fd < 3, t fd = std fd

/-- Before a system call: `exec` is called with the right descriptors, and nobody waits with the
write end of the own pipe. -/
def Pre (cmd : Cmd Word) (std : Table) (own : Option Nat) (t : Table) : Sys → Prop
  | .exec argv => cmd = .exec argv ∧ SameStd t std
  | .wait => ∀ i, own = some i → ¬Holds t (.writeEnd i)
  | _ => True

/-- The rest of a block for the node `cmd`, run with the table `t` after it has made the pipe `own`.
-/
def Safe (cmd : Cmd Word) (std : Table) : (c : User.Code Node) → (own : Option Nat) →
    (t : Table) → Prop
  | .ret n, own, t => Child cmd n.frame n.cmd ∧
      (∃ std', Leads own std n.frame std' ∧ SameStd t std') ∧
    (n.frame = .pipeLeft ∨ ∀ i, own = some i → ¬Holds t (.writeEnd i))
  | .call o k, own, t => Pre cmd std own t o ∧
    ∀ r new t', Effect o t r new t' → Safe cmd std (k r) (new.or own) t'

section

variable {cmd : Cmd Word} {std t : Table} {own : Option Nat}

theorem safe_exit {n : Int} : Safe cmd std (exit n) own t := ⟨trivial, fun r => r.elim⟩

variable {fd : Nat}

theorem safe_puts {bs : List UInt8} {f : Unit → User.Code Node} (h : Safe cmd std (f ()) own t) :
    Safe cmd std (puts fd bs >>= f) own t := by
  induction bs with
  | nil => exact h
  | cons c bs ih =>
    refine ⟨trivial, fun r new t' he => ?_⟩
    cases he with
    | write r => exact ih

theorem safe_panic {α : Type} {s : String} {f : α → User.Code Node} :
    Safe cmd std (panic s >>= f) own t := by
  rw [panic, Prog.bind_eq, Prog.bind_eq, Prog.bind_assoc]
  exact safe_puts ⟨trivial, fun r => r.elim⟩

variable {f : Int → User.Code Node}

theorem safe_fork1 (h : ∀ r, Safe cmd std (f r) own t) :
    Safe cmd std (fork1 >>= f) own t := by
  refine ⟨trivial, fun (r : Int) new t' he => ?_⟩
  cases he with
  | fork =>
    show Safe cmd std ((if r = -1 then panic "fork" else pure r) >>= f) own t
    split
    · exact safe_panic
    · exact h r

theorem safe_wait (hown : ∀ i, own = some i → ¬Holds t (.writeEnd i))
    (h : ∀ r, Safe cmd std (f r) own t) : Safe cmd std (wait >>= f) own t := by
  refine ⟨hown, fun r new t' he => ?_⟩
  cases he with
  | wait r => exact h r

variable {o : Obj}

theorem safe_close (hopen : t.get fd = some o)
    (h : ∀ r, Safe cmd std (f r) own (update t fd none)) : Safe cmd std (close fd >>= f) own t := by
  refine ⟨trivial, fun r new t' he => ?_⟩
  cases he with
  | close => exact h _
  | closeFail hclosed => cases hopen.symm.trans hclosed

theorem safe_dup {fd' : Nat} (hopen : t.get fd = some o)
    (hfree : fdalloc t = some fd') (h : ∀ r, Safe cmd std (f r) own (update t fd' (some o))) :
    Safe cmd std (dup fd >>= f) own t := by
  refine ⟨trivial, fun r new t' he => ?_⟩
  cases he with
  | dup hopen' hfree' =>
    cases hopen.symm.trans hopen'
    cases hfree.symm.trans hfree'
    exact h _
  | dupFail hfails =>
    obtain hfails | hfails := hfails
    · cases hopen.symm.trans hfails
    · cases hfree.symm.trans hfails

variable {mode : Nat}

theorem safe_open {path : Word} (hfree : fdalloc t = some fd)
    (hfail : Safe cmd std (f (-1)) own t)
    (h : Safe cmd std (f fd) own (update t fd (some (.file path mode)))) :
    Safe cmd std («open» path mode >>= f) own t := by
  refine ⟨trivial, fun r new t' he => ?_⟩
  cases he with
  | openFile hfree' =>
    cases hfree.symm.trans hfree'
    exact h
  | openFail => exact hfail

theorem safe_pipe {f : Option (Nat × Nat) → User.Code Node} (hfail : Safe cmd std (f none) own t)
    (h : ∀ i fd₀ fd₁, ¬Holds t (.writeEnd i) → fdalloc t = some fd₀ →
      fdalloc (update t fd₀ (some (.readEnd i))) = some fd₁ →
      Safe cmd std (f (some (fd₀, fd₁))) (some i) (t.addPipe i fd₀ fd₁)) :
    Safe cmd std (pipe >>= f) own t := by
  refine ⟨trivial, fun r new t' he => ?_⟩
  cases he with
  | pipe hfresh hread hwrite => exact h _ _ _ hfresh hread hwrite
  | pipeFail => exact hfail

variable {c : Cmd Word}

theorem safe_redir {file : Word} (hstd : Std t) (hsame : SameStd t std) (hfd : fd < 3) :
    Safe (.redir c file mode fd) std (runcmd (.redir c file mode fd)) none t := by
  obtain ⟨o, ho⟩ := hstd.get hfd
  refine safe_close ho fun _ => safe_open (hstd.fdalloc_closed hfd) (safe_puts safe_exit) ?_
  show Safe _ std (if (fd : Int) < 0 then _ else _) _ _
  rw [if_neg (by omega)]
  refine ⟨.redir, ⟨_, .redir, fun i hi => ?_⟩, .inr nofun⟩
  by_cases he : i = fd
  · subst he
    rw [update_self, update_self]
  · rw [update_of_ne he, update_of_ne he, update_of_ne he]
    exact hsame i hi

variable {l r : Cmd Word}

theorem safe_list (hsame : SameStd t std) : Safe (.list l r) std (runcmd (.list l r)) none t := by
  refine safe_fork1 fun pid => ?_
  show Safe _ std (if pid = 0 then _ else _) _ _
  split
  · exact ⟨.listLeft, ⟨_, .listLeft, hsame⟩, .inr nofun⟩
  · exact safe_wait nofun fun _ => ⟨.listRight, ⟨_, .listRight, hsame⟩, .inr nofun⟩

theorem safe_back (hsame : SameStd t std) : Safe (.back c) std (runcmd (.back c)) none t := by
  refine safe_fork1 fun pid => ?_
  show Safe _ std (if pid = 0 then _ else _) _ _
  split
  · exact ⟨.back, ⟨_, .back, hsame⟩, .inr nofun⟩
  · exact safe_exit

theorem safe_exec {argv : List Word} (hsame : SameStd t std) :
    Safe (.exec argv) std (runcmd (.exec argv)) none t := by
  cases argv with
  | nil => exact safe_exit
  | cons path args =>
    refine ⟨⟨rfl, hsame⟩, fun r new t' he => ?_⟩
    cases he with
    | execFail => exact safe_puts safe_exit

/-- Both ends of a new pipe are above the standard descriptors. -/
structure Piped (t : Table) (i fd₀ fd₁ : Nat) : Prop where
  std : Std t
  fresh : ¬Holds t (.writeEnd i)
  read : t fd₀ = none
  write : t fd₁ = none
  ne : fd₀ ≠ fd₁
  read_lt : fd₀ < NOFILE
  write_lt : fd₁ < NOFILE

namespace Piped

variable {i fd₀ fd₁ : Nat}

theorem of_alloc (hstd : Std t) (hfresh : ¬Holds t (.writeEnd i)) (hread : fdalloc t = some fd₀)
    (hwrite : fdalloc (update t fd₀ (some (.readEnd i))) = some fd₁) : Piped t i fd₀ fd₁ := by
  obtain ⟨hread, hread_lt, -⟩ := fdalloc_spec hread
  obtain ⟨hwrite, hwrite_lt, -⟩ := fdalloc_spec hwrite
  have hne : fd₀ ≠ fd₁ := by
    rintro rfl
    rw [update_self] at hwrite
    cases hwrite
  rw [update_of_ne hne.symm] at hwrite
  exact ⟨hstd, hfresh, hread, hwrite, hne, hread_lt, hwrite_lt⟩

theorem addPipe_write : t.addPipe i fd₀ fd₁ fd₁ = some (.writeEnd i) := update_self ..

variable (h : Piped t i fd₀ fd₁)

include h

theorem three_le_read : 3 ≤ fd₀ := h.std.three_le h.read

theorem three_le_write : 3 ≤ fd₁ := h.std.three_le h.write

variable {fd : Nat}

theorem addPipe_of_lt (hfd : fd < 3) : t.addPipe i fd₀ fd₁ fd = t fd := by
  have := h.three_le_read
  have := h.three_le_write
  rw [Table.addPipe, update_of_ne (by omega), update_of_ne (by omega)]

theorem addPipe_read : t.addPipe i fd₀ fd₁ fd₀ = some (.readEnd i) := by
  rw [Table.addPipe, update_of_ne h.ne, update_self]

/-- `close(fd); dup(p[j]); close(p[0]); close(p[1])` puts one end of the pipe in the place of `fd`.
-/
theorem safe_move {fdj : Nat} {o : Obj} {c : User.Code Node} (hfd : fd < 3)
    (hj : fdj = fd₀ ∨ fdj = fd₁)
    (ho : t.addPipe i fd₀ fd₁ fdj = some o) (hc : Safe cmd std c own (update t fd (some o))) :
    Safe cmd std (close fd >>= fun _ => dup fdj >>= fun _ => close fd₀ >>= fun _ => close fd₁ >>=
      fun _ => c) own
      (t.addPipe i fd₀ fd₁) := by
  have hread := h.three_le_read
  have hwrite := h.three_le_write
  have hstd : Std (t.addPipe i fd₀ fd₁) := fun k hk => by
    rw [h.addPipe_of_lt hk]
    exact h.std k hk
  have hj_lt : fdj < NOFILE := by
    obtain rfl | rfl := hj
    · exact h.read_lt
    · exact h.write_lt
  obtain ⟨o', ho'⟩ := hstd.get hfd
  refine safe_close ho' fun _ => safe_dup (o := o) ?_ (hstd.fdalloc_closed hfd) fun _ => ?_
  · rw [get_of_lt hj_lt, update_of_ne (by omega), ho]
  refine safe_close (o := .readEnd i) ?_ fun _ => safe_close (o := .writeEnd i) ?_ fun _ => ?_
  · rw [get_of_lt h.read_lt, update_of_ne (by omega), update_of_ne (by omega), h.addPipe_read]
  · rw [get_of_lt h.write_lt, update_of_ne h.ne.symm, update_of_ne (by omega),
      update_of_ne (by omega), addPipe_write]
  · have heq : update (update (update (update (t.addPipe i fd₀ fd₁) fd none) fd
        (some o)) fd₀ none) fd₁ none = update t fd (some o) := by
      funext k
      by_cases hk₁ : k = fd₁
      · subst hk₁
        rw [update_self, update_of_ne (by omega), h.write]
      by_cases hk₀ : k = fd₀
      · subst hk₀
        rw [update_of_ne hk₁, update_self, update_of_ne (by omega), h.read]
      by_cases hk : k = fd
      · subst hk
        rw [update_of_ne hk₁, update_of_ne hk₀, update_self, update_self]
      · rw [update_of_ne hk₁, update_of_ne hk₀, update_of_ne hk, update_of_ne hk,
          update_of_ne hk, Table.addPipe, update_of_ne hk₁, update_of_ne hk₀]
    rw [heq]
    exact hc

theorem close_close : update (update (t.addPipe i fd₀ fd₁) fd₀ none) fd₁ none = t := by
  funext k
  by_cases hk₁ : k = fd₁
  · subst hk₁
    rw [update_self, h.write]
  by_cases hk₀ : k = fd₀
  · subst hk₀
    rw [update_of_ne hk₁, update_self, h.read]
  · rw [update_of_ne hk₁, update_of_ne hk₀, Table.addPipe, update_of_ne hk₁,
      update_of_ne hk₀]

end Piped

theorem safe_runPipe (hstd : Std t) (hsame : SameStd t std) :
    Safe (.pipe l r) std (runcmd (.pipe l r)) none t := by
  refine safe_pipe (safe_puts safe_exit) fun i fd₀ fd₁ hfresh hread hwrite => ?_
  have h := Piped.of_alloc hstd hfresh hread hwrite
  have moved {fd : Nat} {o : Obj} : SameStd (update t fd (some o)) (update std fd (some o)) := by
    intro k hk
    by_cases he : k = fd
    · subst he
      rw [update_self, update_self]
    · rw [update_of_ne he, update_of_ne he]
      exact hsame k hk
  refine safe_fork1 fun pid => ?_
  show Safe _ std (if pid = 0 then _ else _) _ _
  split
  · refine h.safe_move (by omega) (.inr rfl) Piped.addPipe_write ?_
    exact ⟨.pipeLeft, ⟨_, .pipeLeft rfl, moved⟩, .inl rfl⟩
  · refine safe_fork1 fun pid => ?_
    show Safe _ std (if pid = 0 then _ else _) _ _
    split
    · refine h.safe_move (by omega) (.inl rfl) h.addPipe_read ?_
      refine ⟨.pipeRight, ⟨_, .pipeRight rfl, moved⟩, .inr ?_⟩
      rintro _ ⟨⟩ ⟨k, hk⟩
      by_cases he : k = 0
      · subst he
        rw [update_self] at hk
        cases hk
      · rw [update_of_ne he] at hk
        exact hfresh ⟨k, hk⟩
    · refine safe_close (o := .readEnd i) ?_ fun _ => safe_close (o := .writeEnd i) ?_ fun _ => ?_
      · rw [get_of_lt h.read_lt, h.addPipe_read]
      · rw [get_of_lt h.write_lt, update_of_ne h.ne.symm, Piped.addPipe_write]
      · rw [h.close_close]
        have hown : ∀ j, (some i : Option Nat).or none = some j → ¬Holds t (.writeEnd j) := by
          rintro _ ⟨⟩
          exact hfresh
        exact safe_wait hown fun _ => safe_wait hown fun _ => safe_exit

/-- Every redirection is one of descriptor 0, 1 or 2. -/
def Cmd.StdRedirs {α : Type} : Cmd α → Prop
  | exec _ => True
  | redir cmd _ _ fd => fd < 3 ∧ cmd.StdRedirs
  | pipe left right | list left right => left.StdRedirs ∧ right.StdRedirs
  | back cmd => cmd.StdRedirs

theorem runcmd_safe (hc : c.StdRedirs) (hstd : Std t) (hsame : SameStd t std) :
    Safe c std (runcmd c) none t := by
  cases c with
  | exec argv => exact safe_exec hsame
  | redir c file mode fd => exact safe_redir hstd hsame hc.1
  | pipe l r => exact safe_runPipe hstd hsame
  | list l r => exact safe_list hsame
  | back c => exact safe_back hsame

end

/-! ## Each node is evaluated once -/

/-- A block that makes no pipe and ends at nodes with `P`. -/
structure Tame (P : Node → Prop) (c : User.Code Node) : Prop where
  linear : Linear c
  noPipe : ¬MayPipe c
  ends : ∀ {n}, EndsAt c n → P n

section

variable {P Q : Node → Prop}

theorem tame_ret {n : Node} (h : P n) : Tame P (.ret n) := ⟨trivial, id, fun | rfl => h⟩

theorem tame_call {o : Sys} {k : iface.Res o → User.Code Node} (h : ∀ r, Tame P (k r))
    (hfork : o ≠ .fork := by nofun) (hpipe : o ≠ .pipe := by nofun) : Tame P (.call o k) where
  linear := by
    refine ⟨fun r => (h r).linear, fun hop => absurd hop (not_or.2 ⟨hfork, hpipe⟩), ?_⟩
    cases o <;> trivial
  noPipe := by
    rintro (hop | ⟨r, hr⟩)
    · exact hpipe hop
    · exact (h r).noPipe hr
  ends := fun ⟨r, hr⟩ => (h r).ends hr

theorem tame_exit {n : Int} : Tame P (exit n) := tame_call fun r => r.elim

theorem tame_puts {fd : Nat} {bs : List UInt8} {f : Unit → User.Code Node} (h : Tame P (f ())) :
    Tame P (puts fd bs >>= f) := by
  induction bs with
  | nil => exact h
  | cons c bs ih => exact tame_call fun _ => ih

theorem tame_panic {α : Type} {s : String} {f : α → User.Code Node} : Tame P (panic s >>= f) := by
  rw [panic, Prog.bind_eq, Prog.bind_eq, Prog.bind_assoc]
  exact tame_puts (tame_call fun r => r.elim)

theorem tame_fork1 {x y : User.Code Node} (hx : Tame P x) (hy : Tame Q y)
    (hdisj : ∀ n, P n → ¬Q n) :
    Tame (fun n => P n ∨ Q n) (fork1 >>= fun pid => if pid = 0 then x else y) := by
  let child (r : Int) : User.Code Node :=
    (if r = -1 then panic "fork" else pure r) >>= fun pid => if pid = 0 then x else y
  have hzero : child 0 = x := rfl
  have hother (r : Int) (hr : r ≠ 0) : Tame Q (child r) := by
    show Tame Q ((if r = -1 then panic "fork" else pure r) >>= fun pid => if pid = 0 then x else y)
    split
    · exact tame_panic
    · show Tame Q (if r = 0 then x else y)
      rw [if_neg hr]
      exact hy
  have hall (r : Int) : Tame (fun n => P n ∨ Q n) (child r) := by
    by_cases hr : r = 0
    · subst hr
      exact ⟨hx.linear, hx.noPipe, fun h => .inl (hx.ends h)⟩
    · have h := hother r hr
      exact ⟨h.linear, h.noPipe, fun hn => .inr (h.ends hn)⟩
  refine ⟨⟨fun r => (hall r).linear, fun _ r => (hall r).noPipe, fun n r hn hr hn' => ?_⟩, ?_,
    fun ⟨r, hn⟩ => (hall r).ends hn⟩
  · exact hdisj n (hx.ends hn) ((hother r hr).ends hn')
  · rintro (⟨⟨⟩⟩ | ⟨r, hr⟩)
    exact (hall r).noPipe hr

theorem linear_pipe {f : Option (Nat × Nat) → User.Code Node} (h : ∀ p, Tame P (f p)) :
    Linear (pipe >>= f) :=
  ⟨fun p => (h p).linear, fun _ p => (h p).noPipe, trivial⟩

theorem runcmd_linear (c : Cmd Word) : Linear (runcmd c) := by
  cases c with
  | exec argv =>
    cases argv with
    | nil => exact (tame_exit (P := fun _ => True)).linear
    | cons path args =>
      have h : Tame (fun _ => True) (runcmd (.exec (path :: args))) :=
        tame_call fun _ => tame_puts tame_exit
      exact h.linear
  | redir c file mode fd =>
    have h : Tame (fun _ => True) (runcmd (.redir c file mode fd)) := by
      refine tame_call fun _ => tame_call fun (r : Int) => ?_
      show Tame _ (if r < 0 then _ else _)
      split
      · exact tame_puts tame_exit
      · exact tame_ret trivial
    exact h.linear
  | list l r =>
    refine (tame_fork1 (P := (·.frame = .listLeft)) (Q := (·.frame = .listRight))
      (tame_ret rfl) ?_ ?_).linear
    · exact tame_call fun _ => tame_ret rfl
    · intro n hl hr
      cases hl.symm.trans hr
  | pipe l r =>
    refine linear_pipe (P := fun n => n.frame = .pipeLeft ∨ n.frame = .pipeRight ∨
      False) fun p => ?_
    cases p with
    | none => exact tame_puts tame_exit
    | some p =>
      refine tame_fork1 ?_ (tame_fork1 ?_ ?_ fun _ _ => id) ?_
      · exact tame_call fun _ => tame_call fun _ => tame_call fun _ =>
          tame_call fun _ => tame_ret rfl
      · exact tame_call fun _ => tame_call fun _ => tame_call fun _ =>
          tame_call fun _ => tame_ret rfl
      · exact tame_call fun _ => tame_call fun _ => tame_call fun _ => tame_call fun _ => tame_exit
      · rintro n hl (hr | ⟨⟨⟩⟩)
        cases hl.symm.trans hr
  | back c =>
    refine (tame_fork1 (P := (·.frame = .back)) (Q := fun _ => False) (tame_ret rfl)
      tame_exit ?_).linear
    exact fun _ _ => id

end

end Xv6.Sh
