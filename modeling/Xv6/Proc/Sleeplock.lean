import Xv6.Proc.Table
import Xv6.Lib.Concur

/-!
# Sleep-locks

`acquiresleep`, `releasesleep` and `holdingsleep` of `kernel/sleeplock.c` over `sleep` and `wakeup`,
for any number of processes. `sleep` takes `p->lock` before it lets go of `lk->lk`, and marks the
process as `SLEEPING` after that; nobody else looks at the process before it has given up `p->lock`
in `sched`. What the others do to a process under its lock is one step.
-/

namespace Xv6.Sleeplock

open Lib Function List

inductive Chan where
  | lock
  | other (n : Nat)
  deriving DecidableEq, Repr

structure St (n : Nat) where
  -- who holds `lk->lk`
  lk : Option (Fin n)
  locked : Bool
  pid : BitVec 32
  proc : Fin n → Proc Chan
  -- the process holds its `p->lock` in `sleep`
  self : Fin n → Bool
  -- the process has set `lk->locked` and not cleared it since
  holds : Fin n → Bool

inductive Op (n : Nat) where
  -- `lk->lk`
  | acquire
  | release
  | locked
  -- `lk->locked = 1; lk->pid = myproc()->pid`
  | take
  -- `lk->locked = 0; lk->pid = 0`
  | clear
  -- the body of the loop of `wakeup(lk)`
  | wakeup (q : Fin n)
  | holding
  -- `acquire(&p->lock)` in `sleep`, `p->chan = chan; p->state = SLEEPING`, `sched()`, and what
  -- follows
  | lockSelf
  | mark
  | sched
  | awake
  -- anything else the process does to its entry
  | other (x : Proc Chan)
  -- out of fuel
  | stop

abbrev iface (n : Nat) : Iface where
  Op := Op n
  Res
    | .locked | .holding => Bool
    | _ => Unit

inductive Panic where
  | acquire | release
  deriving DecidableEq, Repr

variable {n : Nat}

def St.setProc (s : St n) (q : Fin n) (x : Proc Chan) : St n :=
  { s with proc := update s.proc q x }

/-- What `holdingsleep` returns to `q`. -/
def St.holding (s : St n) (q : Fin n) : Bool := s.locked && s.pid == (s.proc q).pid

def step (p : Fin n) : (o : Op n) → St n → Outcome Panic ((iface n).Res o × St n)
  | .acquire, s =>
    match s.lk with
    | none => .ok ((), { s with lk := some p })
    | some q => if q = p then .panic .acquire else .blocked
  | .release, s => if s.lk = some p then .ok ((), { s with lk := none }) else .panic .release
  | .locked, s => .ok (s.locked, s)
  | .take, s => .ok ((), { s with
      locked := true, pid := (s.proc p).pid, holds := update s.holds p true })
  | .clear, s => .ok ((), { s with
      locked := false, pid := 0, holds := update s.holds p false })
  | .wakeup q, s =>
    if q = p then .ok ((), s)
    else if s.self q then .blocked
    else .ok ((), s.setProc q ((s.proc q).wakeup .lock))
  | .holding, s => .ok (s.holding p, s)
  | .lockSelf, s =>
    if s.self p then .panic .acquire else .ok ((), { s with self := update s.self p true })
  | .mark, s => .ok ((), s.setProc p ((s.proc p).sleep .lock))
  | .sched, s => .ok ((), { s with self := update s.self p false })
  | .awake, s => .ok ((), s.setProc p (s.proc p).awake)
  | .other x, s => .ok ((), s.setProc p x)
  | .stop, _ => .blocked

/-- A process makes steps while it runs, and in `sleep` up to `sched`. -/
def exec (p : Fin n) (o : Op n) (s : St n) : Outcome Panic ((iface n).Res o × St n) :=
  if (s.proc p).state = .running ∨ s.self p = true then step p o s else .blocked

/-! ## The code -/

abbrev Code (n : Nat) (α : Type) := Prog (iface n) α

def op (o : Op n) : Code n ((iface n).Res o) := Prog.perform (E := iface n) o

/-- `sleep(lk, &lk->lk)`. -/
def sleep : Code n Unit := do
  op .lockSelf
  op .release
  op .mark
  op .sched
  op .awake
  op .acquire

/-- The loop of `acquiresleep`. -/
def waitLoop : (fuel : Nat) → Code n Unit
  | 0 => op .stop
  | fuel + 1 => do
    let locked : Bool ← op .locked
    if locked then
      sleep
      waitLoop fuel
    else pure ()

def acquiresleep (fuel : Nat) : Code n Unit := do
  op .acquire
  waitLoop fuel
  op .take
  op .release

def wakeupFrom : List (Fin n) → Code n Unit
  | [] => pure ()
  | q :: qs => do
    op (.wakeup q)
    wakeupFrom qs

def releasesleep : Code n Unit := do
  op .acquire
  op .clear
  wakeupFrom (finRange n)
  op .release

def holdingsleep : Code n Bool := do
  op .acquire
  let r : Bool ← op .holding
  op .release
  pure r

/-! ## The system -/

/-- A process that has a pid and goes on to run. -/
def Alive (x : Proc Chan) : Prop := x.state ≠ .unused ∧ x.state ≠ .zombie

inductive Call (p : Fin n) (s : St n) : Code n Unit → Prop
  | acquiresleep (fuel : Nat) (h : s.holds p = false) : Call p s (acquiresleep fuel)
  | releasesleep (h : s.holds p = true) : Call p s releasesleep
  | holdingsleep : Call p s do
      let _ ← holdingsleep
  | other (x : Proc Chan) (awake : ¬x.Sleeps .lock)
      (h : s.holds p = true → Alive x ∧ x.pid = (s.proc p).pid) : Call p s (op (.other x))

/-- What others do to a process under its lock. -/
inductive Change (x : Proc Chan) : Proc Chan → Prop
  | sched {y : Proc Chan} (h : x.Sched y) : Change x y
  | kill : Change x x.kill
  | wakeup (n : Nat) : Change x (x.wakeup (.other n))
  | reap (h : x.state = .zombie) : Change x .zero
  | alloc (h : x.state = .unused) (pid : BitVec 32) :
      Change x { x with state := .runnable, pid := pid }

/-- The processes in the table have distinct pids. -/
def DistinctPids (s : St n) : Prop :=
  ∀ p q, (s.proc p).state ≠ .unused → (s.proc q).state ≠ .unused →
    (s.proc p).pid = (s.proc q).pid → p = q

instance (s : St n) : Decidable (DistinctPids s) :=
  inferInstanceAs (Decidable (∀ p q, (s.proc p).state ≠ .unused → (s.proc q).state ≠ .unused →
    (s.proc p).pid = (s.proc q).pid → p = q))

/-- The pids are distinct whenever `holdingsleep` compares them. -/
def Distinct (_ : Fin n) : Op n → St n → Prop
  | .holding, s => DistinctPids s
  | _, _ => True

instance (p : Fin n) : (o : Op n) → (s : St n) → Decidable (Distinct p o s)
  | .holding, s => inferInstanceAs (Decidable (DistinctPids s))
  | .acquire, _ | .release, _ | .locked, _ | .take, _ | .clear, _ | .wakeup _, _ | .lockSelf, _
  | .mark, _ | .sched, _ | .awake, _ | .other _, _ | .stop, _ => .isTrue trivial

/-- The runs whose operations all meet `guard`. -/
def system (guard : Fin n → Op n → St n → Prop) : System (iface n) (St n) Panic (Fin n) where
  exec := exec
  guard := guard
  calls := Call
  env s s' := ∃ q x, s.self q = false ∧ Change (s.proc q) x ∧ s' = s.setProc q x

/-- After `initsleeplock`, before the first process. -/
def boot (n : Nat) : Config (iface n) (St n) (Fin n) where
  st := ⟨none, false, 0, fun _ => .zero, fun _ => false, fun _ => false⟩
  prog _ := .ret ()

/-! ## The proof outline -/

/-- The process neither sleeps on the lock nor is about to. -/
def Calm (s : St n) (q : Fin n) : Prop := s.self q = false ∧ ¬(s.proc q).Sleeps .lock

structure Inv (s : St n) : Prop where
  holder : ∀ p, s.holds p = true → s.locked = true ∧ s.pid = (s.proc p).pid ∧ Alive (s.proc p)
  unique : ∀ p q, s.holds p = true → s.holds q = true → p = q
  held : s.locked = true → ∃ p, s.holds p = true
  calm : s.lk = none → s.locked = false → ∀ q, Calm s q

structure Rely (p : Fin n) (s s' : St n) : Prop where
  -- the holder of `lk->lk` is alone with the lock, and nobody goes to sleep on it
  held : s.lk = some p → s'.lk = some p ∧ s'.locked = s.locked ∧ ∀ q, Calm s q → Calm s' q
  self : s'.self p = s.self p
  holds : s'.holds p = s.holds p
  alive : Alive (s.proc p) → Alive (s'.proc p) ∧ (s'.proc p).pid = (s.proc p).pid

def Pre (p : Fin n) : Op n → St n → Prop
  | .acquire, s => s.self p = false
  | .release, s => s.lk = some p ∧ (s.locked = false → ∀ q, Calm s q)
  | .take, s => s.lk = some p ∧ s.locked = false ∧ s.self p = false
  | .clear, s => s.lk = some p ∧ s.holds p = true
  | .lockSelf, s => s.lk = some p ∧ s.locked = true ∧ s.self p = false
  | .mark, s | .sched, s => s.self p = true
  | .other x, s => ¬x.Sleeps .lock ∧ (s.holds p = true → Alive x ∧ x.pid = (s.proc p).pid)
  | _, _ => True

section Steps

variable {p q : Fin n} {s s' : St n} {x y : Proc Chan}

/-- A change that neither puts the process to sleep on the lock nor ends it. -/
structure Gentle (x y : Proc Chan) : Prop where
  sleeps : y.Sleeps .lock → x.Sleeps .lock
  alive : Alive x → Alive y ∧ y.pid = x.pid

theorem Gentle.wakeup (x : Proc Chan) (chan : Chan) : Gentle x (x.wakeup chan) := by
  refine ⟨.of_wakeup, fun h => ?_⟩
  unfold Proc.wakeup
  split
  · exact ⟨⟨nofun, nofun⟩, rfl⟩
  · exact ⟨h, rfl⟩

theorem Change.gentle (h : Change x y) : Gentle x y := by
  cases h with
  | sched h =>
    refine ⟨fun hs => absurd hs (h.not_sleeps _), fun _ => ?_⟩
    cases h <;> exact ⟨⟨nofun, nofun⟩, rfl⟩
  | kill =>
    refine ⟨fun hs => absurd hs (x.not_sleeps_kill _), fun h => ⟨?_, rfl⟩⟩
    unfold Proc.kill Alive
    dsimp only
    split
    · exact ⟨nofun, nofun⟩
    · exact h
  | wakeup n => exact .wakeup x _
  | reap h => exact ⟨fun hs => absurd hs.1 nofun, fun ha => absurd h ha.2⟩
  | alloc h pid => exact ⟨fun hs => absurd hs.1 nofun, fun ha => absurd h ha.1⟩

theorem Gentle.setProc (h : Gentle (s.proc q) y) (r : Fin n) :
    Gentle (s.proc r) ((s.setProc q y).proc r) := by
  unfold St.setProc
  rcases eq_or_ne r q with rfl | hr
  · simpa using h
  · simpa [hr] using ⟨id, fun h => ⟨h, rfl⟩⟩

theorem Gentle.inv (h : Gentle (s.proc q) y) (hI : Inv s) : Inv (s.setProc q y) where
  holder p hp := by
    obtain ⟨hl, hpid, ha⟩ := hI.holder p hp
    obtain ⟨ha', hpid'⟩ := (h.setProc p).alive ha
    exact ⟨hl, hpid.trans hpid'.symm, ha'⟩
  unique := hI.unique
  held := hI.held
  calm hl hf r := ⟨(hI.calm hl hf r).1, fun hs => (hI.calm hl hf r).2 ((h.setProc r).sleeps hs)⟩

theorem Gentle.rely (h : Gentle (s.proc q) y) (p : Fin n) : Rely p s (s.setProc q y) where
  held hl := ⟨hl, rfl, fun r hr => ⟨hr.1, fun hs => hr.2 ((h.setProc r).sleeps hs)⟩⟩
  self := rfl
  holds := rfl
  alive := (h.setProc p).alive

/-- What `p` does to its own entry and, if it holds or takes `lk->lk`, to the lock. -/
theorem Rely.own (proc : ∀ r, r ≠ p → s'.proc r = s.proc r ∧ s'.self r = s.self r ∧
    s'.holds r = s.holds r)
    (lk : s.lk = some p ∨ (s'.lk = s.lk ∨ s.lk = none) ∧ s'.locked = s.locked ∧
      (Calm s p → Calm s' p))
    (hq : q ≠ p) : Rely q s s' := by
  obtain ⟨hproc, hself, hholds⟩ := proc q hq
  refine ⟨fun hl => ?_, hself, hholds, fun h => by rw [hproc]; exact ⟨h, rfl⟩⟩
  rcases lk with hl' | ⟨hlk, hf, hcalm⟩
  · exact absurd (hl.symm.trans hl') fun h => hq (Option.some.inj h)
  · refine ⟨?_, hf, fun r hr => ?_⟩
    · rcases hlk with hlk | hlk
      · exact hlk.trans hl
      · exact absurd (hl.symm.trans hlk) nofun
    · rcases eq_or_ne r p with rfl | hrp
      · exact hcalm hr
      · rw [Calm, (proc r hrp).1, (proc r hrp).2.1]
        exact hr

theorem op_ok {o : Op n} {r : (iface n).Res o} (hI : Inv s) (hp : Pre p o s)
    (he : exec p o s = .ok (r, s')) : Inv s' ∧ ∀ q, q ≠ p → Rely q s s' := by
  unfold exec at he
  split at he
  swap
  · cases he
  rename_i hrun
  have upd : ∀ {f : Fin n → Bool} {b : Bool} {r : Fin n}, r ≠ p → update f p b r = f r :=
    fun h => update_of_ne h ..
  have set : ∀ {x : Proc Chan} {r : Fin n}, r ≠ p → (s.setProc p x).proc r = s.proc r :=
    fun h => update_of_ne h ..
  have same : s' = s → Inv s' ∧ ∀ q, q ≠ p → Rely q s s' := by
    rintro rfl
    exact ⟨hI, fun q => .own (fun _ _ => ⟨rfl, rfl, rfl⟩) (.inr ⟨.inl rfl, rfl, id⟩)⟩
  cases o with
  | acquire =>
    simp only [step] at he
    split at he
    · rename_i hl
      cases he
      exact ⟨⟨hI.holder, hI.unique, hI.held, nofun⟩,
        fun q => .own (fun _ _ => ⟨rfl, rfl, rfl⟩) (.inr ⟨.inr hl, rfl, id⟩)⟩
    · split at he <;> cases he
  | release =>
    simp only [step, if_pos hp.1] at he
    cases he
    exact ⟨⟨hI.holder, hI.unique, hI.held, fun _ => hp.2⟩,
      fun q => .own (fun _ _ => ⟨rfl, rfl, rfl⟩) (.inl hp.1)⟩
  | locked | holding => cases he; exact same rfl
  | take =>
    cases he
    obtain ⟨hl, hf, hself⟩ := hp
    have only : ∀ q, update s.holds p true q = true → q = p := by
      intro q hq
      by_contra hne
      rw [upd hne] at hq
      exact absurd ((hI.holder q hq).1.symm.trans hf) nofun
    have running : (s.proc p).state = .running := hrun.resolve_right (by rw [hself]; nofun)
    refine ⟨⟨fun q hq => ?_, fun q r hq hr => (only q hq).trans (only r hr).symm,
      fun _ => ⟨p, update_self ..⟩, fun _ => nofun⟩,
      fun q => .own (fun _ h => ⟨rfl, rfl, upd h⟩) (.inl hl)⟩
    rw [only q hq]
    exact ⟨rfl, rfl, by simp [Alive, running]⟩
  | clear =>
    cases he
    have none : ∀ q, update s.holds p false q ≠ true := by
      intro q hq
      rcases eq_or_ne q p with rfl | hne
      · simp at hq
      · rw [upd hne] at hq
        exact hne (hI.unique q p hq hp.2)
    exact ⟨⟨fun q hq => absurd hq (none q), fun q _ hq => absurd hq (none q), nofun,
      fun h => absurd (hp.1.symm.trans h) nofun⟩,
      fun q => .own (fun _ h => ⟨rfl, rfl, upd h⟩) (.inl hp.1)⟩
  | wakeup q =>
    simp only [step] at he
    split at he
    · cases he; exact same rfl
    · split at he <;> cases he
      have hg := Gentle.wakeup (s.proc q) .lock
      exact ⟨hg.inv hI, fun f _ => hg.rely f⟩
  | lockSelf =>
    simp only [step, hp.2.2] at he
    cases he
    exact ⟨⟨hI.holder, hI.unique, hI.held, fun h => absurd (hp.1.symm.trans h) nofun⟩,
      fun q => .own (fun _ h => ⟨rfl, upd h, rfl⟩) (.inl hp.1)⟩
  | mark =>
    cases he
    have calm : ¬Calm s p := fun h => absurd (hp.symm.trans h.1) nofun
    refine ⟨⟨fun q hq => ?_, hI.unique, hI.held, fun hl hf => absurd (hI.calm hl hf p) calm⟩,
      fun q => .own (fun _ h => ⟨set h, rfl, rfl⟩) (.inr ⟨.inl rfl, rfl, fun h => absurd h calm⟩)⟩
    obtain ⟨hf, hpid, ha⟩ := hI.holder q hq
    rcases eq_or_ne q p with rfl | hne
    · simpa [St.setProc, Proc.sleep, Alive] using ⟨hf, hpid⟩
    · rw [set hne]
      exact ⟨hf, hpid, ha⟩
  | sched =>
    cases he
    have calm : ¬Calm s p := fun h => absurd (hp.symm.trans h.1) nofun
    exact ⟨⟨hI.holder, hI.unique, hI.held, fun hl hf => absurd (hI.calm hl hf p) calm⟩,
      fun q => .own (fun _ h => ⟨rfl, upd h, rfl⟩) (.inr ⟨.inl rfl, rfl, fun h => absurd h calm⟩)⟩
  | awake =>
    cases he
    have hg : Gentle (s.proc p) (s.proc p).awake := ⟨fun h => absurd h.2 nofun, fun h => ⟨h, rfl⟩⟩
    exact ⟨hg.inv hI, fun f _ => hg.rely f⟩
  | other x =>
    cases he
    obtain ⟨hx, hpid⟩ := hp
    have self : (s.setProc p x).proc p = x := update_self ..
    have calm : ∀ q, Calm s q → Calm (s.setProc p x) q := by
      intro q hq
      refine ⟨hq.1, ?_⟩
      rcases eq_or_ne q p with rfl | hne
      · rwa [self]
      · rw [set hne]
        exact hq.2
    refine ⟨⟨fun q hq => ?_, hI.unique, hI.held, fun hl hf q => calm q (hI.calm hl hf q)⟩,
      fun q => .own (fun _ h => ⟨set h, rfl, rfl⟩) (.inr ⟨.inl rfl, rfl, calm p⟩)⟩
    obtain ⟨hf, hq', ha⟩ := hI.holder q hq
    rcases eq_or_ne q p with rfl | hne
    · rw [self]
      exact ⟨hf, hq'.trans (hpid hq).2.symm, (hpid hq).1⟩
    · rw [set hne]
      exact ⟨hf, hq', ha⟩
  | stop => cases he

end Steps

def outline (guard : Fin n → Op n → St n → Prop) : RelyGuarantee (system guard) where
  Inv := Inv
  Rely := Rely
  Idle p s := s.self p = false
  Pre := Pre
  Tol _ := True
  rely_refl p s := ⟨fun h => ⟨h, rfl, fun _ => id⟩, rfl, rfl, fun h => ⟨h, rfl⟩⟩
  rely_trans h h' := by
    refine ⟨fun hl => ?_, h'.self.trans h.self, h'.holds.trans h.holds, fun ha => ?_⟩
    · obtain ⟨hl₁, hf₁, hc₁⟩ := h.held hl
      obtain ⟨hl₂, hf₂, hc₂⟩ := h'.held hl₁
      exact ⟨hl₂, hf₂.trans hf₁, fun q hq => hc₂ q (hc₁ q hq)⟩
    · obtain ⟨ha₁, hp₁⟩ := h.alive ha
      obtain ⟨ha₂, hp₂⟩ := h'.alive ha₁
      exact ⟨ha₂, hp₂.trans hp₁⟩
  idle_stable h hi := h.self.trans hi
  op_ok hI _ hp he := op_ok hI hp he
  op_panic _ _ _ _ := trivial
  env_ok := by
    rintro s s' ⟨q, x, -, hx, rfl⟩ hI
    exact ⟨hx.gentle.inv hI, hx.gentle.rely⟩

/-! ## The calls -/

section Calls

variable {guard : Fin n → Op n → St n → Prop} {p : Fin n} {s : St n} {b : Bool} {α : Type}
  {Q : α → St n → Prop} {o : Op n} {k : (iface n).Res o → Code n α}

structure Free (p : Fin n) (b : Bool) (s : St n) : Prop where
  self : s.self p = false
  holds : s.holds p = b

/-- The process holds `lk->lk`, and nobody sleeps on a free lock but, on its way, one of `rest`. -/
structure Held (p : Fin n) (b : Bool) (rest : List (Fin n)) (s : St n) : Prop where
  lk : s.lk = some p
  self : s.self p = false
  holds : s.holds p = b
  calm : s.locked = false → ∀ q, q ∉ rest → Calm s q

theorem rule {A : St n → Prop} (hA : A s) (stable : ∀ s s', Rely p s s' → A s → A s')
    (pre : ∀ s, A s → Pre p o s)
    (next : ∀ s r s', Inv s → A s → (s.proc p).state = .running ∨ s.self p = true →
      step p o s = .ok (r, s') → Safe (outline guard) p Q (k r) s') :
    Safe (outline guard) p Q (.call o k) s := by
  refine Safe.call hA stable (fun s _ _ h => pre s h) fun s r s' hI _ _ h he => ?_
  change exec p o s = _ at he
  unfold exec at he
  split at he
  · exact next s r s' hI h ‹_› he
  · cases he

theorem Free.stable (s s' : St n) (hR : Rely p s s') (h : Free p b s) : Free p b s' :=
  ⟨hR.self.trans h.self, hR.holds.trans h.holds⟩

theorem Held.stable {rest : List (Fin n)} (s s' : St n) (hR : Rely p s s') (h : Held p b rest s) :
    Held p b rest s' := by
  obtain ⟨hl, hf, hc⟩ := hR.held h.lk
  exact ⟨hl, hR.self.trans h.self, hR.holds.trans h.holds, fun hf' q hq =>
    hc q (h.calm (hf.symm.trans hf') q hq)⟩

theorem acquire_safe {k : Unit → Code n α} (h : Free p b s)
    (next : ∀ s, Held p b [] s → Safe (outline guard) p Q (k ()) s) :
    Safe (outline guard) p Q (.call .acquire k) s := by
  refine rule h Free.stable (fun _ h => h.self) fun s r s' hI h _ he => ?_
  simp only [step] at he
  split at he
  · cases he
    exact next _ ⟨rfl, h.self, h.holds, fun hf q _ => hI.calm ‹_› hf q⟩
  · split at he <;> cases he

theorem release_safe {k : Unit → Code n α} (h : Held p b [] s)
    (next : ∀ s, Free p b s → Safe (outline guard) p Q (k ()) s) :
    Safe (outline guard) p Q (.call .release k) s := by
  refine rule h Held.stable (fun _ h => ⟨h.lk, fun hf q => h.calm hf q not_mem_nil⟩)
    fun s r s' _ h _ he => ?_
  simp only [step, if_pos h.lk] at he
  cases he
  exact next _ ⟨h.self, h.holds⟩

/-- `sleep` on a lock that is taken: between the release of `lk->lk` and `sched` the process holds
`p->lock`. -/
theorem sleep_safe {k : Unit → Code n α} (h : Held p b [] s) (hf : s.locked = true)
    (next : ∀ s, Held p b [] s → Safe (outline guard) p Q (k ()) s) :
    Safe (outline guard) p Q (sleep.bind k) s := by
  -- `lk->locked` cannot change while the process holds `lk->lk`
  have keep : ∀ s s', Rely p s s' → Held p b [] s ∧ s.locked = true → Held p b [] s' ∧
      s'.locked = true :=
    fun s s' hR h => ⟨Held.stable s s' hR h.1, (hR.held h.1.lk).2.1.trans h.2⟩
  refine rule ⟨h, hf⟩ keep (fun _ h => ⟨h.1.lk, h.2, h.1.self⟩) fun s r s' _ h _ he => ?_
  simp only [step, h.1.self] at he
  cases he
  refine rule (A := fun s => s.lk = some p ∧ s.locked = true ∧ s.self p = true ∧ s.holds p = b)
    ⟨h.1.lk, h.2, update_self .., h.1.holds⟩
    (fun s s' hR h => ⟨(hR.held h.1).1, (hR.held h.1).2.1.trans h.2.1, hR.self.trans h.2.2.1,
      hR.holds.trans h.2.2.2⟩)
    (fun s h => ⟨h.1, fun hf => absurd (h.2.1.symm.trans hf) nofun⟩) fun s r s' _ h _ he => ?_
  simp only [step, if_pos h.1] at he
  cases he
  have out : ∀ s s', Rely p s s' → s.self p = true ∧ s.holds p = b → s'.self p = true ∧
      s'.holds p = b :=
    fun s s' hR h => ⟨hR.self.trans h.1, hR.holds.trans h.2⟩
  refine rule h.2.2 out (fun _ h => h.1) fun s r s' _ h _ he => ?_
  cases he
  refine rule h out (fun _ h => h.1) fun s r s' _ h _ he => ?_
  cases he
  refine rule ⟨update_self .., h.2⟩ Free.stable (fun _ _ => trivial) fun s r s' _ h _ he => ?_
  cases he
  exact acquire_safe ⟨h.self, h.holds⟩ next

theorem waitLoop_safe {k : Unit → Code n α} {fuel : Nat} (h : Held p b [] s)
    (next : ∀ s, Held p b [] s ∧ s.locked = false → Safe (outline guard) p Q (k ()) s) :
    Safe (outline guard) p Q ((waitLoop fuel).bind k) s := by
  induction fuel generalizing s with
  | zero => exact rule h Held.stable (fun _ _ => trivial) fun s r s' _ _ _ he => nomatch he
  | succ fuel ih =>
    refine rule h Held.stable (fun _ _ => trivial) fun s r s' _ h _ he => ?_
    cases he
    cases hf : s.locked with
    | true => exact sleep_safe h hf fun s h => ih h
    | false => exact next s ⟨h, hf⟩

/-- `wakeup` passes over every process, and waits for those on their way into `sched`. -/
theorem wakeupFrom_safe {k : Unit → Code n α} {qs : List (Fin n)}
    (h : Held p b qs s ∧ s.locked = false ∧ Calm s p)
    (next : ∀ s, Held p b [] s → Safe (outline guard) p Q (k ()) s) :
    Safe (outline guard) p Q ((wakeupFrom qs).bind k) s := by
  induction qs generalizing s with
  | nil => exact next s h.1
  | cons q qs ih =>
    have keep : ∀ s s', Rely p s s' → Held p b (q :: qs) s ∧ s.locked = false ∧ Calm s p →
        Held p b (q :: qs) s' ∧ s'.locked = false ∧ Calm s' p := by
      intro s s' hR h
      obtain ⟨-, hf, hc⟩ := hR.held h.1.lk
      exact ⟨Held.stable s s' hR h.1, hf.trans h.2.1, hc p h.2.2⟩
    refine rule h keep (fun _ _ => trivial) fun s r s' hI h _ he => ?_
    obtain ⟨held, hf, hp⟩ := h
    simp only [step] at he
    split at he
    · rename_i hq
      cases he
      refine ih ⟨⟨held.lk, held.self, held.holds, fun _ r hr => ?_⟩, hf, hp⟩
      rcases eq_or_ne r p with rfl | hne
      · exact hp
      · exact held.calm hf r fun hm => (mem_cons.1 hm).elim (fun e => hne (e.trans hq)) hr
    · split at he <;> cases he
      rename_i hq hself
      have calm : ∀ r, Calm s r → Calm (s.setProc q ((s.proc q).wakeup .lock)) r :=
        fun r hr => ⟨hr.1, fun hs => hr.2 (((Gentle.wakeup _ _).setProc r).sleeps hs)⟩
      refine ih ⟨⟨held.lk, held.self, held.holds, fun _ r hr => ?_⟩, hf, calm p hp⟩
      rcases eq_or_ne r q with rfl | hne
      · refine ⟨eq_false_of_ne_true hself, ?_⟩
        show ¬(update s.proc r _ r).Sleeps .lock
        rw [update_self]
        exact (s.proc r).not_sleeps_wakeup .lock
      · exact calm r (held.calm hf r fun hm => (mem_cons.1 hm).elim hne hr)

theorem Inv.holding_iff (hI : Inv s) (distinct : DistinctPids s)
    (live : (s.proc p).state ≠ .unused) :
    s.holding p = true ↔ s.holds p = true := by
  constructor
  · intro h
    simp only [St.holding, Bool.and_eq_true, beq_iff_eq] at h
    obtain ⟨q, hq⟩ := hI.held h.1
    obtain ⟨-, hpid, ha⟩ := hI.holder q hq
    rwa [distinct p q live ha.1 (h.2.symm.trans hpid)]
  · intro h
    obtain ⟨hf, hpid, -⟩ := hI.holder p h
    simp [St.holding, hf, hpid]

theorem holdingsleep_safe (h : Free p b s) :
    Safe (outline guard) p (fun r s => Free p b s ∧
      ((∀ s, guard p .holding s → DistinctPids s) → (r = true ↔ b = true))) holdingsleep s := by
  refine acquire_safe h fun s h => ?_
  refine Safe.call (G := outline guard) (o := Op.holding) h Held.stable (fun _ _ _ _ => trivial)
    fun s r s' hI _ hg h he => ?_
  change exec p .holding s = _ at he
  unfold exec at he
  split at he
  swap
  · cases he
  rename_i hrun
  cases he
  have live : (s.proc p).state ≠ .unused := by
    rw [hrun.resolve_right (by rw [h.self]; nofun)]
    nofun
  refine release_safe h fun s' h' => ⟨h', fun distinct => ?_⟩
  rw [← h.holds]
  exact Inv.holding_iff hI (distinct s hg) live

theorem Call.safe {x : Code n Unit} (hx : Call p s x) (hI : Inv s) (hi : s.self p = false) :
    Safe (outline guard) p (fun _ s => s.self p = false) x s := by
  have idle : ∀ {b} s, Free p b s → s.self p = false := fun _ h => h.self
  cases hx with
  | acquiresleep fuel hb =>
    refine acquire_safe ⟨hi, hb⟩ fun s h => waitLoop_safe h fun s h => ?_
    refine rule (A := fun s => Held p false [] s ∧ s.locked = false) h
      (fun s s' hR h => ⟨Held.stable s s' hR h.1, (hR.held h.1.lk).2.1.trans h.2⟩)
      (fun s h => ⟨h.1.lk, h.2, h.1.self⟩) fun s r s' _ h _ he => ?_
    cases he
    exact release_safe ⟨h.1.lk, h.1.self, update_self .., nofun⟩ idle
  | releasesleep hb =>
    refine acquire_safe ⟨hi, hb⟩ fun s h => ?_
    refine rule h Held.stable (fun _ h => ⟨h.lk, h.holds⟩) fun s r s' _ h hrun he => ?_
    cases he
    have running : (s.proc p).state = .running := hrun.resolve_right (by rw [h.self]; nofun)
    refine wakeupFrom_safe ⟨⟨h.lk, h.self, update_self .., fun _ q hq => ?_⟩, rfl, h.self,
      Proc.not_sleeps_of_running running⟩ fun s h => release_safe h idle
    exact absurd (mem_finRange q) hq
  | holdingsleep =>
    exact (holdingsleep_safe ⟨hi, rfl⟩).bind fun _ s h => idle s h.1
  | other x awake hb =>
    -- the pid of the process, if it holds the lock, stays as it is
    refine rule (A := fun t => Free p (s.holds p) t ∧
        (s.holds p = true → Alive (t.proc p) ∧ Alive x ∧ x.pid = (t.proc p).pid))
      ⟨⟨hi, rfl⟩, fun h => ⟨(hI.holder p h).2.2, hb h⟩⟩ (fun t t' hR h => ?_)
      (fun t h => ⟨awake, fun ht => (h.2 (h.1.holds ▸ ht)).2⟩) fun t r t' _ h _ he => ?_
    · refine ⟨Free.stable t t' hR h.1, fun ht => ?_⟩
      obtain ⟨ha, hx, hpid⟩ := h.2 ht
      obtain ⟨ha', hpid'⟩ := hR.alive ha
      exact ⟨ha', hx, hpid.trans hpid'.symm⟩
    · cases he
      exact h.1.self

/-- A running process that finds `lk->lk` free comes back from `holdingsleep`. -/
theorem holdingsleep_returns {c : Config (iface n) (St n) (Fin n)} {k : Bool → Code n Unit}
    (here : c.prog p = holdingsleep.bind k) (running : (c.st.proc p).state = .running)
    (free : c.st.lk = none) (distinct : DistinctPids c.st) :
    ∃ c', (system Distinct).Returns p k holdingsleep c (c.st.holding p) c' := by
  have run : ∀ o lk, exec p o { c.st with lk := lk } = step p o { c.st with lk := lk } :=
    fun _ _ => if_pos (.inl running)
  have hacq : exec p .acquire c.st = .ok ((), { c.st with lk := some p }) := by
    refine (run .acquire c.st.lk).trans ?_
    simp only [step, free]
  have hrel := (run .release (some p)).trans (if_pos rfl)
  exact ⟨_, .call here trivial hacq (.call (update_self ..) distinct (run .holding (some p))
    (.call (update_self ..) trivial hrel (.ret (update_self ..))))⟩

theorem boot_good : (boot n).Good (outline guard) :=
  ⟨⟨nofun, nofun, nofun, fun _ _ _ => ⟨rfl, fun h => nomatch h.1⟩⟩, fun _ => rfl⟩

theorem reaches_good {c : Config (iface n) (St n) (Fin n)}
    (hr : (system guard).Reaches (boot n) c) :
    c.Good (outline guard) :=
  Config.Good.reaches (fun hx hI hi => Call.safe hx hI hi) boot_good hr

end Calls

/-- A new process gets the entry `q` and the pid `pid`, and runs. -/
def begin (q : Fin n) (pid : BitVec 32) : List (Move (iface n) (St n) (Fin n)) :=
  [.env fun s => if (s.proc q).state = .unused ∧ s.self q = false then
      some (s.setProc q { s.proc q with state := .runnable, pid := pid }) else none,
    .env fun s => if (s.proc q).state = .runnable ∧ s.self q = false then
      some (s.setProc q { s.proc q with state := .running }) else none]

theorem legal_begin {guard : Fin n → Op n → St n → Prop} (q : Fin n) (pid : BitVec 32) :
    ∀ m ∈ begin q pid, m.Legal (system guard) := by
  intro m hm
  simp only [begin, mem_cons, not_mem_nil, or_false] at hm
  rcases hm with rfl | rfl <;> intro s s' h <;> beta_reduce at h <;> split at h <;> cases h
  · exact ⟨q, _, And.right ‹_›, .alloc (And.left ‹_›) pid, rfl⟩
  · exact ⟨q, _, And.right ‹_›, .sched (.run (And.left ‹_›)), rfl⟩

/-- One process takes the lock, and another goes to sleep on it. -/
def takeAndSleep : List (Move (iface 3) (St 3) (Fin 3)) :=
  begin 0 1 ++ begin 1 2 ++ begin 2 3 ++
    [.startIf (fun s => !s.holds 0) 0 (acquiresleep 1)] ++ replicate 4 (.op 0) ++
    [.startIf (fun s => !s.holds 1) 1 (acquiresleep 2)] ++ replicate 6 (.op 1)

theorem legal_takeAndSleep {guard : Fin 3 → Op 3 → St 3 → Prop} :
    ∀ m ∈ takeAndSleep, m.Legal (system guard) := by
  intro m hm
  simp only [takeAndSleep, mem_append, mem_singleton, mem_replicate] at hm
  rcases hm with (((((hm | hm) | hm) | rfl) | ⟨-, rfl⟩) | rfl) | ⟨-, rfl⟩
  · exact legal_begin 0 1 m hm
  · exact legal_begin 1 2 m hm
  · exact legal_begin 2 3 m hm
  · exact fun s hs => .acquiresleep 1 (by simpa using hs)
  · trivial
  · exact fun s hs => .acquiresleep 2 (by simpa using hs)
  · trivial

/-- The holder asks whether it holds the lock, and so does a third process. -/
theorem reaches_asking :
    ∃ c : Config (iface 3) (St 3) (Fin 3),
      (∀ guard, (∀ p o s, Distinct p o s → guard p o s) → (system guard).Reaches (boot 3) c) ∧
      (∀ p, p ≠ 1 → c.prog p = holdingsleep.bind (fun _ => .ret ()) ∧
        (c.st.proc p).state = .running ∧ c.st.holding p = decide (p = 0)) ∧
      (c.st.proc 1).Sleeps .lock ∧ c.st.lk = none ∧ DistinctPids c.st := by
  have hplay :
      (takeAndSleep.foldlM (Move.play exec fun p o s => decide (Distinct p o s)) (boot 3)).any
      (fun c => decide ((∀ p, p ≠ 1 → c.isIdle p = true ∧ (c.st.proc p).state = .running ∧
        c.st.holding p = decide (p = 0)) ∧
        (c.st.proc 1).Sleeps .lock ∧ c.st.lk = none ∧ DistinctPids c.st)) = true := by decide
  obtain ⟨c, hc, hd⟩ := (Option.any_eq_true _ _).1 hplay
  obtain ⟨asks, rest⟩ := of_decide_eq_true hd
  refine ⟨⟨c.st, update (update c.prog 0 (holdingsleep.bind fun _ => .ret ()))
    2 (holdingsleep.bind fun _ => .ret ())⟩, fun guard hg => ?_,
      fun p hp => ⟨?_, (asks p hp).2⟩, rest⟩
  · have hr := Move.Legal.reaches (S := system guard) legal_takeAndSleep
      (fun p o s h => hg p o s (of_decide_eq_true h)) hc
    have idle (p : Fin 3) (hp : p ≠ 1) := Config.prog_of_isIdle (asks p hp).1
    refine (hr.tail (.start (idle 0 (by decide)) .holdingsleep)).tail (.start ?_ .holdingsleep)
    exact idle 2 (by decide)
  · rcases (by decide : ∀ p : Fin 3, p ≠ 1 → p = 2 ∨ p = 0) p hp with rfl | rfl <;> rfl

end Xv6.Sleeplock
