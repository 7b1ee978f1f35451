import Xv6.Dir.Sound

/-!
# Runs from boot

In every configuration that a run reaches, the invariant holds and each process knows what the rules
say that it knows.
-/

namespace Xv6.Dir

open Lib List Finset

variable {P : Type} {sb : Superblock} {guard : P → Op → St P → Prop} {s : St P} {p q : P} {i : IId}

/-- The state in which the first process starts: its current directory is the root, and nothing else
is in use. -/
structure Boot (s : St P) : Prop where
  first : ∃ p i, s.stage p = .live ∧ s.cwd p = some i ∧
    (∀ q, q ≠ p → s.stage q = .unused ∧ s.cwd q = none) ∧
    (s.inode i).ref = 1 ∧ (s.inode i).inum = ROOTINO ∧ (s.inode i).valid = false ∧
    ∀ j, j ≠ i → (s.inode j).ref = 0
  unlocked : ∀ i, (s.inode i).lock = none
  ofile : ∀ p, s.ofile p = fun _ => none
  file : ∀ f, (s.file f).ref = 0 ∧ (s.file f).type = .none
  pipe : ∀ pi, s.pipe pi = none
  free : s.free.Nodup
  child : ∀ p, s.child p = none
  busy : ∀ p, s.busy p = false

/-- The accounts at boot. -/
def Ledger.start (s : St P) : Ledger P where
  refs p := cwdCount (s.cwd p)
  files := 0
  ends := 0
  corpses := 0
  seen _ i := s.disk (s.inode i).inum

/-- A process without open files outside the calls. -/
def Loc.outside (c : Option Ptr) (mid : Mid) : Loc where
  held _ := none
  refs := cwdRefs c
  mid := mid
  busy := false
  cwd := c
  ofile _ := none
  files := 0
  fresh := ∅
  via := none
  viaPipe := none
  ends := 0
  corpses := 0
  kid := none

theorem Loc.idle_outside {c : Option Ptr} {mid : Mid} (h : mid = .idle ∨ mid = .exited ∧ c = none) :
    (Loc.outside c mid).Idle :=
  ⟨fun _ => rfl, rfl, h.imp_right fun h => ⟨h.1, h.2, rfl⟩, rfl, fdFiles_none.symm, rfl,
    rfl, rfl, rfl⟩

namespace Boot

theorem fileRefs_eq (h : Boot s) : fileRefs s.file i = 0 := by
  refine sum_eq_zero fun f _ => if_neg fun hf => ?_
  have := hf.1
  rw [(h.file f).1] at this
  omega

theorem fileEnds_eq (h : Boot s) {e : Nat × Bool} : fileEnds s.file e = 0 := by
  refine sum_eq_zero fun f _ => if_neg fun hf => ?_
  have := hf.1
  rw [(h.file f).1] at this
  omega

section

variable [Fintype P]

theorem inodeInv (h : Boot s) : InodeInv s (.start s) := by
  obtain ⟨p, i, -, hcwd, hothers, href, -, hvalid, hrest⟩ := h.first
  have only {j : IId} (hj : 0 < (s.inode j).ref) : j = i := by
    by_contra hne
    have := hrest j hne
    omega
  refine ⟨fun j => ?_, fun q j => ?_, fun j k hj hk _ => (only hj).trans (only hk).symm,
    fun j _ hj hv => ?_, fun j q hl => ?_⟩
  · have sum : ∑ q, cwdCount (s.cwd q) j = cwdCount (s.cwd p) j :=
      sum_eq_single p (fun q _ hq => by rw [(hothers q hq).2]; rfl) (by simp)
    rw [h.fileRefs_eq, zero_add]
    refine Eq.trans ?_ sum.symm
    rw [hcwd, cwdCount]
    by_cases hj : j = i
    · simp [hj, href]
    · simp [hrest j hj, Ne.symm hj]
  · show 0 ≤ cwdCount (s.cwd q) j
    rw [cwdCount]
    split <;> simp
  · rw [only hj, hvalid] at hv
    cases hv
  · simp [h.unlocked j] at hl

theorem inv (h : Boot s) : Inv s (.start s) := by
  refine ⟨h.inodeInv, ⟨fun f => ?_, fun _ _ => le_rfl, fun f _ => (h.file f).2⟩,
    ⟨fun e => ?_, fun _ _ => le_rfl, fun pi => ?_, fun _ _ => le_rfl, h.free,
      fun pi _ => h.pipe pi⟩, ?_⟩
  · simp [(h.file f).1, Ledger.start]
  · simp [openEnds, h.pipe, Pipe.isOpen, h.fileEnds_eq, Ledger.start]
  · simp [deadPipes, h.pipe, Ledger.start]
  · obtain ⟨p, i, hlive, -, hothers, -⟩ := h.first
    refine ⟨fun q hq => ⟨h.ofile q, ?_⟩, fun q => ?_, fun p p' q hp => ?_⟩
    · by_cases hqp : q = p
      · simp [hqp, hlive] at hq
      · exact (hothers q hqp).2
    · refine iff_of_false ?_ (by simp [h.child])
      by_cases hqp : q = p
      · simp [hqp, hlive]
      · simp [(hothers q hqp).1]
    · simp [h.child] at hp

end

theorem known (h : Boot s) (p : P) : ∃ l, l.Idle ∧ At p l s (.start s) := by
  obtain ⟨p₀, i, hlive, hcwd, hothers, -⟩ := h.first
  have slot {c : Option Ptr} {mid : Mid} (hc : s.cwd p = c.map Prod.fst) (hm : mid = .idle ∨
      mid = .exited)
      (hn : ∀ i n, c = some (i, n) → (s.inode i).inum = n) :
      InodeAt p (.outside c mid) s (.start s) := by
    refine ⟨fun i => ⟨?_, fun n hu => ?_, ?_, nofun, ?_, ?_, ?_, ?_, ?_⟩, fun n hn => absurd rfl hn⟩
    · show cwdCount (s.cwd p) i = _
      rw [hc]
      exact cwdCount_map fun m hm => (hn i m hm).symm
    · have hu : 0 < cwdRefs c (i, n) := hu.resolve_right nofun
      exact hn i n (by_contra fun hne => hu.ne' (if_neg hne))
    · rw [h.unlocked i]
      refine iff_of_false nofun ?_
      rintro (⟨n, -, hn⟩ | ⟨n, hm'⟩)
      · exact hn rfl
      · change mid = _ ∨ mid = _ ∨ mid = _ at hm'
        rcases hm with rfl | rfl <;> simp at hm'
    all_goals
      intro n hm'
      change mid = _ at hm'
      rcases hm with rfl | rfl <;> cases hm'
  have rest {c : Option Ptr} {mid : Mid} : FileAt p (.outside c mid) s (.start s) ∧
      PipeAt p (.outside c mid) (.start s) :=
    ⟨⟨fun _ => rfl, nofun, nofun, nofun⟩, ⟨fun _ => rfl, fun _ => rfl⟩⟩
  by_cases hp : p = p₀
  · subst hp
    have hidle := Loc.idle_outside (c := some (i, (s.inode i).inum)) (.inl rfl)
    refine ⟨_, hidle, ⟨slot hcwd (.inl rfl) (fun j n hj => by cases hj; rfl), rest.1, rest.2, ?_⟩⟩
    exact ⟨fun _ => ⟨hlive, h.ofile p, hcwd⟩, nofun, nofun, fun _ => h.child p, h.busy p⟩
  · obtain ⟨hst, hc⟩ := hothers p hp
    have hidle := Loc.idle_outside (c := none) (.inr ⟨rfl, rfl⟩)
    refine ⟨_, hidle, ⟨slot hc (.inr rfl) nofun, rest.1, rest.2, ?_⟩⟩
    exact ⟨fun hm => absurd rfl hm, fun _ => ⟨by simp [hst], hidle, rfl, rfl⟩, nofun,
      fun _ => h.child p, h.busy p⟩

end Boot

variable [DecidableEq P] [Fintype P]

/-- The configurations that are reached from boot in runs with the guard. -/
def Booted (sb : Superblock) (guard : P → Op → St P → Prop)
    (c : Config iface (St P × Ledger P) P) : Prop :=
  ∃ s, Boot s ∧ (ledgered sb guard).Reaches ⟨(s, .start s), fun _ => .ret ()⟩ c

theorem booted_of_reaches {c : Config iface (St P) P} (boot : Boot s)
    (run : (system sb guard).Reaches ⟨s, fun _ => .ret ()⟩ c) :
    ∃ g, Booted sb guard ⟨(c.st, g), c.prog⟩ := by
  obtain ⟨g, hg⟩ : ∃ g,
      (ledgered sb guard).Reaches ⟨(s, .start s), fun _ => .ret ()⟩ ⟨(c.st, g), c.prog⟩ :=
    run.withGhost (Ledger.start s)
  exact ⟨g, s, boot, hg⟩

theorem calls_follow {t : St P × Ledger P} {x : Code Unit} {l : Loc}
    (hx : (ledgered sb guard).calls p t x) (idle : l.Idle) (hat : At p l t.1 t.2) :
    ∃ l', At p l' t.1 t.2 ∧ Does Rule l' x fun _ => Loc.Idle := by
  obtain ⟨live, call, rfl⟩ := hx
  have mid : l.mid = .idle := by
    refine idle.mid.resolve_right fun h => ?_
    exact (hat.proc.dead h.1).1 live
  refine ⟨_, hat.forget idle.unlocked mid, Does.bind (call_runs ?_ call) fun _ _ h => h⟩
  exact ⟨{ idle with }, mid, rfl, rfl⟩

theorem Booted.good {c : Config iface (St P × Ledger P) P} (h : Booted sb guard c) :
    c.Good (rulesSound sb guard).outline := by
  obtain ⟨s, boot, run⟩ := h
  refine (rulesSound sb guard).reaches calls_follow ?_ run
  exact (rulesSound sb guard).start (c := ⟨(s, .start s), fun _ => .ret ()⟩) boot.inv
    (fun _ => rfl) boot.known

/-! ## Replays of a run of two processes -/

/-- An image with nothing but the root directory. -/
def rootDisk (n : Nat) : Node :=
  if n = ROOTINO then
    ⟨.dir, 0, 0, 1, [46],
      (Dirent.mk' dotName ROOTINO).bytes ++ (Dirent.mk' dotdotName ROOTINO).bytes⟩
  else ⟨.free, 0, 0, 0, [], []⟩

def bootState (disk : Nat → Node) : St Bool where
  disk := disk
  inode i := ⟨ROOTINO, if i.val = 0 then 1 else 0, none, false, disk ROOTINO⟩
  file _ := ⟨.none, 0, false, false, 0, ⟨0, ninode_pos⟩, 0, 0⟩
  ofile _ _ := none
  cwd p := if p then some ⟨0, ninode_pos⟩ else none
  stage p := if p then .live else .unused
  child _ := none
  pipe _ := none
  free := [1, 2, 3]
  busy _ := false
  committing := none
  room := true
  bmap addrs _ := addrs
  spare := some false

theorem boot_bootState (disk : Nat → Node) : Boot (bootState disk) where
  first := by
    refine ⟨true, ⟨0, by decide⟩, rfl, rfl, fun q hq => ?_, rfl, rfl, rfl,
      fun j hj => if_neg fun h => hj (Fin.ext h)⟩
    rw [Bool.eq_false_of_not_eq_true hq]
    exact ⟨rfl, rfl⟩
  unlocked _ := rfl
  ofile _ := rfl
  file _ := ⟨rfl, rfl⟩
  pipe _ := rfl
  free := (by decide : [1, 2, 3].Nodup)
  child _ := rfl
  busy _ := rfl

/-- A process makes a call, or goes on with one, and executes `n` operations. -/
def turn (sb : Superblock) : Bool × Option Call × Nat → List (Move iface (St Bool) Bool)
  | (p, none, n) => replicate n (.op p)
  | (p, some c, n) => .startIf (fun s => s.stage p = .live) p ((c.code sb).bind fun _ => .ret ()) ::
      replicate n (.op p)

def replay (sb : Superblock) (disk : Nat → Node) (turns : List (Bool × Option Call × Nat)) :
    Option (Config iface (St Bool) Bool) :=
  (turns.flatMap (turn sb)).foldlM (Move.play (exec sb) fun _ _ _ => true) ⟨bootState disk,
    fun _ => .ret ()⟩

variable {disk : Nat → Node} {turns : List (Bool × Option Call × Nat)}

theorem replay_reaches
    {c : Config iface (St Bool) Bool} (h : replay sb disk turns = some c) :
    (system sb fun _ _ _ => True).Reaches ⟨bootState disk, fun _ => .ret ()⟩ c := by
  refine Move.Legal.reaches (fun m hm => ?_) (fun _ _ _ _ => trivial) h
  obtain ⟨⟨p, call, n⟩, -, hm⟩ := mem_flatMap.1 hm
  cases call with
  | none =>
    rw [(mem_replicate.1 hm).2]
    trivial
  | some call =>
    rcases mem_cons.1 hm with rfl | hm
    · exact fun s hs => ⟨of_decide_eq_true hs, call, rfl⟩
    · rw [(mem_replicate.1 hm).2]
      trivial

theorem replay_booted
    {b : Config iface (St Bool) Bool → Bool} (h : (replay sb disk turns).any b = true) :
    ∃ c g, Booted sb (fun _ _ _ => True) ⟨(c.st, g), c.prog⟩ ∧ b c = true := by
  obtain ⟨c, hc, hb⟩ := (Option.any_eq_true b _).1 h
  obtain ⟨g, hg⟩ := booted_of_reaches (boot_bootState disk) (replay_reaches hc)
  exact ⟨c, g, hg, hb⟩

end Xv6.Dir
