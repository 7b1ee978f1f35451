import Xv6.User.Machine
import Mathlib.Data.Finset.Card
import Mathlib.Data.List.Perm.Subperm

/-!
# Descriptor tables
-/

namespace Xv6.User

open Function Finset

/-- Some descriptor refers to the object. -/
def Holds (t : Table) (o : Obj) : Prop := ∃ fd, t fd = some o

/-- Descriptors 0, 1 and 2 are open. -/
def Std (t : Table) : Prop := ∀ fd < 3, (t fd).isSome

/-- Descriptors 0, 1 and 2 are the console and no other is open. -/
def consoleTable : Table := fun fd => if fd < 3 then some .console else none

section

variable {t : Table} {fd : Nat} {o : Obj}

theorem fdalloc_spec (h : fdalloc t = some fd) :
    t fd = none ∧ fd < NOFILE ∧ ∀ i < fd, (t i).isSome := by
  rw [fdalloc, List.find?_range_eq_some] at h
  obtain ⟨hnone, hlt, hfirst⟩ := h
  refine ⟨Option.isNone_iff_eq_none.1 hnone, List.mem_range.1 hlt, fun i hi => ?_⟩
  simpa using hfirst i hi

/-- Once a standard descriptor is closed, it is the next one to be allocated. -/
theorem fdalloc_eq (hfd : fd < NOFILE) (hfree : t fd = none) (hlow : ∀ i < fd, (t i).isSome) :
    fdalloc t = some fd := by
  rw [fdalloc, List.find?_range_eq_some]
  refine ⟨Option.isNone_iff_eq_none.2 hfree, List.mem_range.2 hfd, fun i hi => ?_⟩
  simpa using hlow i hi

theorem of_get (h : t.get fd = some o) : t fd = some o := by
  rw [Table.get] at h
  split at h
  · exact h
  · cases h

theorem get_of_lt (h : fd < NOFILE) : t.get fd = t fd := if_pos h

theorem Std.three_le (h : Std t) (hfree : t fd = none) : 3 ≤ fd := by
  by_contra hlt
  have hopen := h fd (by omega)
  rw [hfree] at hopen
  cases hopen

theorem Std.get (h : Std t) (hfd : fd < 3) : ∃ o, t.get fd = some o := by
  rw [get_of_lt (show fd < NOFILE by simp only [NOFILE]; omega)]
  exact Option.isSome_iff_exists.1 (h fd hfd)

/-- A standard descriptor that has just been closed is the next one to be allocated. -/
theorem Std.fdalloc_closed (h : Std t) (hfd : fd < 3) : fdalloc (update t fd none) = some fd := by
  refine fdalloc_eq (by simp only [NOFILE]; omega) (update_self ..) fun i hi => ?_
  rw [update_of_ne (by omega)]
  exact h i (by omega)

theorem holds_update {v : Option Obj} (h : Holds (update t fd v) o) : Holds t o ∨ v = some o := by
  obtain ⟨k, hk⟩ := h
  by_cases he : k = fd
  · subst he
    rw [update_self] at hk
    exact .inr hk
  · rw [update_of_ne he] at hk
    exact .inl ⟨k, hk⟩

theorem holds_close (h : Holds (update t fd none) o) : Holds t o :=
  (holds_update h).resolve_right nofun

end

/-! ## Tables with few descriptors -/

/-- Descriptors 0, 1 and 2 are the console, and no others are open than those listed. -/
structure Opens (t : Table) (es : List (Nat × Obj)) : Prop where
  std : ∀ fd < 3, t fd = some .console
  entry : ∀ e ∈ es, t e.1 = some e.2 ∧ 3 ≤ e.1 ∧ e.1 < NOFILE
  only : ∀ fd o, t fd = some o → fd < 3 ∨ (fd, o) ∈ es

namespace Opens

variable {t : Table} {es : List (Nat × Obj)} {fd : Nat} {o : Obj}

theorem get (h : Opens t es) (he : (fd, o) ∈ es) : t.get fd = some o := by
  obtain ⟨ho, -, hlt⟩ := h.entry _ he
  rw [get_of_lt hlt, ho]

theorem stdout (h : Opens t es) : t.get 1 = some .console := h.std 1 (by omega)

theorem congr {es' : List (Nat × Obj)} (h : Opens t es) (heq : ∀ e, e ∈ es ↔ e ∈ es') :
    Opens t es' where
  std := h.std
  entry e he := h.entry e ((heq e).2 he)
  only fd o ho := (h.only fd o ho).imp_right (heq _).1

theorem closed (h : Opens t es) (hfd : 3 ≤ fd) (hfree : fd ∉ es.map Prod.fst) :
    t.get fd = none := by
  by_contra hopen
  obtain ⟨o, ho⟩ := Option.ne_none_iff_exists'.mp hopen
  obtain hlt | hmem := h.only fd o (of_get ho)
  · omega
  · exact hfree (List.mem_map.mpr ⟨_, hmem, rfl⟩)

theorem holds (h : Opens t es) (ho : Holds t o) : o = .console ∨ ∃ fd, (fd, o) ∈ es := by
  obtain ⟨fd, hfd⟩ := ho
  obtain hlt | hmem := h.only fd o hfd
  · rw [h.std fd hlt] at hfd
    exact .inl (Option.some.inj hfd).symm
  · exact .inr ⟨fd, hmem⟩

theorem not_holds (h : Opens t es) (hes : ∀ fd, (fd, o) ∉ es) (ho : o ≠ .console := by nofun) :
    ¬Holds t o := by
  intro hholds
  obtain hc | ⟨fd, hfd⟩ := h.holds hholds
  · exact ho hc
  · exact hes fd hfd

theorem holds_of_mem (h : Opens t es) (he : (fd, o) ∈ es) : Holds t o := ⟨fd, (h.entry _ he).1⟩

theorem support (h : Opens t es) (hfd : NOFILE ≤ fd) : t fd = none := by
  by_contra hopen
  obtain ⟨o, ho⟩ := Option.ne_none_iff_exists'.mp hopen
  obtain hlt | hmem := h.only fd o ho
  · simp only [NOFILE] at hfd
    omega
  · have := (h.entry _ hmem).2.2
    omega

theorem close (h : Opens t ((fd, o) :: es)) (hfree : fd ∉ es.map Prod.fst) :
    Opens (update t fd none) es := by
  obtain ⟨-, hthree, -⟩ := h.entry _ List.mem_cons_self
  refine ⟨fun k hk => ?_, fun e he => ?_, fun k v hv => ?_⟩
  · rw [update_of_ne (by omega), h.std k hk]
  · have hne : e.1 ≠ fd := fun heq => hfree (List.mem_map.mpr ⟨e, he, heq⟩)
    rw [update_of_ne hne]
    exact h.entry e (List.mem_cons_of_mem _ he)
  · have hne : k ≠ fd := by
      intro heq
      rw [heq, update_self] at hv
      cases hv
    rw [update_of_ne hne] at hv
    refine (h.only k v hv).imp_right fun hmem => ?_
    rcases List.mem_cons.mp hmem with heq | hmem
    · exact absurd (Prod.mk.inj heq).1 hne
    · exact hmem

theorem alloc (h : Opens t es) (hfd : fdalloc t = some fd) :
    Opens (update t fd (some o)) ((fd, o) :: es) ∧ 3 ≤ fd ∧ fd ∉ es.map Prod.fst := by
  obtain ⟨hfree, hlt, -⟩ := fdalloc_spec hfd
  have hthree : 3 ≤ fd := Std.three_le (fun k hk => by rw [h.std k hk]; rfl) hfree
  have hnew : fd ∉ es.map Prod.fst := by
    intro hmem
    obtain ⟨e, he, rfl⟩ := List.mem_map.mp hmem
    rw [(h.entry e he).1] at hfree
    cases hfree
  refine ⟨⟨fun k hk => ?_, fun e he => ?_, fun k v hv => ?_⟩, hthree, hnew⟩
  · rw [update_of_ne (by omega), h.std k hk]
  · rcases List.mem_cons.mp he with rfl | he
    · exact ⟨update_self .., hthree, hlt⟩
    · have hne : e.1 ≠ fd := fun heq => hnew (List.mem_map.mpr ⟨e, he, heq⟩)
      rw [update_of_ne hne]
      exact h.entry e he
  · by_cases heq : k = fd
    · subst heq
      rw [update_self] at hv
      exact .inr (by rw [Option.some.inj hv]; exact List.mem_cons_self)
    · rw [update_of_ne heq] at hv
      exact (h.only k v hv).imp_right (List.mem_cons_of_mem _)

theorem room (h : Opens t es) (hlen : es.length < NOFILE - 3) : ∃ fd, fdalloc t = some fd := by
  by_contra hfull
  rw [← Option.isSome_iff_exists, Option.not_isSome_iff_eq_none, fdalloc,
    List.find?_eq_none] at hfull
  have hsub : List.range' 3 (NOFILE - 3) ⊆ es.map Prod.fst := by
    intro fd hfd
    have hrange : 3 ≤ fd ∧ fd < 3 + (NOFILE - 3) := by simpa using hfd
    have hopen := hfull fd (List.mem_range.mpr (by simp only [NOFILE] at *; omega))
    obtain ⟨o, ho⟩ := Option.ne_none_iff_exists'.mp (by simpa using hopen)
    obtain hlt | hmem := h.only fd o ho
    · omega
    · exact List.mem_map.mpr ⟨_, hmem, rfl⟩
  have hle := (List.subperm_of_subset List.nodup_range' hsub).length_le
  rw [List.length_range', List.length_map] at hle
  omega

theorem eq_consoleTable (h : Opens t []) : t = consoleTable := by
  funext fd
  rw [consoleTable]
  split
  next hlt => exact h.std fd hlt
  next hge =>
    by_contra hopen
    obtain ⟨o, ho⟩ := Option.ne_none_iff_exists'.mp hopen
    exact (h.only fd o ho).elim hge nofun

end Opens

theorem opens_consoleTable : Opens consoleTable [] where
  std _ hfd := if_pos hfd
  entry := nofun
  only fd o ho := by
    rw [consoleTable] at ho
    split at ho
    · exact .inl ‹_›
    · cases ho

/-- How many descriptors are open. -/
def opened (t : Table) : Nat := ((range NOFILE).filter fun fd => (t fd).isSome).card

theorem opened_close {t : Table} {fd : Nat} (hfd : fd < NOFILE) (hopen : (t fd).isSome) :
    opened (update t fd none) < opened t := by
  refine card_lt_card (ssubset_iff_of_subset ?_ |>.mpr ⟨fd, ?_, ?_⟩)
  · intro k hk
    obtain ⟨hlt, hsome⟩ := mem_filter.mp hk
    refine mem_filter.mpr ⟨hlt, ?_⟩
    by_cases heq : k = fd
    · rw [heq]
      exact hopen
    · rwa [update_of_ne heq] at hsome
  · exact mem_filter.mpr ⟨mem_range.mpr hfd, hopen⟩
  · simp

/-! ## Along a run -/

section

variable {L : Type} {prog : L → Code L} {s s' : State L} {p q : Nat} {x x' y : Proc L}

/-- Process `q` has no end of an old pipe that it had not before. -/
def Kept (s s' : State L) (q : Nat) (y : Proc L) : Prop :=
  ∃ y', s'.procs[q]? = some y' ∧ ∀ i < s.pipes.length, Holds y'.fds (.writeEnd i) →
    Holds y.fds (.writeEnd i)

theorem kept_set (hp : s.procs[p]? = some x) (hq : s.procs[q]? = some y)
    (hprocs : s'.procs = s.procs.set p x')
    (hx : ∀ i < s.pipes.length, Holds x'.fds (.writeEnd i) → Holds x.fds (.writeEnd i)) :
    Kept s s' q y := by
  by_cases heq : q = p
  · subst heq
    rw [hp] at hq
    cases hq
    refine ⟨x', ?_, hx⟩
    rw [hprocs, List.getElem?_set_self (List.getElem?_eq_some_iff.mp hp).1]
  · refine ⟨y, ?_, fun _ _ => id⟩
    rw [hprocs, List.getElem?_set_ne (Ne.symm heq), hq]

theorem kept_resume {c : Code L} (hp : s.procs[p]? = some x) (hq : s.procs[q]? = some y)
    (hprocs : s'.procs = s.procs) :
    Kept s (s'.resume p x c) q y := by
  have hset : (s'.resume p x c).procs = s.procs.set p { x with run := .code c, sent := 0 } := by
    rw [State.resume, State.set, hprocs]
  exact kept_set hp hq hset fun _ _ => id

/-- A process gets the write end of a pipe only when the pipe is made or when it is forked. -/
theorem Step.kept {ok : Bool} (hs : Step prog ok s s') (hq : s.procs[q]? = some y) :
    Kept s s' q y := by
  cases hs with
  | jump here => exact kept_set here.1 hq rfl fun _ _ => id
  | fork here =>
    obtain ⟨y', hy', hheld⟩ := kept_resume here.1 hq rfl
    refine ⟨y', ?_, hheld⟩
    rw [State.spawn, List.getElem?_append_left (List.getElem?_eq_some_iff.mp hy').1, hy']
  | exitClose here | imageClose here =>
    exact kept_set (by first | exact here.1 | exact here) hq rfl fun _ _ => holds_close
  | exit here | exec here => exact kept_set here.1 hq rfl fun _ _ => id
  | imageExit here => exact kept_set here hq rfl fun _ _ => id
  | @wait _ p x k c z here child _ zombie =>
    have hne : c ≠ p := by
      rintro rfl
      rw [here.1] at child
      cases child
      rw [here.2] at zombie
      cases zombie
    obtain ⟨y₁, hy₁, h₁⟩ : Kept s (s.set c { z with run := .gone }) q y :=
      kept_set child hq rfl fun _ _ => id
    have hp : (s.set c { z with run := .gone }).procs[p]? = some x := by
      rw [State.set, List.getElem?_set_ne hne, here.1]
    obtain ⟨y₂, hy₂, h₂⟩ := kept_resume (c := k (c : Int)) hp hy₁ rfl
    exact ⟨y₂, hy₂, fun i hi hheld => h₁ i hi (h₂ i hi hheld)⟩
  | pipe here =>
    refine kept_set here.1 hq rfl fun i hi hheld => ?_
    obtain hheld | heq := holds_update hheld
    · exact (holds_update hheld).resolve_right nofun
    · cases heq
      exact absurd hi (lt_irrefl _)
  | close here => exact kept_set here.1 hq rfl fun _ _ => holds_close
  | dup here isOpen =>
    refine kept_set here.1 hq rfl fun i hi hheld => ?_
    obtain hheld | heq := holds_update hheld
    · exact hheld
    · cases heq
      exact ⟨_, of_get isOpen⟩
  | openFile here =>
    exact kept_set here.1 hq rfl fun i _ hi => (holds_update hi).resolve_right nofun
  | forkFail here | waitNone here | pipeFail here | closeFail here | dupFail here | openFail here
  | execFail here | readOther here | readFail here | writeBroken here | writeFile here
  | writeFail here =>
    exact kept_resume here.1 hq rfl
  | read here | write here | writeConsole here => exact kept_resume here.1 hq rfl
  | writePart here => exact kept_set here.1 hq rfl fun _ _ => id

theorem Step.length_pipes {ok : Bool} (hs : Step prog ok s s') :
    s.pipes.length ≤ s'.pipes.length := by
  cases hs with
  | pipe => exact (List.sublist_append_left ..).length_le
  | read | write | writePart => exact (List.length_modify ..).ge
  | _ => exact Nat.le_refl _

theorem procs_reaches (hq : s.procs[q]? = some y)
    (hr : Relation.ReflTransGen (Step prog true) s s') :
    ∃ y', s'.procs[q]? = some y' := by
  induction hr with
  | refl => exact ⟨y, hq⟩
  | tail _ hs ih =>
    obtain ⟨y₁, hy₁⟩ := ih
    obtain ⟨y₂, hy₂, -⟩ := hs.kept hy₁
    exact ⟨y₂, hy₂⟩

end

end Xv6.User
