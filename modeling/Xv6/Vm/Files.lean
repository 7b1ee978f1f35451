import Xv6.Vm.User

/-!
# Files and pipes

The reference count of a file is the number of references to it: of descriptors that name it, and of
variables of running code. A pipe has one file for each of its open ends, and its page is that of an
open pipe as long as it has one.
-/

namespace Xv6.Vm

open Lib Function List Multiset

theorem sum_change {ι M : Type} [Fintype ι] [DecidableEq ι] [AddCommMonoid M] {f g : ι → M} (i : ι)
    (h : ∀ j, j ≠ i → g j = f j) : ∑ j, g j + f i = ∑ j, f j + g i := by
  have hrest : ∑ j ∈ Finset.univ.erase i, g j = ∑ j ∈ Finset.univ.erase i, f j :=
    Finset.sum_congr rfl fun j hj => h j (Finset.ne_of_mem_erase hj)
  rw [← Finset.sum_erase_add Finset.univ g (Finset.mem_univ i),
    ← Finset.sum_erase_add Finset.univ f (Finset.mem_univ i), hrest]
  exact add_right_comm ..

/-- Whether the write end or the read end is open. -/
def PipeEnds.isOpen (e : PipeEnds) (w : Bool) : Bool := if w then e.writeopen else e.readopen

def PipeEnds.close (e : PipeEnds) (w : Bool) : PipeEnds :=
  if w then { e with writeopen := false } else { e with readopen := false }

theorem PipeEnds.isOpen_close (e : PipeEnds) (w v : Bool) :
    (e.close w).isOpen v = if v = w then false else e.isOpen v := by
  cases w <;> cases v <;> rfl

namespace Kern

/-- The files that descriptors name, once for each descriptor. -/
@[irreducible]
def descriptors (k : Kern) : Multiset FileId :=
  ∑ x : Slot × Fd, ((k.proc x.1).ofile x.2).elim 0 fun f => {f}

/-- The pages of the pipes that have a file. -/
@[irreducible]
def openPipes (k : Kern) : Finset Nat :=
  Finset.univ.biUnion fun f => match (k.file f).kind with
    | .pipe page => {page}
    | .none | .other => ∅

theorem mem_openPipes {k : Kern} {page : Nat} :
    page ∈ k.openPipes ↔ ∃ f, (k.file f).kind = .pipe page := by
  rw [openPipes, Finset.mem_biUnion]
  refine ⟨fun ⟨f, _, h⟩ => ⟨f, ?_⟩, fun ⟨f, h⟩ => ⟨f, Finset.mem_univ f, ?_⟩⟩
  · split at h
    · rename_i hk
      rw [hk, Finset.mem_singleton.1 h]
    all_goals cases h
  · rw [h]
    exact Finset.mem_singleton_self page

def pipes (k : Kern) : Pages := .cells k.openPipes.val

end Kern

/-- Each open end of a pipe has one file. -/
structure Pipes (k : Kern) : Prop where
  isOpen : ∀ f page, (k.file f).kind = .pipe page → (k.pipe page).isOpen (k.file f).writable = true
  file : ∀ f page w, (k.file f).kind = .pipe page → (k.pipe page).isOpen w = true →
    ∃ f', (k.file f').kind = .pipe page ∧ (k.file f').writable = w
  unique : ∀ f f' page, (k.file f).kind = .pipe page → (k.file f').kind = .pipe page →
    (k.file f).writable = (k.file f').writable → f = f'

/-- The law of files, where `D` are all references. -/
structure Files (k : Kern) (D : Multiset FileId) : Prop extends Pipes k where
  ref : ∀ f, (k.file f).ref = D.count f
  free : ∀ f, (k.file f).ref = 0 → (k.file f).kind = .none

section

variable {k k' : Kern} {D D' : Multiset FileId} {f : FileId} {page : Nat}

theorem Pipes.congr (h : Pipes k) (hp : k'.pipe = k.pipe)
    (hf : ∀ g q, (k'.file g).kind = .pipe q ↔ (k.file g).kind = .pipe q)
    (hw : ∀ g, (k'.file g).writable = (k.file g).writable) : Pipes k' := by
  refine ⟨fun g q hg => ?_, fun g q w hg ho => ?_, fun g g' q hg hg' he => ?_⟩
  · rw [hp, hw g]
    exact h.isOpen g q ((hf g q).1 hg)
  · obtain ⟨f', hk, hw'⟩ := h.file g q w ((hf g q).1 hg) (hp ▸ ho)
    exact ⟨f', (hf f' q).2 hk, (hw f').trans hw'⟩
  · exact h.unique g g' q ((hf g q).1 hg) ((hf g' q).1 hg') (hw g ▸ hw g' ▸ he)

theorem openPipes_congr (hf : ∀ g q, (k'.file g).kind = .pipe q ↔ (k.file g).kind = .pipe q) :
    k'.openPipes = k.openPipes := by
  ext page
  simp only [Kern.mem_openPipes, hf]

theorem pipes_congr (hf : ∀ g q, (k'.file g).kind = .pipe q ↔ (k.file g).kind = .pipe q) :
    k.pipes = k'.pipes := by
  rw [Kern.pipes, Kern.pipes, openPipes_congr hf]

theorem descriptors_of_ofile (h : ∀ q, (k'.proc q).ofile = (k.proc q).ofile) :
    k'.descriptors = k.descriptors := by
  unfold Kern.descriptors
  simp only [h]

theorem descriptors_congr (h : k'.proc = k.proc) : k'.descriptors = k.descriptors :=
  descriptors_of_ofile fun q => by rw [h]

theorem Files.congr (h : Files k D) (hf : k'.file = k.file) (hp : k'.pipe = k.pipe) :
    Files k' D where
  toPipes := h.toPipes.congr hp (fun _ _ => by rw [hf]) fun _ => by rw [hf]
  ref g := by
    rw [hf]
    exact h.ref g
  free g := by
    rw [hf]
    exact h.free g

theorem Files.ref_pos (h : Files k (f ::ₘ D)) : 0 < (k.file f).ref := by
  rw [h.ref f, Multiset.count_cons_self]
  exact Nat.succ_pos _

theorem kind_setRef (k : Kern) (f : FileId) (n : Nat) (g : FileId) :
    ((k.setFile f { k.file f with ref := n }).file g).kind = (k.file g).kind ∧
      ((k.setFile f { k.file f with ref := n }).file g).writable = (k.file g).writable := by
  rw [Kern.file_setFile]
  split
  · rename_i h
    rw [h]
    exact ⟨rfl, rfl⟩
  · exact ⟨rfl, rfl⟩

theorem Files.setRef {n : Nat} (h : Files k D) (hn : n = 0 → (k.file f).kind = .none)
    (hf : n = D'.count f) (hother : ∀ g, g ≠ f → D'.count g = D.count g) :
    Files (k.setFile f { k.file f with ref := n }) D' where
  toPipes := h.toPipes.congr rfl (fun g q => by rw [(kind_setRef k f n g).1]) fun g =>
    (kind_setRef k f n g).2
  ref g := by
    rw [Kern.file_setFile]
    split
    · rename_i hg
      rw [hg]
      exact hf
    · rename_i hg
      exact (h.ref g).trans (hother g hg).symm
  free g := by
    rw [(kind_setRef k f n g).1, Kern.file_setFile]
    split
    · rename_i hg
      rw [hg]
      exact hn
    · exact h.free g

/-- The last reference to a file that is an end of the pipe at `page` is gone. -/
def Kern.closeEnd (k : Kern) (f : FileId) (page : Nat) : Kern :=
  { k.setFile f { k.file f with ref := 0, kind := .none } with
    pipe := update k.pipe page ((k.pipe page).close (k.file f).writable) }

theorem file_closeEnd (k : Kern) (f : FileId) (page : Nat) (g : FileId) :
    (k.closeEnd f page).file g = if g = f then { k.file f with ref := 0, kind := .none }
      else k.file g :=
  update_apply ..

variable {q : Nat}

theorem kind_closeEnd {g : FileId} :
    ((k.closeEnd f page).file g).kind = .pipe q ↔ g ≠ f ∧ (k.file g).kind = .pipe q := by
  rw [file_closeEnd]
  split
  · exact ⟨nofun, fun h => absurd ‹_› h.1⟩
  · exact ⟨fun h => ⟨‹_›, h⟩, fun h => h.2⟩

theorem writable_closeEnd (g : FileId) :
    ((k.closeEnd f page).file g).writable = (k.file g).writable := by
  rw [file_closeEnd]
  split
  · rename_i h
    rw [h]
  · rfl

theorem isOpen_closeEnd {w : Bool} : ((k.closeEnd f page).pipe q).isOpen w = true ↔
    (k.pipe q).isOpen w = true ∧ (q = page → w ≠ (k.file f).writable) := by
  show (update k.pipe page _ q).isOpen w = true ↔ _
  rw [update_apply]
  split
  · rename_i h
    rw [PipeEnds.isOpen_close, h]
    split
    · exact ⟨nofun, fun h' => absurd ‹_› (h'.2 rfl)⟩
    · exact ⟨fun h' => ⟨h', fun _ => ‹_›⟩, fun h' => h'.1⟩
  · exact ⟨fun h' => ⟨h', fun e => absurd e ‹_›⟩, fun h' => h'.1⟩

theorem Pipes.closeEnd (h : Pipes k) (hk : (k.file f).kind = .pipe page) :
    Pipes (k.closeEnd f page) := by
  refine ⟨fun g q hg => ?_, fun g q w hg hw => ?_, fun g g' q hg hg' hw => ?_⟩
  · obtain ⟨hgf, hg⟩ := kind_closeEnd.1 hg
    rw [writable_closeEnd]
    exact isOpen_closeEnd.2 ⟨h.isOpen g q hg, fun hq hw => hgf (h.unique g f q hg (hq ▸ hk) hw)⟩
  · obtain ⟨hw, hne⟩ := isOpen_closeEnd.1 hw
    obtain ⟨f', hk', hw'⟩ := h.file g q w (kind_closeEnd.1 hg).2 hw
    refine ⟨f', kind_closeEnd.2 ⟨fun hf => ?_, hk'⟩, (writable_closeEnd f').trans hw'⟩
    subst hf
    rw [hk] at hk'
    cases hk'
    exact hne rfl hw'.symm
  · rw [writable_closeEnd, writable_closeEnd] at hw
    exact h.unique g g' q (kind_closeEnd.1 hg).2 (kind_closeEnd.1 hg').2 hw

theorem mem_openPipes_closeEnd (h : Pipes k) (hk : (k.file f).kind = .pipe page) :
    q ∈ (k.closeEnd f page).openPipes ↔
      q ∈ k.openPipes ∧ (q = page → (k.pipe page).isOpen (!(k.file f).writable) = true) := by
  rw [Kern.mem_openPipes, Kern.mem_openPipes]
  constructor
  · rintro ⟨g, hg⟩
    obtain ⟨hgf, hgk⟩ := kind_closeEnd.1 hg
    refine ⟨⟨g, hgk⟩, fun hq => ?_⟩
    subst hq
    have hw : (k.file g).writable = !(k.file f).writable := by
      cases hgw : (k.file g).writable <;> cases hfw : (k.file f).writable <;>
        first | rfl | exact absurd (h.unique g f q hgk hk (hgw.trans hfw.symm)) hgf
    exact hw ▸ h.isOpen g q hgk
  · rintro ⟨⟨g, hg⟩, ho⟩
    rcases eq_or_ne g f with rfl | hgf
    · rw [hk] at hg
      cases hg
      obtain ⟨f', hk', hw'⟩ := h.file g _ _ hk (ho rfl)
      refine ⟨f', kind_closeEnd.2 ⟨fun e => ?_, hk'⟩⟩
      subst e
      cases hw : (k.file f').writable <;> rw [hw] at hw' <;> cases hw'
    · exact ⟨g, kind_closeEnd.2 ⟨hgf, hg⟩⟩

theorem pipes_closeEnd (h : Pipes k) (hk : (k.file f).kind = .pipe page) :
    k.pipes = if (k.pipe page).isOpen (!(k.file f).writable) then (k.closeEnd f page).pipes
      else .cell page * (k.closeEnd f page).pipes := by
  have hmem := fun q => mem_openPipes_closeEnd h hk (q := q)
  split
  · rename_i ho
    have : (k.closeEnd f page).openPipes = k.openPipes := by
      ext q
      exact (hmem q).trans ⟨fun h => h.1, fun h => ⟨h, fun _ => ho⟩⟩
    rw [Kern.pipes, Kern.pipes, this]
  · rename_i ho
    have hpage : page ∉ (k.closeEnd f page).openPipes := fun hp => ho (((hmem page).1 hp).2 rfl)
    have : k.openPipes = Finset.cons page _ hpage := by
      ext q
      rw [Finset.mem_cons, hmem]
      constructor
      · intro hq
        rcases eq_or_ne q page with hqp | hqp
        · exact .inl hqp
        · exact .inr ⟨hq, fun e => absurd e hqp⟩
      · rintro (rfl | hq)
        · exact Kern.mem_openPipes.2 ⟨f, hk⟩
        · exact hq.1
    rw [Kern.pipes, this, Finset.cons_val, Asrt.cells_cons]
    rfl

theorem pipeclose_spec (h : Pipes k) (hk : (k.file f).kind = .pipe page) {x : File}
    (hx : x = { k.file f with ref := 0, kind := .none }) :
    Spec (k.setFile f x) k.pipes (pipeclose page (k.file f).writable)
      fun _ k' => .given (k' = k.closeEnd f page) k'.pipes := by
  subst hx
  refine .kern (.setKern ?_)
  show Spec (k.closeEnd f page) _ (if ((k.pipe page).close (k.file f).writable).readopen = false ∧
    ((k.pipe page).close (k.file f).writable).writeopen = false then _ else _) _
  have hends : (((k.pipe page).close (k.file f).writable).readopen = false ∧
      ((k.pipe page).close (k.file f).writable).writeopen = false) ↔
      ¬(k.pipe page).isOpen (!(k.file f).writable) = true := by
    cases (k.file f).writable <;> simp [PipeEnds.close, PipeEnds.isOpen]
  rw [pipes_closeEnd h hk]
  split
  · rename_i ho
    rw [if_neg fun h => hends.1 h ho]
    exact .ret fun T pt h => ⟨rfl, h⟩
  · rename_i ho
    rw [if_pos (hends.2 ho)]
    refine .mem Triple.kfree.frame fun _ => .ret fun T pt h => ⟨rfl, ?_⟩
    rwa [one_mul] at h

theorem Files.last (h : Files k (f ::ₘ D)) (hp : Pipes k')
    (hfile : ∀ g, k'.file g = if g = f then { k.file f with ref := 0, kind := .none } else k.file g)
    (hone : D.count f = 0) : Files k' D := by
  refine ⟨hp, fun g => ?_, fun g => ?_⟩
  · rw [hfile g]
    split
    · rename_i hg
      rw [hg]
      exact hone.symm
    · exact (h.ref g).trans (count_cons_of_ne ‹_› D)
  · rw [hfile g]
    split
    · exact fun _ => rfl
    · exact h.free g

theorem fileclose_spec (h : Files k (f ::ₘ D)) : Spec k k.pipes (fileclose f)
    fun _ k' => .given (Files k' D ∧ k'.proc = k.proc) k'.pipes := by
  have href : (k.file f).ref = D.count f + 1 := by
    rw [h.ref f, Multiset.count_cons_self]
  refine .kern ?_
  show Spec k _ (if (k.file f).ref = 0 then _ else if 1 < (k.file f).ref then _ else _) _
  rw [if_neg (by omega)]
  split
  · have hf := h.setRef (n := (k.file f).ref - 1) (by omega) (by omega) fun g hg =>
      (count_cons_of_ne hg D).symm
    have hpipes : k.pipes = (k.setFile f { k.file f with ref := (k.file f).ref - 1 }).pipes :=
      pipes_congr fun g q => by rw [(kind_setRef k f _ g).1]
    exact .kern (.setKern (.ret fun T pt hp => ⟨⟨hf, rfl⟩, hpipes.le T pt hp⟩))
  · refine .kern (.setKern ?_)
    have hother (hk : ∀ q, (k.file f).kind ≠ .pipe q) :
        Spec (k.setFile f { k.file f with ref := 0, kind := .none }) k.pipes (.ret ())
          fun _ k' => .given (Files k' D ∧ k'.proc = k.proc) k'.pipes := by
      have hkind : ∀ g q, ((k.setFile f { k.file f with ref := 0, kind := .none }).file g).kind =
          .pipe q ↔
          (k.file g).kind = .pipe q := fun g q => by
        rw [Kern.file_setFile]
        split
        · rename_i hg
          exact ⟨nofun, fun e => absurd (hg ▸ e) (hk q)⟩
        · exact Iff.rfl
      have hw : ∀ g, ((k.setFile f { k.file f with ref := 0, kind := .none }).file g).writable =
          (k.file g).writable := fun g => by
        rw [Kern.file_setFile]
        split
        · rename_i hg
          rw [hg]
        · rfl
      have hf : Files (k.setFile f { k.file f with ref := 0, kind := .none }) D :=
        h.last (h.toPipes.congr rfl hkind hw) (Kern.file_setFile k f _) (by omega)
      exact .ret fun T pt hp => ⟨⟨hf, rfl⟩, (pipes_congr hkind).le T pt hp⟩
    cases hk : (k.file f).kind with
    | none => exact hother fun q => by rw [hk]; nofun
    | other => exact hother fun q => by rw [hk]; nofun
    | pipe page =>
      refine (pipeclose_spec h.toPipes hk rfl).conseq le_rfl fun _ k' T pt ⟨hk', hp⟩ => ⟨?_, hp⟩
      subst hk'
      exact ⟨h.last (h.toPipes.closeEnd hk) (file_closeEnd k f page) (by omega), rfl⟩

variable {P : Pages}

theorem filealloc_spec (h : Files k D) (hP : P = k.pipes) : Spec k P filealloc fun r k' =>
    match r with
    | none => .given (k' = k) P
    | some f => .given ((k.file f).ref = 0 ∧ k' = k.setFile f { k.file f with ref := 1 } ∧
        Files k' (f ::ₘ D) ∧ P = k'.pipes) P := by
  refine .kern ?_
  show Spec k P (match (finRange NFILE).find? fun f => (k.file f).ref = 0 with
    | none => _
    | some f => _) _
  cases hfind : (finRange NFILE).find? fun f => (k.file f).ref = 0 with
  | none => exact .ret fun T pt h => ⟨rfl, h⟩
  | some f =>
    have hf : (k.file f).ref = 0 := by simpa using find?_some hfind
    have hcount : D.count f = 0 := by rw [← h.ref f, hf]
    have hpipes : k.pipes = (k.setFile f { k.file f with ref := 1 }).pipes :=
      pipes_congr fun g q => by rw [(kind_setRef k f 1 g).1]
    have hnew : Files (k.setFile f { k.file f with ref := 1 }) (f ::ₘ D) := by
      refine h.setRef nofun ?_ fun g hg => Multiset.count_cons_of_ne hg D
      rw [Multiset.count_cons_self, hcount]
    exact .kern (.setKern (.ret fun T pt hp => ⟨⟨hf, rfl, hnew, hP.trans hpipes⟩, hp⟩))

/-! ## Descriptors -/

def Kern.setFd (k : Kern) (p : Slot) (fd : Fd) (v : Option FileId) : Kern :=
  k.setProc p { k.proc p with ofile := update (k.proc p).ofile fd v }

variable {p : Slot} {fd : Fd} {v : Option FileId}

theorem ofile_setFd {q : Slot} {d : Fd} :
    ((k.setFd p fd v).proc q).ofile d = if q = p ∧ d = fd then v else (k.proc q).ofile d := by
  rw [Kern.setFd, Kern.proc_setProc]
  by_cases hq : q = p
  · subst hq
    rw [if_pos rfl]
    show update (k.proc q).ofile fd v d = _
    rw [update_apply]
    exact if_congr (by simp) rfl rfl
  · rw [if_neg hq, if_neg fun h => hq h.1]

theorem descriptors_setFd (k : Kern) (p : Slot) (fd : Fd) (v : Option FileId) :
    (k.setFd p fd v).descriptors + ((k.proc p).ofile fd).elim 0 (fun f => {f}) =
      k.descriptors + v.elim 0 fun f => {f} := by
  have :=
    sum_change (f := fun x : Slot × Fd => ((k.proc x.1).ofile x.2).elim 0 fun f =>
      ({f} : Multiset FileId))
    (g := fun x : Slot × Fd => (((k.setFd p fd v).proc x.1).ofile x.2).elim 0 fun f =>
      ({f} : Multiset FileId))
    (p, fd) fun x hx => by
      rw [ofile_setFd, if_neg fun h => hx (Prod.ext h.1 h.2)]
  unfold Kern.descriptors
  rw [this, ofile_setFd, if_pos ⟨rfl, rfl⟩]

theorem descriptors_install (hfd : (k.proc p).ofile fd = none) :
    (k.setFd p fd (some f)).descriptors = f ::ₘ k.descriptors := by
  have hd := descriptors_setFd k p fd (some f)
  rwa [hfd, Option.elim_none, add_zero, Option.elim_some, add_comm, singleton_add] at hd

theorem descriptors_clear (hfd : (k.proc p).ofile fd = some f) :
    k.descriptors = f ::ₘ (k.setFd p fd none).descriptors := by
  have hd := descriptors_setFd k p fd none
  rw [hfd, Option.elim_none, add_zero, Option.elim_some, add_comm, singleton_add] at hd
  exact hd.symm

theorem pipes_setFd : (k.setFd p fd v).pipes = k.pipes :=
  pipes_congr fun _ _ => Iff.rfl

/-- Nothing but descriptors of `p` has changed in the process table. -/
structure FdStep (p : Slot) (k k' : Kern) : Prop where
  other : ∀ q, q ≠ p → k'.proc q = k.proc q
  self : ∃ o, k'.proc p = { k.proc p with ofile := o }

theorem FdStep.of_eq (h : k'.proc = k.proc) : FdStep p k k' :=
  ⟨fun q _ => congrFun h q, (k.proc p).ofile, congrFun h p⟩

theorem FdStep.setFd : FdStep p k (k.setFd p fd v) :=
  ⟨fun _ hq => (Kern.proc_setProc ..).trans (if_neg hq), _, Kern.proc_setProc_self ..⟩

variable {k'' : Kern}

theorem FdStep.trans (h : FdStep p k k') (h' : FdStep p k' k'') : FdStep p k k'' := by
  obtain ⟨o, ho⟩ := h.self
  obtain ⟨o', ho'⟩ := h'.self
  exact ⟨fun q hq => (h'.other q hq).trans (h.other q hq), o', by rw [ho', ho]⟩

theorem fdalloc_spec : Spec k P (fdalloc p f) fun r k' => match r with
    | none => .given (k' = k) P
    | some fd => .given ((k.proc p).ofile fd = none ∧ k' = k.setFd p fd (some f)) P := by
  refine .kern ?_
  show Spec k P (match (finRange NOFILE).find? fun fd => ((k.proc p).ofile fd).isNone with
    | none => _
    | some fd => _) _
  cases hfind : (finRange NOFILE).find? fun fd => ((k.proc p).ofile fd).isNone with
  | none => exact .ret fun T pt h => ⟨rfl, h⟩
  | some fd =>
    have hfd : (k.proc p).ofile fd = none := by simpa using find?_some hfind
    exact .kern (.setKern (.ret fun T pt h => ⟨⟨hfd, rfl⟩, h⟩))

/-! ## Pipes -/

/-- The files `f₀` and `f₁` become the ends of a pipe. -/
def Kern.openPipe (k : Kern) (f₀ f₁ : FileId) (page : Nat) : Kern :=
  (({ k with pipe := update k.pipe page ⟨true, true⟩ } : Kern).setFile f₀
    ⟨(k.file f₀).ref, .pipe page, false⟩).setFile f₁ ⟨(k.file f₁).ref, .pipe page, true⟩

section

variable {f₀ f₁ : FileId}

theorem file_openPipe (g : FileId) : (k.openPipe f₀ f₁ page).file g =
    if g = f₁ then ⟨(k.file f₁).ref, .pipe page, true⟩
    else if g = f₀ then ⟨(k.file f₀).ref, .pipe page, false⟩ else k.file g := by
  rw [Kern.openPipe, Kern.file_setFile, Kern.file_setFile]

variable {g : FileId} {q : Nat}

theorem kind_openPipe (h₀ : (k.file f₀).kind = .none) (h₁ : (k.file f₁).kind = .none) :
    ((k.openPipe f₀ f₁ page).file g).kind = .pipe q ↔ (q = page ∧ (g = f₀ ∨ g = f₁)) ∨
    (k.file g).kind = .pipe q := by
  rw [file_openPipe]
  split
  · rename_i hg
    subst hg
    rw [h₁]
    exact ⟨fun h => .inl ⟨(FileKind.pipe.inj h).symm, .inr rfl⟩,
      by rintro (⟨rfl, -⟩ | h); rfl; cases h⟩
  · split
    · rename_i hg
      subst hg
      rw [h₀]
      exact ⟨fun h => .inl ⟨(FileKind.pipe.inj h).symm, .inl rfl⟩,
        by rintro (⟨rfl, -⟩ | h); rfl; cases h⟩
    · exact ⟨.inr, fun h => h.elim (fun h => absurd h.2 (by simp [*])) id⟩

theorem pipe_openPipe (q : Nat) :
    (k.openPipe f₀ f₁ page).pipe q = if q = page then ⟨true, true⟩ else k.pipe q := update_apply ..

theorem file_openPipe_of_pipe (h₀ : (k.file f₀).kind = .none) (h₁ : (k.file f₁).kind = .none)
    (hg : (k.file g).kind = .pipe q) : (k.openPipe f₀ f₁ page).file g = k.file g := by
  rw [file_openPipe, if_neg, if_neg]
  · rintro rfl
    rw [h₀] at hg
    cases hg
  · rintro rfl
    rw [h₁] at hg
    cases hg

theorem Pipes.openPipe (h : Pipes k) (hne : f₀ ≠ f₁) (h₀ : (k.file f₀).kind = .none)
    (h₁ : (k.file f₁).kind = .none) (hpage : page ∉ k.openPipes) :
    Pipes (k.openPipe f₀ f₁ page) := by
  have hw₀ : ((k.openPipe f₀ f₁ page).file f₀).writable = false := by
    rw [file_openPipe, if_neg hne, if_pos rfl]
  have hw₁ : ((k.openPipe f₀ f₁ page).file f₁).writable = true := by
    rw [file_openPipe, if_pos rfl]
  have hold {g : FileId} {q : Nat} (hg : (k.file g).kind = .pipe q) : q ≠ page :=
    fun e => hpage (Kern.mem_openPipes.2 ⟨g, e ▸ hg⟩)
  have hsame {g : FileId} {q : Nat} (hg : (k.file g).kind = .pipe q) :
      (k.openPipe f₀ f₁ page).file g = k.file g := file_openPipe_of_pipe h₀ h₁ hg
  refine ⟨fun g q hg => ?_, fun g q w hg hw => ?_, fun g g' q hg hg' hw => ?_⟩
  · rw [pipe_openPipe]
    rcases (kind_openPipe h₀ h₁).1 hg with ⟨rfl, rfl | rfl⟩ | hg
    · rw [if_pos rfl, hw₀]
      rfl
    · rw [if_pos rfl, hw₁]
      rfl
    · rw [if_neg (hold hg), hsame hg]
      exact h.isOpen g q hg
  · rcases (kind_openPipe h₀ h₁).1 hg with ⟨rfl, -⟩ | hg
    · cases w with
      | false => exact ⟨f₀, (kind_openPipe h₀ h₁).2 (.inl ⟨rfl, .inl rfl⟩), hw₀⟩
      | true => exact ⟨f₁, (kind_openPipe h₀ h₁).2 (.inl ⟨rfl, .inr rfl⟩), hw₁⟩
    · rw [pipe_openPipe, if_neg (hold hg)] at hw
      obtain ⟨f', hf', hw'⟩ := h.file g q w hg hw
      exact ⟨f', (kind_openPipe h₀ h₁).2 (.inr hf'), by rw [hsame hf', hw']⟩
  · rcases (kind_openPipe h₀ h₁).1 hg with ⟨rfl, he⟩ | hold₁
    · rcases (kind_openPipe h₀ h₁).1 hg' with ⟨-, he'⟩ | hold₂
      · rcases he with rfl | rfl <;> rcases he' with rfl | rfl
        · rfl
        · rw [hw₀, hw₁] at hw
          cases hw
        · rw [hw₀, hw₁] at hw
          cases hw
        · rfl
      · exact absurd rfl (hold hold₂)
    · rcases (kind_openPipe h₀ h₁).1 hg' with ⟨rfl, -⟩ | hold₂
      · exact absurd rfl (hold hold₁)
      · rw [hsame hold₁, hsame hold₂] at hw
        exact h.unique g g' q hold₁ hold₂ hw

theorem Files.openPipe (h : Files k D) (hne : f₀ ≠ f₁) (h₀ : (k.file f₀).kind = .none)
    (h₁ : (k.file f₁).kind = .none) (hr₀ : (k.file f₀).ref ≠ 0) (hr₁ : (k.file f₁).ref ≠ 0)
    (hpage : page ∉ k.openPipes) : Files (k.openPipe f₀ f₁ page) D := by
  have href (g : FileId) : ((k.openPipe f₀ f₁ page).file g).ref = (k.file g).ref := by
    rw [file_openPipe]
    split
    · rename_i hg
      rw [hg]
    · split
      · rename_i hg
        rw [hg]
      · rfl
  refine ⟨h.toPipes.openPipe hne h₀ h₁ hpage, fun g => ?_, fun g hg => ?_⟩
  · rw [href, h.ref g]
  · rw [href] at hg
    rw [file_openPipe, if_neg, if_neg]
    · exact h.free g hg
    · rintro rfl
      exact hr₀ hg
    · rintro rfl
      exact hr₁ hg

theorem pipes_openPipe (h₀ : (k.file f₀).kind = .none) (h₁ : (k.file f₁).kind = .none)
    (hpage : page ∉ k.openPipes) : (k.openPipe f₀ f₁ page).pipes = .cell page * k.pipes := by
  have : (k.openPipe f₀ f₁ page).openPipes = Finset.cons page k.openPipes hpage := by
    ext q
    rw [Finset.mem_cons, Kern.mem_openPipes, Kern.mem_openPipes]
    constructor
    · rintro ⟨g, hg⟩
      rcases (kind_openPipe h₀ h₁).1 hg with ⟨hq, -⟩ | hg
      · exact .inl hq
      · exact .inr ⟨g, hg⟩
    · rintro (hq | ⟨g, hg⟩)
      · exact ⟨f₀, (kind_openPipe h₀ h₁).2 (.inl ⟨hq, .inl rfl⟩)⟩
      · exact ⟨g, (kind_openPipe h₀ h₁).2 (.inr hg)⟩
  rw [Kern.pipes, this, Finset.cons_val, Asrt.cells_cons]
  rfl

end

theorem pipealloc_spec (h : Files k D) : Spec k k.pipes pipealloc fun r k' => match r with
    | none => .given (Files k' D ∧ k'.proc = k.proc) k'.pipes
    | some (f₀, f₁) => .given (Files k' (f₀ ::ₘ f₁ ::ₘ D) ∧ k'.proc = k.proc) k'.pipes := by
  refine (filealloc_spec h rfl).bind fun r k₁ => ?_
  cases r with
  | none =>
    refine .given fun hk => .ret fun T pt hp => ?_
    subst hk
    exact ⟨⟨h, rfl⟩, hp⟩
  | some f₀ =>
    refine .given fun ⟨hr₀, hk₁, h₁, hp₁⟩ => ?_
    have hproc₁ : k₁.proc = k.proc := hk₁ ▸ rfl
    refine (filealloc_spec h₁ hp₁).bind fun r k₂ => ?_
    cases r with
    | none =>
      refine .given fun hk₂ => ?_
      subst hk₂
      rw [hp₁]
      refine (fileclose_spec h₁).bind fun _ k' => .given fun ⟨hf, hproc⟩ => .ret fun T pt hp =>
        ⟨⟨hf, ?_⟩, hp⟩
      exact hproc.trans hproc₁
    | some f₁ =>
      refine .given fun ⟨hr₁, hk₂, h₂, hp₂⟩ => ?_
      have hproc₂ : k₂.proc = k.proc := hk₂ ▸ hproc₁
      rw [cons_swap] at h₂
      rw [hp₂]
      refine .mem kalloc_spec.frame_one fun r => ?_
      cases r with
      | none =>
        rw [optCell, one_mul]
        refine (fileclose_spec h₂).bind fun _ k₃ => .given fun ⟨h₃, hproc₃⟩ => ?_
        refine (fileclose_spec h₃).bind fun _ k' => .given fun ⟨hf, hproc⟩ => .ret fun T pt hp =>
          ⟨⟨hf, ?_⟩, hp⟩
        exact hproc.trans (hproc₃.trans hproc₂)
      | some page =>
        have hne : f₀ ≠ f₁ := by
          rintro rfl
          rw [hk₁, Kern.file_setFile, if_pos rfl] at hr₁
          cases hr₁
        have hkind₀ : (k₂.file f₀).kind = .none := by
          rw [hk₂, (kind_setRef k₁ f₁ 1 f₀).1, hk₁, (kind_setRef k f₀ 1 f₀).1]
          exact h.free f₀ hr₀
        have hkind₁ : (k₂.file f₁).kind = .none := by
          rw [hk₂, (kind_setRef k₁ f₁ 1 f₁).1]
          exact h₁.free f₁ hr₁
        have hfresh : ∀ m T R, Own m (T + R) → (optCell (some page) * k₂.pipes).holds T m.page →
            page ∉ k₂.openPipes := by
          rintro m _ R hO ⟨_, _, rfl, rfl, rfl⟩ hmem
          rw [add_assoc] at hO
          exact hO.not_mem (Multiset.mem_singleton_self page) (Multiset.mem_add.2 (.inl hmem))
        refine .of_own hfresh fun hpage => ?_
        have hr₁' := (Multiset.cons_swap f₀ f₁ D ▸ h₂).ref_pos
        have hnew := h₂.openPipe hne hkind₀ hkind₁ h₂.ref_pos.ne' hr₁'.ne' hpage
        have hpipes := pipes_openPipe hkind₀ hkind₁ hpage
        exact .kern (.setKern (.kern (.setKern (.kern (.setKern (.ret fun T pt hp =>
          ⟨⟨hnew, hproc₂⟩, hpipes.ge T pt hp⟩))))))

theorem Files.clear {H : Multiset FileId} (h : Files k (H + k.descriptors))
    (hfd : (k.proc p).ofile fd = some f) :
    Files (k.setFd p fd none) (f ::ₘ H + (k.setFd p fd none).descriptors) := by
  rw [descriptors_clear hfd, add_cons, ← cons_add] at h
  exact h.congr rfl rfl

theorem clearFd_spec {β : Type} {g : Unit → Code β} {Q : β → Kern → Pages}
    (h : Spec (k.setFd p fd none) (k.setFd p fd none).pipes (g ()) Q) :
    Spec k k.pipes ((clearFd p fd).bind g) Q := by
  rw [pipes_setFd] at h
  exact .kern (.setKern h)

/-! ## System calls -/

/-- The files of `k'` are in order, and the processes are those of `k` up to descriptors of `p`. -/
def filesPost (p : Slot) (k k' : Kern) : Pages :=
  .given (Files k' k'.descriptors ∧ FdStep p k k') k'.pipes

theorem closePair_spec {f₀ f₁ : FileId} (h : Files k' (f₀ ::ₘ f₁ ::ₘ 0 + k'.descriptors))
    (hs : FdStep p k k') :
    Spec k' k'.pipes (do fileclose f₀; fileclose f₁; pure (-1 : Int)) fun _ => filesPost p k := by
  rw [cons_add, cons_add, zero_add] at h
  refine (fileclose_spec h).bind fun _ k₁ => .given fun ⟨h₁, hproc₁⟩ => ?_
  refine (fileclose_spec h₁).bind fun _ k₂ => .given fun ⟨h₂, hproc₂⟩ => .ret fun T pt hp =>
    ⟨⟨?_, ?_⟩, hp⟩
  · rwa [descriptors_congr (hproc₂.trans hproc₁)]
  · exact hs.trans (.of_eq (hproc₂.trans hproc₁))

theorem sysPipe_spec {copied : Bool} (h : Files k k.descriptors) :
    Spec k k.pipes (sysPipe p copied) fun _ => filesPost p k := by
  refine (pipealloc_spec h).bind fun r k₁ => ?_
  match r with
  | none =>
    refine .given fun ⟨h₁, hproc⟩ => .ret fun T pt hp => ⟨⟨?_, .of_eq hproc⟩, hp⟩
    rwa [descriptors_congr hproc]
  | some (rf, wf) =>
    refine .given fun ⟨h₁, hproc₁⟩ => ?_
    rw [← descriptors_congr hproc₁] at h₁
    refine fdalloc_spec.bind fun r k₂ => ?_
    cases r with
    | none =>
      refine .given fun hk₂ => ?_
      subst hk₂
      refine closePair_spec ?_ (.of_eq hproc₁)
      rwa [cons_add, cons_add, zero_add]
    | some fd₀ =>
      refine .given fun ⟨hfd₀, hk₂⟩ => ?_
      have h₂ : Files k₂ (wf ::ₘ 0 + k₂.descriptors) := by
        rw [hk₂, descriptors_install hfd₀, cons_add, zero_add, cons_swap]
        exact h₁.congr rfl rfl
      have hs₂ : FdStep p k k₂ := (FdStep.of_eq hproc₁).trans (hk₂ ▸ .setFd)
      have hp₂ : k₁.pipes = k₂.pipes := hk₂ ▸ pipes_setFd.symm
      have hold₀ : (k₂.proc p).ofile fd₀ = some rf := by
        rw [hk₂, ofile_setFd, if_pos ⟨rfl, rfl⟩]
      rw [hp₂]
      refine fdalloc_spec.bind fun r k₃ => ?_
      cases r with
      | none =>
        refine .given fun hk₃ => ?_
        subst hk₃
        exact clearFd_spec (closePair_spec (h₂.clear hold₀) (hs₂.trans .setFd))
      | some fd₁ =>
        refine .given fun ⟨hfd₁, hk₃⟩ => ?_
        have h₃ : Files k₃ (0 + k₃.descriptors) := by
          rw [hk₃, descriptors_install hfd₁, add_cons, ← cons_add]
          exact h₂.congr rfl rfl
        have hs₃ : FdStep p k k₃ := hs₂.trans (hk₃ ▸ .setFd)
        have hp₃ : k₂.pipes = k₃.pipes := hk₃ ▸ pipes_setFd.symm
        have hne : fd₀ ≠ fd₁ := by
          rintro rfl
          rw [hold₀] at hfd₁
          cases hfd₁
        have hfd₀₃ : (k₃.proc p).ofile fd₀ = some rf := by
          rw [hk₃, ofile_setFd, if_neg fun h => hne h.2, hold₀]
        have hfd₁₃ : ((k₃.setFd p fd₀ none).proc p).ofile fd₁ = some wf := by
          rw [ofile_setFd, if_neg fun h => hne h.2.symm, hk₃, ofile_setFd, if_pos ⟨rfl, rfl⟩]
        rw [hp₃]
        show Spec k₃ _ (if copied then _ else _) _
        split
        · refine .ret fun T pt hp => ⟨⟨?_, hs₃⟩, hp⟩
          rwa [zero_add] at h₃
        · refine clearFd_spec (clearFd_spec (closePair_spec ?_ ((hs₃.trans .setFd).trans .setFd)))
          have h₅ := (h₃.clear hfd₀₃).clear hfd₁₃
          rwa [cons_swap] at h₅

theorem sysClose_spec (h : Files k k.descriptors) :
    Spec k k.pipes (sysClose p fd) fun _ => filesPost p k := by
  refine .kern ?_
  show Spec k _ (match (k.proc p).ofile fd with
    | none => _
    | some f => _) _
  cases hfd : (k.proc p).ofile fd with
  | none => exact .ret fun T pt hp => ⟨⟨h, .of_eq rfl⟩, hp⟩
  | some f =>
    have h₁ : Files (k.setFd p fd none) (f ::ₘ (k.setFd p fd none).descriptors) :=
      (descriptors_clear hfd ▸ h).congr rfl rfl
    refine clearFd_spec ((fileclose_spec h₁).bind fun _ k₂ => .given fun ⟨h₂, hproc⟩ =>
      .ret fun T pt hp => ⟨⟨?_, FdStep.setFd.trans (.of_eq hproc)⟩, hp⟩)
    rwa [descriptors_congr hproc]

theorem filesPost_trans (h : FdStep p k k') : filesPost p k' k'' ≤ filesPost p k k'' :=
  fun _ _ ⟨⟨hf, hs⟩, hp⟩ => ⟨⟨hf, h.trans hs⟩, hp⟩

variable {fds : List Fd}

theorem closeFiles_spec (h : Files k k.descriptors) :
    Spec k k.pipes (closeFiles p fds) fun _ k' =>
      .given (∀ fd, fd ∈ fds ∨ (k.proc p).ofile fd = none →
      (k'.proc p).ofile fd = none) (filesPost p k k') := by
  induction fds generalizing k with
  | nil => exact .ret fun T pt hp => ⟨fun _ h => h.resolve_left not_mem_nil, ⟨h, .of_eq rfl⟩, hp⟩
  | cons fd fds ih =>
    refine .kern ?_
    cases hfd : (k.proc p).ofile fd with
    | none =>
      refine (ih h).conseq le_rfl fun _ k' T pt hp => ⟨fun d hd => hp.1 d ?_, hp.2⟩
      rcases hd with hd | hd
      · rcases mem_cons.1 hd with rfl | hd
        · exact .inr hfd
        · exact .inl hd
      · exact .inr hd
    | some f =>
      refine (fileclose_spec (descriptors_clear hfd ▸ h)).bind fun _ k₁ => .given fun h₁ => ?_
      obtain ⟨h₁, hproc⟩ := h₁
      have hd : (k₁.setFd p fd none).descriptors = (k.setFd p fd none).descriptors :=
        descriptors_congr (by rw [Kern.setFd, Kern.setProc, hproc]; rfl)
      have h₂ : Files (k₁.setFd p fd none) (k₁.setFd p fd none).descriptors := by
        rw [hd]
        exact h₁.congr rfl rfl
      have hs : FdStep p k (k₁.setFd p fd none) := (FdStep.of_eq hproc).trans .setFd
      refine clearFd_spec ((ih h₂).conseq le_rfl fun _ k' T pt hp => ⟨fun d hd => hp.1 d ?_, ?_⟩)
      · rw [ofile_setFd, hproc]
        rcases hd with hd | hd
        · rcases mem_cons.1 hd with rfl | hd
          · exact .inr (if_pos ⟨rfl, rfl⟩)
          · exact .inl hd
        · rw [hd, ite_self]
          exact .inr rfl
      · exact filesPost_trans hs T pt hp.2

theorem filedup_spec (h : Files k D) (hf : f ∈ D) : Spec k k.pipes (filedup f)
    fun _ k' => .given (Files k' (f ::ₘ D) ∧ k'.proc = k.proc) k'.pipes := by
  have href : (k.file f).ref ≠ 0 := by
    rw [h.ref f]
    exact (count_pos.2 hf).ne'
  refine .kern ?_
  show Spec k _ (if (k.file f).ref = 0 then _ else _) _
  rw [if_neg href]
  have hnew : Files (k.setFile f { k.file f with ref := (k.file f).ref + 1 }) (f ::ₘ D) := by
    refine h.setRef nofun ?_ fun g hg => Multiset.count_cons_of_ne hg D
    rw [Multiset.count_cons_self, h.ref f]
  have hpipes : k.pipes = (k.setFile f { k.file f with ref := (k.file f).ref + 1 }).pipes :=
    pipes_congr fun g q => by rw [(kind_setRef k f _ g).1]
  exact .kern (.setKern (.ret fun T pt hp => ⟨⟨hnew, rfl⟩, hpipes.le T pt hp⟩))

theorem dupFiles_spec {np : Slot} (h : Files k k.descriptors)
    (hnp : ∀ fd ∈ fds, (k.proc np).ofile fd = none) (hfds : fds.Nodup) :
    Spec k k.pipes (dupFiles p np fds) fun _ => filesPost np k := by
  induction fds generalizing k with
  | nil => exact .ret fun T pt hp => ⟨⟨h, .of_eq rfl⟩, hp⟩
  | cons fd fds ih =>
    obtain ⟨hnot, hfds⟩ := nodup_cons.1 hfds
    refine .kern ?_
    show Spec k _ (match (k.proc p).ofile fd with
      | none => _
      | some f => _) _
    cases hfd : (k.proc p).ofile fd with
    | none => exact ih h (fun d hd => hnp d (.tail _ hd)) hfds
    | some f =>
      refine (filedup_spec h (descriptors_clear hfd ▸ mem_cons_self ..)).bind fun _ k₁ =>
        .given fun ⟨h₁, hproc⟩ => ?_
      have hfree : (k₁.proc np).ofile fd = none := by
        rw [hproc]
        exact hnp fd mem_cons_self
      have h₂ : Files (k₁.setFd np fd (some f)) (k₁.setFd np fd (some f)).descriptors := by
        rw [descriptors_install hfree, descriptors_congr hproc]
        exact h₁.congr rfl rfl
      have hs : FdStep np k (k₁.setFd np fd (some f)) := (FdStep.of_eq hproc).trans .setFd
      refine .kern (.setKern ?_)
      show Spec (k₁.setFd np fd (some f)) _ _ _
      rw [← pipes_setFd]
      refine (ih h₂ (fun d hd => ?_) hfds).conseq le_rfl fun _ _ => filesPost_trans hs
      have hdne : d ≠ fd := fun e => hnot (e ▸ hd)
      rw [ofile_setFd, if_neg (not_and_of_not_right _ hdne), hproc]
      exact hnp d (.tail _ hd)

end

end Xv6.Vm
