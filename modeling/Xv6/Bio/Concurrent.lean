import Xv6.Bio.Invariant

/-!
# Concurrent use of the buffer cache

Any number of processes run arbitrary programs over the calls of `bio.c`, interleaved at the
operations of `BioOp`. A buffer's data is written by its holder, and `bunpin` undoes a `bpin`; the
call of `brelse` by another process than the holder panics.
-/

namespace Xv6

open Lib Function List

/-- The calls of `bio.c`, and the accesses to the data of a buffer. -/
inductive BioCall where
  | bread (dev blockno : Nat)
  | brelse (i : BufId)
  | bwrite (i : BufId)
  | bpin (i : BufId)
  | bunpin (i : BufId)
  | data (i : BufId)
  | setData (i : BufId) (d : Block)

def BioCall.Res : BioCall → Type
  | .bread .. => BufId
  | .data _ => Block
  | _ => Unit

abbrev bioCallIface : Iface := ⟨BioCall, BioCall.Res⟩

namespace Bio

def impl : (o : BioCall) → Prog bioIface o.Res
  | .bread dev blockno => bread dev blockno
  | .brelse i => brelse i
  | .bwrite i => op (.bwrite i)
  | .bpin i => op (.bpin i)
  | .bunpin i => op (.bunpin i)
  | .data i => op (.data i)
  | .setData i d => op (.setData i d)

def system : System bioIface Bio Panic Pid where
  exec := exec
  guard
    | p, .setData i _, s => (s.buf i).owner = some p
    | _, .bunpin i, s => 1 ≤ s.pins i
    | _, _, _ => True
  calls _ _ x := ∃ y : Prog bioCallIface Unit, x = y.interp impl
  env _ _ := False

/-- All processes idle on the cache that `binit` makes. -/
def start (disk : Nat → Block) : Config bioIface Bio Pid := ⟨boot disk, fun _ => .ret ()⟩

def outline : RelyGuarantee system where
  Inv := Inv
  Rely := Rely
  Idle _ _ := True
  Pre := Pre
  Tol e := e = .bgetNoBuffers ∨ e = .bwrite ∨ e = .brelse
  rely_refl := .refl
  rely_trans := .trans
  idle_stable _ := id
  op_ok hI _ hp he := hI.exec hp he
  op_panic _ _ _ he := exec_panic he
  env_ok h := h.elim

variable {p : Pid} {s s' : Bio} {i : BufId}

theorem mem_refs_of_bget {dev blockno : Nat} (he : Bio.exec p (.bget dev blockno) s = .ok (i, s')) :
    p ∈ s'.refs i := by
  simp only [Bio.exec] at he
  split at he <;> cases he
  simp

theorem owner_of_acquiresleep {r : Unit} (he : Bio.exec p (.acquiresleep i) s = .ok (r, s')) :
    (s'.buf i).owner = some p := by
  simp only [Bio.exec] at he
  split at he <;> cases he
  rw [buf_set_self]

theorem owner_of_load {r : Unit} (he : Bio.exec p (.load i) s = .ok (r, s')) :
    (s'.buf i).owner = (s.buf i).owner := by
  simp only [Bio.exec] at he
  split at he <;> cases he
  · rfl
  · rw [buf_set_self]

/-- A process that let go of a buffer's lock still refers to the buffer. -/
theorem Inv.released {r : Unit} (h : s.Inv) (he : Bio.exec p (.releasesleep i) s = .ok (r, s')) :
    p ∈ s'.refs i ∧ (s'.buf i).owner ≠ some p := by
  simp only [Bio.exec] at he
  split at he <;> cases he
  rename_i ho
  rw [buf_set_self]
  exact ⟨h.owner i p ho, by simp⟩

theorem bread_safe (p : Pid) (dev blockno : Nat) (s : Bio) :
    Safe outline p (fun i s => (s.buf i).owner = some p) (bread dev blockno) s := by
  refine .call (A := fun _ => True) trivial (fun _ _ _ => id) (fun _ _ _ => id) ?_
  intro s i s' _ _ _ _ he
  refine .call (A := fun s => p ∈ s.refs i) (mem_refs_of_bget he) (fun _ _ hR => hR.mem_refs.2)
    (fun _ _ _ => id) ?_
  intro s r s' _ _ _ _ he
  refine .call (A := fun s => (s.buf i).owner = some p) (owner_of_acquiresleep he)
    (fun _ _ hR => (hR.owner i).2) (fun _ _ _ => id) ?_
  intro s r s' _ _ _ ho he
  exact (owner_of_load (p := p) he).trans ho

theorem brelse_safe (p : Pid) (i : BufId) (s : Bio) :
    Safe outline p (fun _ _ => True) (brelse i) s := by
  refine .call (A := fun _ => True) trivial (fun _ _ _ => id) (fun _ _ _ => id) ?_
  intro s r s' hI _ _ _ he
  have hA := hI.released he
  refine .call (A := fun s => p ∈ s.refs i ∧ (s.buf i).owner ≠ some p) hA ?_ (fun _ _ _ => id)
    fun _ _ _ _ _ _ _ _ => trivial
  exact fun s s' hR h => ⟨hR.mem_refs.2 h.1, fun ho => h.2 ((hR.owner i).1 ho)⟩

theorem interp_safe (p : Pid) (y : Prog bioCallIface Unit) (s : Bio) :
    Safe outline p (fun _ _ => True) (y.interp impl) s := by
  induction y generalizing s with
  | ret a => trivial
  | call o k ih =>
    rw [Prog.interp_call]
    refine .bind (Q := fun _ _ => True) ?_ fun r s' _ => ih r s'
    cases o with
    | bread dev blockno => exact (bread_safe p dev blockno s).mono fun _ _ _ => trivial
    | brelse i => exact brelse_safe p i s
    | bunpin i | setData i d =>
      exact .call (A := fun _ => True) trivial (fun _ _ _ => id) (fun _ _ hg _ => hg)
        fun _ _ _ _ _ _ _ _ => trivial
    | bwrite i | bpin i | data i =>
      exact .call (A := fun _ => True) trivial (fun _ _ _ => id) (fun _ _ _ _ => trivial)
        fun _ _ _ _ _ _ _ _ => trivial

theorem start_good (disk : Nat → Block) : (start disk).Good outline :=
  ⟨.boot disk, fun _ => trivial⟩

theorem good_of_reaches {disk : Nat → Block} {c : Config bioIface Bio Pid}
    (h : system.Reaches (start disk) c) : c.Good outline := by
  refine (start_good disk).reaches (fun hc _ _ => ?_) h
  obtain ⟨y, rfl⟩ := hc
  exact interp_safe _ y _

theorem Inv.block_of_exec {o : BioOp} {r : o.Res} (h : s.Inv) (he : Bio.exec p o s = .ok (r, s'))
    (hr : 0 < (s.buf i).refcnt) :
    (s'.buf i).dev = (s.buf i).dev ∧ (s'.buf i).blockno = (s.buf i).blockno := by
  have set : ∀ {j : BufId} {b : Buf}, b.dev = (s.buf j).dev → b.blockno = (s.buf j).blockno →
      ((s.set j b).buf i).dev = (s.buf i).dev ∧
        ((s.set j b).buf i).blockno = (s.buf i).blockno := by
    intro j b hd hb
    by_cases hij : i = j
    · subst hij; rw [buf_set_self]; exact ⟨hd, hb⟩
    · rw [buf_set_of_ne _ hij]; exact ⟨rfl, rfl⟩
  cases o with
  | bget dev blockno =>
    simp only [Bio.exec] at he
    split at he
    · rename_i j c hb
      cases he
      cases h.wf.bget_cases hb with
      | hit _ _ state => subst state; exact set rfl rfl
      | recycle _ unused state =>
        subst state
        have hij : i ≠ r := by rintro rfl; exact absurd unused (by simpa [Bio.buf] using hr.ne')
        rw [Bio.buf, Bcache.buf_set_of_ne _ hij]; exact ⟨rfl, rfl⟩
    · cases he
  | acquiresleep j | releasesleep j =>
    simp only [Bio.exec] at he
    split at he <;> cases he
    exact set rfl rfl
  | load j =>
    simp only [Bio.exec] at he
    split at he <;> cases he
    · exact ⟨rfl, rfl⟩
    · exact set rfl rfl
  | data j => cases he; exact ⟨rfl, rfl⟩
  | bwrite j =>
    simp only [Bio.exec] at he
    split at he <;> cases he
    exact ⟨rfl, rfl⟩
  | unref j => cases he; rw [Bio.buf, Bcache.unref_buf]; exact set rfl rfl
  | setData j d | bpin j | bunpin j => cases he; exact set rfl rfl

end Bio

end Xv6
