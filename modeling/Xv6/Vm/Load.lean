import Xv6.Vm.Contents

/-!
# Loading a program

What `exec` does to the new page table: whatever the file holds, `loadseg` and the pushes of the
arguments write to user memory only, and at each exit the size that `exec` has noted is that of the
image.
-/

namespace Xv6.Vm

open Lib List

section

variable {f : Nat → Option Pte} {u : Nat → UInt8} {root frame n va : Nat} {t : Bool}
  {file : List UInt8}

/-- User memory with some bytes. -/
def memory (root : Nat) (f : Nat → Option Pte) (n : Nat) : Pages :=
  .ex fun u => space root f * filled f u n

theorem memory_intro : space root f * filled f u n ≤ memory root f n := fun _ _ h => ⟨u, h⟩

theorem memory_image (hs : Shape f frame n t) : memory root f n ≤ image root frame n t :=
  fun T c ⟨_, h⟩ => filled_image hs T c h

theorem Shape.userPage {page : Nat} (hs : Shape f frame n t) (h : userPage f va = some page) :
    va / PGSIZE < n ∧ ∃ e, f (va / PGSIZE) = some e ∧ e.page = page := by
  unfold Vm.userPage at h
  split at h
  · cases h
  obtain ⟨e, he, hu⟩ := Option.bind_eq_some_iff.1 h
  split at hu
  · rename_i hue
    refine ⟨?_, e, he, Option.some.inj hu⟩
    by_contra hlt
    rcases eq_or_ne (va / PGSIZE) trapframe with hv | hv
    · rw [hv, hs.frame] at he
      cases he
      cases hue
    rcases eq_or_ne (va / PGSIZE) trampoline with hv' | hv'
    · obtain ⟨page, hp⟩ := hs.tramp
      rw [hv', hp] at he
      cases he
      cases hue
    rw [hs.other _ (Nat.not_lt.1 hlt) hv hv'] at he
    cases he
  · cases hu

theorem userPage_of {e : Pte} (hva : va < MAXVA) (he : f (va / PGSIZE) = some e) (hu : e.u = true) :
    userPage f va = some e.page := by
  rw [userPage, if_neg (Nat.not_le.2 hva), he]
  exact if_pos hu

theorem length_readi_le (off k : Nat) : (readi file off k).length ≤ k := by
  unfold readi
  split
  · exact Nat.zero_le _
  · rw [length_take]
    exact Nat.min_le_left ..

variable {offset sz rounds : Nat}

theorem loadsegLoop_memory {j : Nat} (hs : Shape f frame n true) (hn : va / PGSIZE + pages sz ≤ n)
    (hva : va % PGSIZE = 0) (hj : j ≤ pages sz) (hr : pages sz < rounds + j) :
    Triple (memory root f n) (loadsegLoop root va file offset sz rounds (j * PGSIZE))
      fun _ => memory root f n := by
  have hle := hs.le
  have hram : stopPage - kernPage = 2 ^ 15 := rfl
  induction rounds generalizing j with
  | zero => omega
  | succ rounds ih =>
    rw [loadsegLoop]
    by_cases hi : j * PGSIZE < sz
    swap
    · rw [if_neg hi]
      exact .ret le_rfl
    rw [if_pos hi]
    have hjlt : j < pages sz := by
      simp only [pages, PGSIZE] at *
      omega
    -- neither the address nor `i` wraps round: the segment lies below the size
    have haddr : (va + j * PGSIZE) % 2 ^ 64 = va + j * PGSIZE := by
      simp only [PGSIZE] at *
      omega
    have hnext : (j * PGSIZE + PGSIZE) % 2 ^ 32 = (j + 1) * PGSIZE := by
      simp only [PGSIZE] at *
      omega
    have hmax : va + j * PGSIZE < MAXVA := by
      simp only [PGSIZE, MAXVA] at *
      omega
    have hpage : (va + j * PGSIZE) / PGSIZE = va / PGSIZE + j :=
      Nat.add_mul_div_right _ _ (by decide)
    obtain ⟨e, he, hue⟩ := hs.user (va / PGSIZE + j) (by omega)
    rw [haddr]
    refine .ex fun u => walkaddr_map.frame.bind fun pa => .given_mul fun hpa => ?_
    rw [userPage_of hmax (hpage ▸ he) (hue rfl)] at hpa
    subst hpa
    dsimp only
    have hchunk : (if sz - j * PGSIZE < PGSIZE then sz - j * PGSIZE else PGSIZE) ≤ PGSIZE := by
      split <;> omega
    generalize (if sz - j * PGSIZE < PGSIZE then sz - j * PGSIZE else PGSIZE) = k at hchunk ⊢
    have hlen : 0 + (readi file ((offset + j * PGSIZE) % 2 ^ 32) k).length ≤ PGSIZE := by
      rw [Nat.zero_add]
      exact (length_readi_le ..).trans hchunk
    refine (fill_filled (show va / PGSIZE + j < n by omega) he hlen).frame_left.bind fun _ => ?_
    split
    · exact .ret memory_intro
    rw [hnext]
    exact (ih (by omega) (by omega)).conseq memory_intro fun _ => le_rfl

theorem loadseg_image (hn : va / PGSIZE + pages sz ≤ n) (hva : va % PGSIZE = 0) :
    Triple (image root frame n true)
    (loadseg root va file offset sz) fun _ => image root frame n true := by
  refine image_filled fun f u hs _ => ?_
  rw [loadseg, ← Nat.zero_mul PGSIZE]
  refine Triple.conseq ?_ memory_intro fun _ => memory_image hs
  exact loadsegLoop_memory hs hn hva (Nat.zero_le _) (Nat.lt_succ_self _)

theorem field_lt (bs : List UInt8) (off : Nat) : field bs off 8 < 2 ^ 64 :=
  (Bytes.read_lt _ 8 off).trans_eq (by norm_num)

/-- The segment lies below the size to which `uvmalloc` has brought the process. -/
theorem segment_le {vaddr memsz filesz sz1 : Nat} (hv : vaddr < 2 ^ 64) (hm : memsz < 2 ^ 64)
    (hfile : ¬memsz < filesz) (hwrap : ¬(vaddr + memsz) % 2 ^ 64 < vaddr)
    (haligned : vaddr % PGSIZE = 0) (hsz : sz1 = max sz ((vaddr + memsz) % 2 ^ 64)) :
    vaddr / PGSIZE + pages (filesz % 2 ^ 32) ≤ pages sz1 := by
  have hsum : (vaddr + memsz) % 2 ^ 64 = vaddr + memsz := by omega
  have hmod := Nat.mod_le filesz (2 ^ 32)
  have hend : pages (vaddr + memsz) ≤ pages sz1 := pages_mono (by omega)
  simp only [pages, PGSIZE] at *
  omega

theorem loadHeaders_image {k off : Nat} :
    Triple (image root frame (pages sz) true) (loadHeaders root file k off sz)
      fun r => image root frame (pages r.1) true := by
  induction k generalizing off sz with
  | zero => exact .ret le_rfl
  | succ k ih =>
    rw [loadHeaders]
    dsimp only
    have hv : (Phdr.ofBytes (readi file off Phdr.size)).vaddr < 2 ^ 64 := field_lt _ 16
    have hm : (Phdr.ofBytes (readi file off Phdr.size)).memsz < 2 ^ 64 := field_lt _ 40
    generalize Phdr.ofBytes (readi file off Phdr.size) = ph at hv hm ⊢
    split
    · exact .ret le_rfl
    split
    · exact ih
    split
    · exact .ret le_rfl
    split
    · exact .ret le_rfl
    rename_i hfile hwrap
    refine Triple.bind (uvmalloc_spec _ _ _ _ _) fun sz1 => .given fun hsz => ?_
    show Triple _ (if sz1 = 0 then _ else if _ then _ else _) _
    by_cases h0 : sz1 = 0
    · rw [if_pos h0, if_pos h0]
      exact .ret le_rfl
    rw [if_neg h0, if_neg h0]
    split
    · exact .ret le_rfl
    rename_i haligned
    have hseg := segment_le hv hm hfile hwrap (not_not.1 haligned) (hsz.resolve_left h0)
    refine (loadseg_image hseg (not_not.1 haligned)).bind fun ok => ?_
    cases ok with
    | false => exact .ret le_rfl
    | true => exact ih

/-! ## The stack -/

variable {dstva : Nat} {src : List UInt8}

/-- `copyout` writes to user memory only, wherever it is told to write. -/
theorem copyoutLoop_memory (hs : Shape f frame n t) (hr : src.length < rounds) :
    Triple (memory root f n) (copyoutLoop root rounds dstva src) fun _ => memory root f n := by
  induction rounds generalizing dstva src with
  | zero => cases hr
  | succ rounds ih =>
    rw [copyoutLoop]
    split
    · exact .ret le_rfl
    rename_i hsrc
    refine .ex fun u => walkaddr_map.frame.bind fun pa => .given_mul fun hpa => ?_
    cases pa with
    | none => exact .ret memory_intro
    | some page =>
      obtain ⟨hv, e, he, rfl⟩ := hs.userPage hpa.symm
      have hmod : dstva - dstva / PGSIZE * PGSIZE = dstva % PGSIZE := by
        rw [Nat.mod_eq_sub_div_mul]
      have hlt : dstva % PGSIZE < PGSIZE := Nat.mod_lt _ (by decide)
      have hlen : dstva % PGSIZE + (src.take (min (PGSIZE - dstva % PGSIZE) src.length)).length ≤
          PGSIZE := by
        rw [length_take]
        omega
      rw [Nat.mul_div_cancel _ (by decide)] at hv he
      dsimp only
      rw [hmod]
      refine (fill_filled hv he hlen).frame_left.bind fun _ => ?_
      refine (ih ?_).conseq memory_intro fun _ => le_rfl
      rw [length_drop]
      omega

theorem copyout_image :
    Triple (image root frame n t) (copyout root dstva src) fun _ => image root frame n t :=
  image_filled fun _ _ hs _ =>
    (copyoutLoop_memory hs (Nat.lt_succ_self _)).conseq memory_intro fun _ => memory_image hs

variable {argv : List (List UInt8)}

theorem pushArgs_image {stackbase sp : Nat} {ustack : List Nat} :
    Triple (image root frame n t) (pushArgs root stackbase argv sp ustack) fun r =>
      .given (∀ x, r = some x → x.2.length = ustack.length + argv.length)
      (image root frame n t) := by
  induction argv generalizing sp ustack with
  | nil =>
    refine .ret fun T c h => ⟨?_, h⟩
    rintro x ⟨⟩
    rfl
  | cons arg argv ih =>
    rw [pushArgs]
    dsimp only
    split
    · exact .ret fun T c h => ⟨nofun, h⟩
    split
    · exact .ret fun T c h => ⟨nofun, h⟩
    refine copyout_image.bind fun ok => ?_
    cases ok with
    | false => exact .ret fun T c h => ⟨nofun, h⟩
    | true =>
      refine ih.conseq le_rfl fun r T c ⟨hx, h⟩ => ⟨fun x hr => ?_, h⟩
      rw [hx x hr, length_append, length_cons, length_cons, length_nil]
      omega

theorem pushStack_image (hargc : argv.length < MAXARG) :
    Triple (image root frame n t) (pushStack root sz argv)
      fun r => .given (∀ x, r = some x → x.1 = argv.length) (image root frame n t) := by
  refine pushArgs_image.bind fun r => .given fun hr => ?_
  cases r with
  | none => exact .ret fun T c h => ⟨nofun, h⟩
  | some x =>
    obtain ⟨sp, ustack⟩ := x
    have hlen : ustack.length = argv.length := (hr _ rfl).trans (Nat.zero_add _)
    dsimp only
    rw [if_neg (by omega)]
    split
    · exact .ret fun T c h => ⟨nofun, h⟩
    refine copyout_image.bind fun ok => .ret fun T c h => ⟨fun x hx => ?_, h⟩
    cases ok with
    | false => cases hx
    | true =>
      cases hx
      exact hlen

theorem buildStack_image (hargc : argv.length < MAXARG) :
    Triple (image root frame (pages sz) true) (buildStack root sz argv) fun r =>
      .given (∀ x, r.2 = some x → x.1 = argv.length) (image root frame (pages r.1) false) := by
  have halloc := uvmalloc_spec (pages sz * PGSIZE) (pages sz * PGSIZE + 2 * PGSIZE) root frame true
  rw [pages_mul] at halloc
  refine halloc.bind fun sz1 => .given fun hsz => ?_
  show Triple _ (if sz1 = 0 then _ else _) _
  by_cases h0 : sz1 = 0
  · rw [if_pos h0, if_pos h0]
    exact .ret fun T c h => ⟨nofun, image_weaken T c h⟩
  rw [if_neg h0, if_neg h0]
  have hguard : (sz1 - 2 * PGSIZE) / PGSIZE < pages sz1 := by
    simp only [pages, PGSIZE] at *
    omega
  refine (uvmclear_spec hguard).bind fun _ => (pushStack_image hargc).bind fun r =>
    .given fun hr => ?_
  exact .ret fun T c h => ⟨hr, h⟩

theorem loadImage_image {elf : Elfhdr} (hargc : argv.length < MAXARG) :
    Triple (image root frame 0 true) (loadImage root file elf argv) fun r =>
      .given (∀ x, r.2 = some x → x.1 = argv.length) (image root frame (pages r.1) false) := by
  have hzero : pages 0 = 0 := pages_mul 0
  rw [← hzero]
  refine loadHeaders_image.bind fun r => ?_
  obtain ⟨sz, ok⟩ := r
  cases ok with
  | false => exact .ret fun T c h => ⟨nofun, image_weaken T c h⟩
  | true => exact buildStack_image hargc

end

end Xv6.Vm
