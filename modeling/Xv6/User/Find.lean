import Xv6.Dir.Resolve
import Xv6.User.Strings

/-!
# `find`

`user/find.c` over the inodes of a disk. While `find` is in a directory it keeps the descriptor of
that directory and those of the directories above it, and on the stack a frame for each of them. It
prints the files that it looks for as long as there are descriptors and room on the stack.
-/

namespace Xv6.Find

open Dir User List

/-! ## The program -/

def MAXPATH : Nat := 128

/-- What the system calls see: the disk, and the current directory of the process. -/
structure Files where
  disk : Nat → Node
  cwd : Nat

/-- `namei`. -/
def Files.namei (fs : Files) (path : Path) : Option Nat :=
  resolve fs.disk (if path.head? = some slash then ROOTINO else fs.cwd) (components path)

/-- `open(path, 0)` by a process with `used` descriptors; entries of the file table are left. -/
def Files.openAt (fs : Files) (used : Nat) (path : Path) : Option Nat :=
  if MAXPATH ≤ path.length then none
  else (fs.namei path).bind fun n =>
    if (fs.disk n).type = .device ∧ NDEV ≤ (fs.disk n).major then none
    else if NOFILE ≤ used then none
    else some n

/-- What is behind the last slash. -/
def afterSlash (path : Path) : Path := (path.reverse.takeWhile (· != slash)).reverse

/-- `fmtname`, with the static array `buf`, whatever it holds. -/
def fmtname (buf path : List UInt8) : List UInt8 :=
  if DIRSIZ ≤ (afterSlash path).length then afterSlash path
    else str (overwrite buf 0 (afterSlash path ++ [0]))

/-- The lines that a call has printed to standard output, and whether the process was killed in it.
-/
structure Run where
  out : List Path
  killed : Bool
  deriving DecidableEq, Repr

/-- The loop over the entries of a directory; `visit` is what is done for one of them. -/
def readEntries (visit : Dirent → Run) : List Dirent → Run
  | [] => ⟨[], false⟩
  | de :: rest =>
    if de.inum = 0 then readEntries visit rest
    else if de.isDot then readEntries visit rest
    else if (visit de).killed then visit de
    else ⟨(visit de).out ++ (readEntries visit rest).out, (readEntries visit rest).killed⟩

/-- The string in the array `buf` of `find` when the name of an entry has been moved there. -/
def child (path : Path) (de : Dirent) : Path := str (path ++ slash :: (de.name.take DIRSIZ ++ [0]))

/-- `find(path, name)`, when `frames` nested calls fit on the stack. `exec` makes one page of it,
and a call needs 512 bytes for its `buf` alone: `frames` is at most 7. The call that does not fit
gets a page fault in the guard page below the stack, and the process is killed. -/
def find (fs : Files) (buf name : List UInt8) : (frames used : Nat) → (path : Path) → Run
  | 0, _, _ => ⟨[], true⟩
  | frames + 1, used, path =>
    match fs.openAt used path with
    -- the message goes to descriptor 2
    | none => ⟨[], false⟩
    | some n =>
      match (fs.disk n).type with
      | .file => ⟨if fmtname buf path = name then [path] else [], false⟩
      | .dir =>
        if 512 < path.length + 1 + DIRSIZ + 1 then ⟨["find: path too long".toList.map chr], false⟩
        else
          readEntries (fun de => find fs buf name frames (used + 1) (child path de))
            (entries (fs.disk n).data)
      | _ => ⟨[], false⟩

/-! ## What it is for -/

/-- The entries called `comps`, one in the directory of the other, lead from `n` to `m`. -/
inductive Below (disk : Nat → Node) : Nat → List (List UInt8) → Nat → Prop
  | here (n : Nat) : Below disk n [] n
  | entry {n m : Nat} {de : Dirent} {comps : List (List UInt8)} (dir : (disk n).type = .dir)
      (mem : de ∈ entries (disk n).data) (used : de.inum ≠ 0) (dot : de.isDot = false)
      (below : Below disk de.inum comps m) : Below disk n (cstr de.name :: comps) m

/-- The start path, and the components after it. -/
def join (path : Path) (comps : List (List UInt8)) : Path := path ++ comps.flatMap (slash :: ·)

/-- The names in the directories of a disk lead to one entry each. -/
structure Tree (disk : Nat → Node) : Prop where
  directory : ∀ n, (disk n).type = .dir → Directory (disk n).data
  names : ∀ n, (disk n).type = .dir → ∀ de ∈ entries (disk n).data, de.inum ≠ 0 → de.isDot = false →
    cstr de.name ≠ [] ∧ slash ∉ cstr de.name

/-- The path `path` leads to `n`, and the paths of what is below `n` are short enough. The empty
path is the current directory, but what `find` appends to it starts at the root. -/
structure At (fs : Files) (path : Path) (n : Nat) : Prop where
  namei : fs.namei path = some n
  rooted : path = [] → fs.cwd = ROOTINO
  nul : 0 ∉ path
  short : ∀ comps m, Below fs.disk n comps m → (join path comps).length < MAXPATH

/-- `comps` leads from `n` to a regular file called `name`. -/
def IsMatch (disk : Nat → Node) (n : Nat) (name : List UInt8) (comps : List (List UInt8)) : Prop :=
  comps.getLast? = some name ∧ ∃ m, Below disk n comps m ∧ (disk m).type = .file

/-- `out` has the path of each file below `n` that is called `name`, once, and nothing else. -/
def Lists (disk : Nat → Node) (n : Nat) (path name : List UInt8) (out : List Path) : Prop :=
  out.Nodup ∧ ∀ line, line ∈ out ↔ ∃ comps, IsMatch disk n name comps ∧ line = join path comps

/-! ## Paths -/

section

variable {fs : Files} {disk : Nat → Node} {path line name buf c c' : List UInt8}
  {n m used : Nat} {de : Dirent}
  {comps comps' : List (List UInt8)}

theorem join_cons : join path (c :: comps) = join (path ++ slash :: c) comps := by
  simp [join]

theorem ne_slash (h : slash ∉ c) (b : UInt8) (hb : b ∈ c) : (b != slash) = true := by
  rw [bne_iff_ne]
  rintro rfl
  exact h hb

theorem afterSlash_append (h : slash ∉ c) : afterSlash (path ++ slash :: c) = c := by
  have hc := ne_slash (mt mem_reverse.1 h)
  rw [afterSlash, reverse_append, reverse_cons, append_assoc, takeWhile_append_of_pos hc]
  simp

theorem fmtname_eq (h : 0 ∉ path) : fmtname buf path = afterSlash path := by
  have hsub : 0 ∉ afterSlash path := by
    intro h0
    exact h (mem_reverse.1 ((List.takeWhile_prefix _).subset (mem_reverse.1 h0)))
  unfold fmtname
  split
  · rfl
  · rw [overwrite, take_zero, nil_append, append_assoc]
    exact str_append_zero hsub

theorem length_cstr_le (name : List UInt8) : (cstr name).length ≤ DIRSIZ :=
  (List.takeWhile_prefix _).length_le.trans (length_take_le ..)

theorem nul_cstr (name : List UInt8) : 0 ∉ cstr name := by
  intro h
  simpa using mem_takeWhile_imp h

theorem child_eq (h : 0 ∉ path) : child path de = path ++ slash :: cstr de.name := by
  have hpath : ∀ b ∈ path, decide (b ≠ 0) = true := by
    intro b hb
    rw [decide_eq_true_iff]
    rintro rfl
    exact h hb
  rw [child, str, takeWhile_append_of_pos hpath, takeWhile_cons_of_pos (by decide), cstr]
  congr 2
  generalize de.name.take DIRSIZ = bs
  induction bs with
  | nil => rfl
  | cons b bs ih => simp only [cons_append, takeWhile_cons, ih]

/-- Entries with different names give different paths. -/
theorem join_inj (h : slash ∉ c) (h' : slash ∉ c')
    (heq : join (path ++ slash :: c) comps = join (path ++ slash :: c') comps') : c = c' := by
  have hcut {c : List UInt8} {comps : List (List UInt8)} (h : slash ∉ c) :
      (c ++ comps.flatMap (slash :: ·)).takeWhile (· != slash) = c := by
    rw [takeWhile_append_of_pos (ne_slash h)]
    cases comps with
    | nil => exact append_nil c
    | cons d comps => simp
  rw [join, join, append_assoc, append_assoc] at heq
  have htail : c ++ comps.flatMap (slash :: ·) = c' ++ comps'.flatMap (slash :: ·) :=
    tail_eq_of_cons_eq (append_cancel_left heq)
  exact (hcut h).symm.trans ((congrArg _ htail).trans (hcut h'))

theorem components_child (hne : c ≠ []) (hs : slash ∉ c) (hlen : c.length ≤ DIRSIZ) :
    components (path ++ slash :: c) = components path ++ [c] := by
  have hsplit : (path ++ slash :: c).splitOn slash = path.splitOn slash ++ [c] := by
    have hc : ∀ b ∈ c, (b == slash) = false :=
      fun b hb => beq_eq_false_iff_ne.2 (bne_iff_ne.1 (ne_slash hs b hb))
    have happ : (path ++ slash :: c).splitOn slash = path.splitOn slash ++ c.splitOn slash :=
      splitOnP_append_cons _ _ (beq_self_eq_true slash)
    exact happ.trans (congrArg _ (splitOnP_eq_singleton hc))
  rw [components, hsplit, filter_append, map_append]
  simp [hne, take_of_length_le hlen, components, splitOn]

theorem Tree.lookupIn (h : Tree disk) (dir : (disk n).type = .dir)
    (mem : de ∈ entries (disk n).data)
    (hde : de.inum ≠ 0) : lookupIn disk n (cstr de.name) = some de.inum := by
  obtain ⟨k, hk, rfl⟩ := mem_map.1 mem
  have hcstr : cstr (cstr (entry (disk n).data k).name) = cstr (entry (disk n).data k).name := by
    rw [cstr, take_of_length_le (length_cstr_le _)]
    exact str_of_notMem (nul_cstr _)
  rw [Dir.lookupIn, if_pos dir, hcstr, (h.directory n dir).binding_eq_some]
  exact ⟨k, mem_range.1 hk, by simp [Dirent.Binds, hde], rfl⟩

/-- The path of an entry starts where the path of its directory does. -/
theorem At.start_child (h : At fs path n) :
    (if (path ++ slash :: c).head? = some slash then ROOTINO else fs.cwd) =
      if path.head? = some slash then ROOTINO else fs.cwd := by
  cases path with
  | nil => exact (h.rooted rfl).symm
  | cons b path => rfl

theorem At.child (h : At fs path n) (tree : Tree fs.disk) (dir : (fs.disk n).type = .dir)
    (mem : de ∈ entries (fs.disk n).data) (hde : de.inum ≠ 0) (dot : de.isDot = false) :
    At fs (path ++ slash :: cstr de.name) de.inum := by
  obtain ⟨hne, hs⟩ := tree.names n dir de mem hde dot
  refine ⟨?_, fun h => absurd h (append_ne_nil_of_right_ne_nil _ (cons_ne_nil _ _)), ?_,
    fun comps m hb => ?_⟩
  · rw [Files.namei, components_child hne hs (length_cstr_le _), h.start_child, resolve,
      foldlM_append]
    refine (congrArg (· >>= _) h.namei).trans ?_
    exact (bind_pure _).trans (tree.lookupIn dir mem hde)
  · intro h0
    rcases mem_append.1 h0 with h0 | h0
    · exact h.nul h0
    · exact nul_cstr _ ((mem_cons.1 h0).resolve_left (by decide))
  · rw [← join_cons]
    exact h.short _ m (.entry dir mem hde dot hb)

theorem Below.eq_here (h : Below disk n comps m) (hn : (disk n).type ≠ .dir) :
    comps = [] ∧ m = n := by
  cases h with
  | here => exact ⟨rfl, rfl⟩
  | entry dir => exact absurd dir hn

/-- Behind the last slash of a path is its last component. -/
theorem Below.afterSlash (h : Below disk n comps m) (tree : Tree disk) (hne : comps ≠ []) :
    comps.getLast? = some (afterSlash (join path comps)) := by
  induction h generalizing path with
  | here => exact absurd rfl hne
  | @entry n m de comps dir mem used dot below ih =>
    rw [join_cons]
    cases comps with
    | nil =>
      rw [join, flatMap_nil, append_nil, afterSlash_append (tree.names n dir de mem used dot).2]
      rfl
    | cons c comps => exact (getLast?_cons_cons ..).trans (ih (cons_ne_nil _ _))

/-! ## What it prints -/

/-- The lines for what is below `n`, as long as there are descriptors. -/
def Found (disk : Nat → Node) (name : List UInt8) (n used : Nat) (path line : Path) : Prop :=
  ∃ comps m, Below disk n comps m ∧ (disk m).type = .file ∧ afterSlash (join path comps) = name ∧
    used + comps.length < NOFILE ∧ line = join path comps

/-- The calls for what is below `n` fit on the stack. There is one for each entry of the directories
that can be opened. -/
def Fits (disk : Nat → Node) (n frames used : Nat) : Prop :=
  ∀ comps m, Below disk n comps m → used + comps.length ≤ NOFILE → comps.length < frames

def live (de : Dirent) : Bool := de.inum ≠ 0 && !de.isDot

theorem live_iff : live de = true ↔ de.inum ≠ 0 ∧ de.isDot = false := by
  simp [live]

/-- The loop does something for the entries that are in use and not `.` or `..`. -/
theorem readEntries_filter (visit : Dirent → Run) (des : List Dirent) :
    readEntries visit des = readEntries visit (des.filter live) := by
  induction des with
  | nil => rfl
  | cons de des ih =>
    by_cases hl : live de = true
    · obtain ⟨h0, hdot⟩ := live_iff.1 hl
      rw [filter_cons_of_pos hl, readEntries, readEntries, ih]
    · rw [filter_cons_of_neg hl, readEntries, ← ih]
      rw [live_iff, not_and, Bool.not_eq_false] at hl
      split
      · rfl
      · rw [if_pos (hl ‹_›)]

theorem readEntries_cons (visit : Dirent → Run) {des : List Dirent} (hl : live de = true) :
    readEntries visit (de :: des) = if (visit de).killed then visit de
      else ⟨(visit de).out ++ (readEntries visit des).out, (readEntries visit des).killed⟩ := by
  obtain ⟨h0, hdot⟩ := live_iff.1 hl
  rw [readEntries, if_neg h0, if_neg (by rw [hdot]; nofun)]

theorem Tree.pairwise (tree : Tree disk) (dir : (disk n).type = .dir) :
    ((entries (disk n).data).filter live).Pairwise fun a b => cstr a.name ≠ cstr b.name := by
  rw [pairwise_filter, entries, pairwise_map]
  refine nodup_range.imp_of_mem fun {i j} hi hj hij hli hlj heq => hij ?_
  refine (tree.directory n dir).distinct (cstr (entry (disk n).data j).name) i j (mem_range.1 hi)
    (mem_range.1 hj) ?_ ?_
  · simp [Dirent.Binds, (live_iff.1 hli).1, heq]
  · simp [Dirent.Binds, (live_iff.1 hlj).1]

/-- What a call has printed: lines for what is below `n`, each once, and all of them if the process
is not killed. It is killed if a call does not fit. -/
structure Prints (disk : Nat → Node) (name : List UInt8) (n frames used : Nat) (path : Path)
    (r : Run) : Prop where
  nodup : r.out.Nodup
  sound : ∀ line ∈ r.out, Found disk name n used path line
  complete : r.killed = false → ∀ line, Found disk name n used path line → line ∈ r.out
  killed : r.killed = false ↔ Fits disk n frames used

variable {frames : Nat}

theorem fits_leaf (h : ∀ comps m, Below disk n comps m →
    used + comps.length ≤ NOFILE → comps = []) :
    Fits disk n (frames + 1) used := by
  intro comps m hb hlen
  rw [h comps m hb hlen]
  exact Nat.succ_pos frames

theorem prints_nil (h : ∀ line, ¬Found disk name n used path line)
    (hfits : Fits disk n (frames + 1) used) :
    Prints disk name n (frames + 1) used path ⟨[], false⟩ :=
  ⟨nodup_nil, nofun, fun _ line hf => absurd hf (h line), ⟨fun _ => hfits, fun _ => rfl⟩⟩

theorem prints_other (hd : (disk n).type ≠ .dir) (hf : (disk n).type ≠ .file) :
    Prints disk name n (frames + 1) used path ⟨[], false⟩ := by
  refine prints_nil (fun line h => ?_) (fits_leaf fun comps m hb _ => (hb.eq_here hd).1)
  obtain ⟨comps, m, hb, hm, -⟩ := h
  rw [(hb.eq_here hd).2] at hm
  exact hf hm

theorem prints_file (hf : (disk n).type = .file) (hused : used < NOFILE) :
    Prints disk name n (frames + 1) used path ⟨if afterSlash path = name then [path]
      else [], false⟩ := by
  have hself : join path [] = path := append_nil path
  have hd : (disk n).type ≠ .dir := by rw [hf]; nofun
  refine ⟨?_, fun line hline => ?_, fun _ line h => ?_, fun _ => ?_, fun _ => rfl⟩
  · split
    · exact nodup_singleton path
    · exact nodup_nil
  · dsimp only at hline
    split at hline
    · exact ⟨[], n, .here n, hf, by rwa [hself], hused, by rw [hself, mem_singleton.1 hline]⟩
    · cases hline
  · obtain ⟨comps, m, hb, -, hname, -, rfl⟩ := h
    rw [(hb.eq_here hd).1, hself] at hname ⊢
    rw [if_pos hname]
    exact mem_singleton_self path
  · exact fits_leaf fun comps m hb _ => (hb.eq_here hd).1

/-- The lines for a directory are those for its entries. -/
theorem found_dir (dir : (disk n).type = .dir) : Found disk name n used path line ↔
    ∃ de ∈ (entries (disk n).data).filter live,
      Found disk name de.inum (used + 1) (path ++ slash :: cstr de.name) line := by
  constructor
  · intro hf
    obtain ⟨_, m, hb, hm, hname, hlt, rfl⟩ := hf
    cases hb with
    | here =>
      rw [dir] at hm
      cases hm
    | @entry _ _ de comps _ hmem h0 hdot hb =>
      rw [join_cons] at hname ⊢
      rw [length_cons] at hlt
      exact ⟨de, mem_filter.2 ⟨hmem, live_iff.2 ⟨h0, hdot⟩⟩, comps, m, hb, hm, hname, by omega, rfl⟩
  · intro h
    obtain ⟨de, hde, comps, m, hb, hm, hname, hlt, rfl⟩ := h
    obtain ⟨hmem, hl⟩ := mem_filter.1 hde
    rw [← join_cons] at hname ⊢
    exact ⟨_, m, .entry dir hmem (live_iff.1 hl).1 (live_iff.1 hl).2 hb, hm, hname,
      by rw [length_cons]; omega, rfl⟩

theorem fits_dir (dir : (disk n).type = .dir) : Fits disk n (frames + 1) used ↔
    ∀ de ∈ (entries (disk n).data).filter live, Fits disk de.inum frames (used + 1) := by
  constructor
  · intro h de hde comps m hb hlen
    obtain ⟨hmem, hl⟩ := mem_filter.1 hde
    have hlt := h _ m (.entry dir hmem (live_iff.1 hl).1 (live_iff.1 hl).2 hb)
      (by rw [length_cons]; omega)
    rw [length_cons] at hlt
    omega
  · intro h comps m hb hlen
    cases hb with
    | here => exact Nat.succ_pos frames
    | @entry _ _ de comps _ hmem h0 hdot hb =>
      rw [length_cons] at hlen ⊢
      have := h de (mem_filter.2 ⟨hmem, live_iff.2 ⟨h0, hdot⟩⟩) comps m hb (by omega)
      omega

/-- No line is found below two entries of a directory. -/
theorem found_disjoint (tree : Tree disk) (dir : (disk n).type = .dir) :
    ((entries (disk n).data).filter live).Pairwise fun a b => ∀ line,
      Found disk name a.inum used (path ++ slash :: cstr a.name) line →
        ¬Found disk name b.inum used (path ++ slash :: cstr b.name) line := by
  refine (tree.pairwise dir).imp_of_mem fun {a b} ha hb hne line hla hlb => hne ?_
  obtain ⟨ha, hal⟩ := mem_filter.1 ha
  obtain ⟨hb, hbl⟩ := mem_filter.1 hb
  obtain ⟨ha0, hadot⟩ := live_iff.1 hal
  obtain ⟨hb0, hbdot⟩ := live_iff.1 hbl
  obtain ⟨_, _, -, -, -, -, h₁⟩ := hla
  obtain ⟨_, _, -, -, -, -, h₂⟩ := hlb
  exact join_inj (tree.names n dir a ha ha0 hadot).2 (tree.names n dir b hb hb0 hbdot).2
    (h₁.symm.trans h₂)

/-- What the loop over entries has printed, by induction on them: the lines for those before the
call in which the process is killed. -/
theorem readEntries_spec {visit : Dirent → Run} {des : List Dirent}
    {F : Dirent → Path → Prop} {G : Dirent → Prop} (hlive : ∀ de ∈ des, live de = true)
    (hdis : des.Pairwise fun a b => ∀ line, F a line → ¬F b line)
    (nodup : ∀ de ∈ des, (visit de).out.Nodup)
    (sound : ∀ de ∈ des, ∀ line ∈ (visit de).out, F de line)
    (complete : ∀ de ∈ des, (visit de).killed = false → ∀ line, F de line → line ∈ (visit de).out)
    (killed : ∀ de ∈ des, (visit de).killed = false ↔ G de) :
    (readEntries visit des).out.Nodup ∧
      (∀ line ∈ (readEntries visit des).out, ∃ de ∈ des, F de line) ∧
      ((readEntries visit des).killed = false →
        ∀ line, (∃ de ∈ des, F de line) → line ∈ (readEntries visit des).out) ∧
      ((readEntries visit des).killed = false ↔ ∀ de ∈ des, G de) := by
  induction des with
  | nil => exact ⟨nodup_nil, nofun, fun _ line h => absurd h (by simp), by simp [readEntries]⟩
  | cons de des ih =>
    have hde : de ∈ de :: des := mem_cons_self
    have hsub {d : Dirent} (hd : d ∈ des) : d ∈ de :: des := mem_cons_of_mem _ hd
    obtain ⟨hnodup, hsound, hcomplete, hkilled⟩ := ih (fun d hd => hlive d (hsub hd)) hdis.tail
      (fun d hd => nodup d (hsub hd)) (fun d hd => sound d (hsub hd))
      (fun d hd => complete d (hsub hd)) fun d hd => killed d (hsub hd)
    rw [readEntries_cons visit (hlive de hde)]
    by_cases hk : (visit de).killed = true
    · have hG : ¬G de := by
        rw [← killed de hde, hk]
        nofun
      rw [if_pos hk]
      refine ⟨nodup de hde, fun line hl => ⟨de, hde, sound de hde line hl⟩, ?_, ?_, ?_⟩
      · intro h
        rw [hk] at h
        cases h
      · intro h
        rw [hk] at h
        cases h
      · intro h
        exact absurd (h de hde) hG
    · have hk : (visit de).killed = false := Bool.not_eq_true _ ▸ hk
      rw [if_neg (by rw [hk]; nofun)]
      refine ⟨?_, fun line hl => ?_, fun hrest line h => ?_, ?_⟩
      · refine (nodup de hde).append hnodup fun line hl hl' => ?_
        obtain ⟨d, hd, hF⟩ := hsound line hl'
        exact rel_of_pairwise_cons hdis hd line (sound de hde line hl) hF
      · rcases mem_append.1 hl with hl | hl
        · exact ⟨de, hde, sound de hde line hl⟩
        · obtain ⟨d, hd, hF⟩ := hsound line hl
          exact ⟨d, hsub hd, hF⟩
      · obtain ⟨d, hd, hF⟩ := h
        rcases mem_cons.1 hd with rfl | hd
        · exact mem_append_left _ (complete d hde hk line hF)
        · exact mem_append_right _ (hcomplete hrest line ⟨d, hd, hF⟩)
      · rw [forall_mem_cons]
        exact hkilled.trans (and_iff_right ((killed de hde).1 hk)).symm

theorem prints_dir (tree : Tree disk) (dir : (disk n).type = .dir) {visit : Dirent → Run}
    (h : ∀ de ∈ entries (disk n).data, live de = true →
      Prints disk name de.inum frames (used + 1) (path ++ slash :: cstr de.name) (visit de)) :
    Prints disk name n (frames + 1) used path (readEntries visit (entries (disk n).data)) := by
  have hprints (de) (hde : de ∈ (entries (disk n).data).filter live) :=
    h de (mem_filter.1 hde).1 (mem_filter.1 hde).2
  obtain ⟨hnodup, hsound, hcomplete, hkilled⟩ := readEntries_spec
    (fun de hde => (mem_filter.1 hde).2) (found_disjoint tree dir)
      (fun de hde => (hprints de hde).nodup)
    (fun de hde => (hprints de hde).sound) (fun de hde => (hprints de hde).complete)
    fun de hde => (hprints de hde).killed
  rw [readEntries_filter]
  exact ⟨hnodup, fun line hl => (found_dir dir).2 (hsound line hl),
    fun hk line hf => hcomplete hk line ((found_dir dir).1 hf), hkilled.trans (fits_dir dir).symm⟩

/-- What `find` prints, by induction on the frames that are left. -/
theorem find_spec (tree : Tree fs.disk) (h : At fs path n) (hle : used ≤ NOFILE) :
    Prints fs.disk name n frames used path (find fs buf name frames used path) := by
  induction frames generalizing n used path with
  | zero => exact ⟨nodup_nil, nofun, nofun, nofun,
      fun hf => absurd (hf [] n (.here n) hle) (Nat.lt_irrefl 0)⟩
  | succ frames ih =>
    have hshort : (join path []).length < MAXPATH := h.short _ _ (.here n)
    rw [join, flatMap_nil, append_nil] at hshort
    rw [find, Files.openAt, if_neg (Nat.not_le.2 hshort), h.namei, Option.bind_some]
    by_cases hdev : (fs.disk n).type = .device ∧ NDEV ≤ (fs.disk n).major
    · rw [if_pos hdev]
      exact prints_other (by rw [hdev.1]; nofun) (by rw [hdev.1]; nofun)
    by_cases hused : NOFILE ≤ used
    · rw [if_neg hdev, if_pos hused]
      refine prints_nil (fun line hf => ?_)
        (fits_leaf fun comps m _ hlen => length_eq_zero_iff.1 (by omega))
      obtain ⟨comps, m, -, -, -, hlt, -⟩ := hf
      omega
    rw [if_neg hdev, if_neg hused]
    dsimp only
    split
    · rw [fmtname_eq h.nul]
      exact prints_file ‹_› (Nat.not_le.1 hused)
    · rename_i hdir
      rw [if_neg (by simp only [MAXPATH, DIRSIZ] at *; omega)]
      refine prints_dir tree hdir fun de hde hl => ?_
      obtain ⟨h0, hdot⟩ := live_iff.1 hl
      rw [child_eq h.nul]
      exact ih (h.child tree hdir hde h0 hdot) (by omega)
    · exact prints_other ‹_› ‹_›

theorem Below.count (h : Below disk n comps m) (tree : Tree disk) :
    (join path comps).count slash = path.count slash + comps.length := by
  induction h generalizing path with
  | here => rw [join, flatMap_nil, append_nil, length_nil, Nat.add_zero]
  | @entry n m de comps dir mem used dot below ih =>
    rw [join_cons, ih, count_append, count_cons_self,
      count_eq_zero.2 (tree.names n dir de mem used dot).2, length_cons]
    omega

/-- Below a directory, the lines that are found are the paths of the files called `name`, as far as
the descriptors reach. -/
theorem found_iff (tree : Tree disk) (dir : (disk n).type = .dir) :
    Found disk name n used path line ↔
    ∃ comps, IsMatch disk n name comps ∧ used + comps.length < NOFILE ∧ line = join path comps := by
  have hne {comps m} (hb : Below disk n comps m) (hm : (disk m).type = .file) : comps ≠ [] := by
    rintro rfl
    cases hb
    rw [dir] at hm
    cases hm
  constructor
  · intro hf
    obtain ⟨comps, m, hb, hm, rfl, hlt, hline⟩ := hf
    exact ⟨comps, ⟨hb.afterSlash tree (hne hb hm), m, hb, hm⟩, hlt, hline⟩
  · intro h
    obtain ⟨comps, ⟨hlast, m, hb, hm⟩, hlt, hline⟩ := h
    have hname : afterSlash (join path comps) = name :=
      Option.some.inj ((hb.afterSlash tree (hne hb hm)).symm.trans hlast)
    exact ⟨comps, m, hb, hm, hname, hlt, hline⟩

variable {k : Nat}

/-- The content of the directory `n` of a chain: besides `.` and `..`, an entry `a` for the next
inode. -/
def chainDir (n : Nat) : List UInt8 :=
  (Dirent.mk' dotName n).bytes ++
    ((Dirent.mk' dotdotName (n - 1)).bytes ++ (Dirent.mk' [chr 'a'] (n + 1)).bytes)

/-- Directories up to `k`, then a file. -/
def chain (k n : Nat) : Node :=
  if n ≤ k then ⟨.dir, 0, 0, 1, [], chainDir n⟩ else ⟨.file, 0, 0, 1, [], []⟩

theorem length_chainDir : (chainDir n).length = DESIZE * 3 := by
  simp only [chainDir, length_append, Dirent.length_mk', DESIZE]

theorem slotCount_chainDir : slotCount (chainDir n) = 3 := by
  rw [slotCount, length_chainDir]
  rfl

theorem entry_chainDir (i : Fin 3) : entry (chainDir n) i =
    Dirent.mk' ([dotName, dotdotName, [chr 'a']].getD i []) ([n, n - 1, n + 1].getD i 0) := by
  rw [← Dirent.ofBytes_mk']
  match i with
  | 0 => rfl
  | 1 => rfl
  | 2 => rfl

theorem directory_chainDir : Directory (chainDir n) where
  whole := by rw [slotCount_chainDir, length_chainDir]
  limit := by
    rw [length_chainDir]
    decide
  distinct name i j hi hj hbi hbj := by
    rw [slotCount_chainDir] at hi hj
    have hinj : ∀ i j : Fin 3, cstr ([dotName, dotdotName, [chr 'a']].getD i []) =
        cstr ([dotName, dotdotName, [chr 'a']].getD j []) → i = j := by decide
    rw [Dirent.Binds, Bool.and_eq_true, decide_eq_true_iff, decide_eq_true_iff] at hbi hbj
    have hname := hbi.2.trans hbj.2.symm
    rw [entry_chainDir ⟨i, hi⟩, entry_chainDir ⟨j, hj⟩, Dirent.cstr_name_mk',
      Dirent.cstr_name_mk'] at hname
    exact congrArg Fin.val (hinj ⟨i, hi⟩ ⟨j, hj⟩ hname)

theorem chain_eq (dir : (chain k n).type = .dir) : n ≤ k ∧ (chain k n).data = chainDir n := by
  unfold chain at dir ⊢
  split at dir
  · exact ⟨‹_›, by rw [if_pos ‹_›]⟩
  · cases dir

theorem chain_entry (hk : k < 60000) (dir : (chain k n).type = .dir)
    (mem : de ∈ entries (chain k n).data)
    (dot : de.isDot = false) : n ≤ k ∧ de.inum = n + 1 ∧ cstr de.name = [chr 'a'] := by
  obtain ⟨hn, hdata⟩ := chain_eq dir
  rw [hdata] at mem
  obtain ⟨i, hi, rfl⟩ := mem_map.1 mem
  have hi : i < 3 := (mem_range.1 hi).trans_eq slotCount_chainDir
  rw [entry_chainDir ⟨i, hi⟩] at dot ⊢
  match i with
  | 0 => cases dot
  | 1 => cases dot
  | 2 => exact ⟨hn, Dirent.inum_mk' (show n + 1 < 2 ^ 16 by omega), rfl⟩

theorem chain_tree (hk : k < 60000) : Tree (chain k) where
  directory n dir := by
    rw [(chain_eq dir).2]
    exact directory_chainDir
  names n dir de mem hde dot := by
    rw [(chain_entry hk dir mem dot).2.2]
    decide

theorem chain_below (hk : k < 60000) (h : Below (chain k) n comps m) (hn : n ≤ k + 1) :
    comps = replicate (m - n) [chr 'a'] ∧ n ≤ m ∧ m ≤ k + 1 := by
  induction h with
  | here n => exact ⟨by rw [Nat.sub_self]; rfl, le_rfl, hn⟩
  | @entry n m de comps dir mem used dot below ih =>
    obtain ⟨hnk, hinum, hname⟩ := chain_entry hk dir mem dot
    obtain ⟨hcomps, hle, hm⟩ := ih (by omega)
    rw [hname, hcomps, hinum, ← replicate_succ]
    exact ⟨by congr 1; omega, by omega, hm⟩

theorem chain_start (hk : k ≤ 60) : At ⟨chain k, ROOTINO⟩ [slash] ROOTINO := by
  refine ⟨rfl, nofun, by decide, fun comps m h => ?_⟩
  obtain ⟨rfl, -, hm⟩ := chain_below (by omega) h (by simp only [ROOTINO]; omega)
  have hlen (j : Nat) : ((replicate j [chr 'a']).flatMap (slash :: ·)).length = 2 * j := by
    simp
    omega
  rw [join, length_append, hlen]
  simp only [MAXPATH, length_singleton]
  omega

theorem below_chain {j : Nat} (hk : k < 60000) (h : n + j = k + 1) :
    Below (chain k) n (replicate j [chr 'a']) (k + 1) := by
  induction j generalizing n with
  | zero => exact h ▸ .here _
  | succ j ih =>
    have hn : chain k n = ⟨.dir, 0, 0, 1, [], chainDir n⟩ := if_pos (by omega)
    have hinum : (Dirent.mk' [chr 'a'] (n + 1)).inum = n + 1 := Dirent.inum_mk' (by omega)
    have hmem : Dirent.mk' [chr 'a'] (n + 1) ∈ entries (chain k n).data := by
      rw [hn]
      exact mem_map.2 ⟨2,
        mem_range.2 (show 2 < slotCount (chainDir n) by rw [slotCount_chainDir]; decide),
        entry_chainDir 2⟩
    exact .entry (by rw [hn]) hmem (by rw [hinum]; exact Nat.succ_ne_zero n) rfl
      (by rw [hinum]; exact ih (by omega))

end

end Xv6.Find
