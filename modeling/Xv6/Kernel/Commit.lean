import Xv6.Kernel.Rules

/-!
# `commit`, recovery and the calls of the file system

The programs of `log.c` meet the preconditions of their operations, and so does every program over
the calls of the file system. Hence the invariant holds in every configuration that any number of
processes and crashes can reach.
-/

namespace Xv6

open Lib Function

namespace Kernel

variable {A : Aux} {sb : Superblock} {hsb : 0 < sb.nlog} {s s' : Kernel A} {p : Pid} {K : Core}

variable {b : Nat}

theorem At.home (hI : Inv sb s) (hA : At sb p K H X s) (hb : b ∈ K.pending) :
    ¬sb.InLog b := by
  rw [← hA.pending, Kernel.pending] at hb
  split at hb
  · exact (hI.log.lh.home b (List.mem_of_mem_drop hb)).1
  · cases hb

theorem drop_eq_cons {l rest : List α} {n : Nat} {a : α} (h : l.drop n = a :: rest) :
    l[n]? = some a ∧ l.drop (n + 1) = rest := by
  refine ⟨?_, ?_⟩
  · rw [← List.head?_drop, h]; rfl
  · rw [← List.drop_drop, h]; rfl

variable {site : Site} {i : BufId} {d : Block}

theorem brelse_pair_safe {site' : Site} {Q : α → Kernel A → Prop} {k : Prog (kIface A) α}
    {j : BufId} {c : Nat} {e : Block} (hA : At sb p K [(i, b, d), (j, c, e)] [i, j] s)
    (hij : i ∉ [j]) (hi : b ∈ K.pending ∨ d = K.disk b) (hj : c ∈ K.pending ∨ e = K.disk c)
    (next : ∀ s', At sb p K [] [] s' → Safe (outline sb hsb) p Q k s') :
    Safe (outline sb hsb) p Q
      ((brelse site i).bind fun _ => (brelse site' j).bind fun _ => k) s :=
  brelse_safe hA hij hi fun _ hA => brelse_safe hA List.not_mem_nil hj next

/-! ## The loops -/

/-- The state of a commit while `write_log` is about to copy block `tail`. -/
structure Core.Logging (sb : Superblock) (K : Core) (tail : Nat) : Prop where
  up : K.up = true
  unpinned : K.unpinned = 0
  lh : Header sb K.block
  header : onDisk sb K.disk = []
  group : K.group = K.block
  headed : K.headed = false
  written : ∀ k b, k < tail → K.block[k]? = some b → K.disk (sb.logstart + k + 1) = K.atCommit b

theorem Core.Logging.pending (h : K.Logging sb tail) : K.pending = K.block := by
  rw [Core.pending, if_pos h.up, h.unpinned, List.drop_zero]

theorem Core.Logging.next (h : K.Logging sb tail) (hb : K.block[tail]? = some b) :
    Core.Logging sb { K with disk := update K.disk (sb.logstart + tail + 1) (K.atCommit b) }
      (tail + 1) where
  up := h.up
  unpinned := h.unpinned
  lh := h.lh
  header := by rw [onDisk_update_of_ne (by omega)]; exact h.header
  group := h.group
  headed := h.headed
  written k c hk hc := by
    show update K.disk _ _ _ = _
    rcases Nat.lt_succ_iff_lt_or_eq.1 hk with hk | rfl
    · rw [update_of_ne (by omega)]
      exact h.written k c hk hc
    · rw [update_self, Option.some.inj (hb.symm.trans hc)]

variable {tail : Nat} {block : List Nat}

theorem writeLogFrom_safe (hA : At sb p K [] [] s)
    (hK : K.Logging sb tail) (hblock : K.block.drop tail = block) :
    Safe (outline sb hsb) p (fun _ s => ∃ disk, At sb p { K with disk } [] [] s ∧
      Core.Logging sb { K with disk } K.block.length) (writeLogFrom sb tail block) s := by
  -- the induction is on the blocks still to copy; the disk changes from one to the next
  induction block generalizing K tail s with
  | nil =>
    have : K.block.length ≤ tail := List.drop_eq_nil_iff.1 hblock
    exact ⟨K.disk, hA, hK.up, hK.unpinned, hK.lh, hK.header, hK.group, hK.headed, fun k b hk =>
      hK.written k b (by omega)⟩
  | cons b block ih =>
    obtain ⟨hb, hrest⟩ := drop_eq_cons hblock
    have htail : tail < K.block.length := (List.getElem?_eq_some_iff.1 hb).1
    have hlog : sb.InLog (sb.logstart + tail + 1) := inLog_tail (htail.trans_le hK.lh.length.1)
    have hmem : b ∈ K.pending := hK.pending ▸ List.mem_of_getElem? hb
    refine bread_safe hA (fun _ _ => trivial) fun i d₀ s hA _ _ _ => ?_
    refine bread_safe hA (fun s hs => ?_) fun j d s hA hj hd₁ hd => ?_
    · subst hs; exact ⟨hK.up, hK.unpinned, hb⟩
    obtain ⟨rfl, hleft⟩ := hd hmem
    have hij : i ∉ [j] := fun h => hj (List.mem_singleton.2 (List.mem_singleton.1 h).symm)
    refine data_safe (fun s => K.atCommit b = s.left b) hA hleft
      (At.left_stable List.mem_cons_self) List.mem_cons_self fun s hA hleft => ?_
    refine setData_safe (fun s => K.atCommit b = s.left b) hA.swap hleft
      (At.left_stable (List.mem_cons_of_mem _ List.mem_cons_self)) hij (fun h => ?_)
      (fun _ => .inl hlog) (fun s t hl ht => ⟨b, by cases ht; exact hb, hl⟩) fun s hA => ?_
    · exact absurd hlog (hK.lh.home _ (hK.pending ▸ h)).1
    refine bwrite_safe hA ⟨rfl, htail, hK.header⟩ (fun _ => .inl hlog) fun s hA => ?_
    refine brelse_pair_safe hA.swap hj (.inl hmem) (.inr ?_) fun s hA => ?_
    · exact (update_self (sb.logstart + tail + 1) _ K.disk).symm
    have := ih hA (hK.next hb) hrest
    exact this

theorem writeLog_safe (hA : At sb p K [] [] s) (hK : K.Logging sb 0) :
    Safe (outline sb hsb) p (fun _ s => ∃ disk, At sb p { K with disk } [] [] s ∧
      Core.Logging sb { K with disk } K.block.length) (writeLog sb) s :=
  lh_safe hA fun _ _ hA => writeLogFrom_safe hA hK rfl

theorem writeHead_safe (hA : At sb p K [] [] s)
    (write : WritePre sb sb.logstart (putHead (K.disk sb.logstart) K.block) K site) :
    Safe (outline sb hsb) p (fun _ => At sb p
      (K.write site sb.logstart (putHead (K.disk sb.logstart) K.block)) []
      []) (writeHead sb site) s := by
  have hlog : sb.InLog sb.logstart := inLog_logstart hsb
  refine bread_safe hA (fun _ _ => trivial) fun i d s hA hi hd _ => ?_
  obtain rfl := hd hlog
  refine lh_safe hA fun s hI hA => ?_
  have hnot : sb.logstart ∉ K.pending := fun h => hA.home hI h hlog
  refine data_safe (fun _ => True) hA trivial (fun _ _ _ _ => id) List.mem_cons_self
    fun s hA _ => ?_
  refine setData_safe (fun _ => True) hA trivial (fun _ _ _ _ => id) hi (fun h => absurd h hnot)
    (fun _ => .inl hlog) (fun _ _ _ h => nomatch h) fun s hA => ?_
  refine bwrite_safe hA write (fun _ => .inl hlog) fun s hA => ?_
  exact brelse_safe hA hi (.inr (update_self sb.logstart _ K.disk).symm) fun _ hA => hA

/-- The state of a commit or of recovery while `install_trans` is about to copy block `tail`. -/
structure Core.Installing (sb : Superblock) (recovering : Bool) (K : Core) (tail : Nat) : Prop where
  up : K.up = !recovering
  unpinned : recovering = false → K.unpinned = tail
  le : tail ≤ K.block.length
  lh : Header sb K.block
  header : onDisk sb K.disk = K.block
  group : recovering = false → ∀ k b, K.block[k]? = some b →
    K.disk (sb.logstart + k + 1) = K.atCommit b
  installed : ∀ k b, k < tail → K.block[k]? = some b → K.disk b = K.disk (sb.logstart + k + 1)

variable {recovering : Bool}

theorem Core.Installing.mem_pending (h : K.Installing sb recovering tail)
    (hup : K.up = true) (hb : K.block[tail]? = some b) : b ∈ K.pending := by
  have hr : recovering = false := by simpa [hup] using h.up
  rw [Core.pending, if_pos hup, h.unpinned hr]
  refine List.mem_of_getElem? (i := 0) ?_
  rw [List.getElem?_drop]
  exact hb

theorem Core.Installing.next {unpinned : Nat}
    (h : K.Installing sb recovering tail) (hsb : 0 < sb.nlog) (hb : K.block[tail]? = some b)
    (hu : recovering = false → unpinned = tail + 1) :
    Core.Installing sb recovering { K with
      disk := update K.disk b (K.disk (sb.logstart + tail + 1)), unpinned } (tail + 1) := by
  -- the log is not changed: `b` lies outside
  have hlog : ∀ k, k < K.block.length → update K.disk b
      (K.disk (sb.logstart + tail + 1)) (sb.logstart + k + 1) = K.disk (sb.logstart + k + 1) := by
    intro k hk
    have hin := inLog_tail (hk.trans_le h.lh.length.1)
    refine update_of_ne ?_ ..
    rintro rfl
    exact (h.lh.home _ (List.mem_of_getElem? hb)).1 hin
  have hlt : ∀ {k c}, K.block[k]? = some c → k < K.block.length :=
    fun hc => (List.getElem?_eq_some_iff.1 hc).1
  refine ⟨h.up, hu, hlt hb, h.lh, ?_, fun hr k c hc => ?_, fun k c hk hc => ?_⟩
  · have hne : b ≠ sb.logstart := fun e =>
      (h.lh.home b (List.mem_of_getElem? hb)).1 (e ▸ inLog_logstart hsb)
    rw [onDisk_update_of_ne hne]
    exact h.header
  · exact (hlog k (hlt hc)).trans (h.group hr k c hc)
  · show update K.disk _ _ c = update K.disk _ _ _
    rw [hlog k (hlt hc)]
    by_cases hcb : c = b
    · subst hcb
      have hkt : k = tail := h.lh.nodup.getElem_inj_iff.1 (by
        rw [(List.getElem?_eq_some_iff.1 hc).2, (List.getElem?_eq_some_iff.1 hb).2])
      rw [hkt, update_self]
    · rw [update_of_ne hcb]
      refine h.installed k c ((Nat.lt_succ_iff_lt_or_eq.1 hk).resolve_right ?_) hc
      rintro rfl
      exact hcb (Option.some.inj (hc.symm.trans hb))

theorem installTransFrom_safe
    (hA : At sb p K [] [] s) (hK : K.Installing sb recovering tail)
    (hblock : K.block.drop tail = block) :
    Safe (outline sb hsb) p (fun _ s => ∃ disk unpinned, At sb p { K with disk, unpinned } [] [] s ∧
      Core.Installing sb recovering { K with disk, unpinned } K.block.length)
      (installTransFrom sb recovering tail block) s := by
  induction block generalizing K tail s with
  | nil =>
    have htail : tail = K.block.length :=
      Nat.le_antisymm hK.le (List.drop_eq_nil_iff.1 hblock)
    subst htail
    exact ⟨K.disk, K.unpinned, hA, hK⟩
  | cons b block ih =>
    obtain ⟨hb, hrest⟩ := drop_eq_cons hblock
    have htail : tail < K.block.length := (List.getElem?_eq_some_iff.1 hb).1
    have hlog : sb.InLog (sb.logstart + tail + 1) := inLog_tail (htail.trans_le hK.lh.length.1)
    have hhome : ¬sb.InLog b := (hK.lh.home b (List.mem_of_getElem? hb)).1
    have hlogged : K.up = true → sb.InLog b ∨ b ∈ K.pending :=
      fun hup => .inr (hK.mem_pending hup hb)
    refine bread_safe hA (fun _ _ => trivial) fun i d s hA _ hd _ => ?_
    obtain rfl := hd hlog
    refine bread_safe hA (fun s hs => trivial) fun j d s hA hj _ hd => ?_
    refine data_safe (fun _ => True) hA trivial (fun _ _ _ _ => id)
      (List.mem_cons_of_mem _ List.mem_cons_self) fun s hA _ => ?_
    refine setData_safe (fun _ => True) hA trivial (fun _ _ _ _ => id) hj ?_ ?_
      (fun _ _ _ h => nomatch h) fun s hA => ?_
    · intro h
      cases recovering with
      | false => exact hK.group rfl tail b hb
      | true => simp [Core.pending, hK.up] at h
    · exact hlogged
    refine bwrite_safe hA ?_ hlogged fun s hA => ?_
    · show (onDisk sb K.disk)[tail]? = some b
      rw [hK.header]
      exact hb
    have hij : i ∉ [j] := fun h => hj (List.mem_singleton.2 (List.mem_singleton.1 h).symm)
    have hclean : K.disk (sb.logstart + tail + 1) =
        update K.disk b (K.disk (sb.logstart + tail + 1)) (sb.logstart + tail + 1) :=
      (update_of_ne (fun e : sb.logstart + tail + 1 = b => hhome (e ▸ hlog)) ..).symm
    have hwritten : K.disk (sb.logstart + tail + 1) =
        update K.disk b (K.disk (sb.logstart + tail + 1)) b :=
      (update_self b _ K.disk).symm
    cases recovering with
    | false =>
      refine bunpin_safe hA List.mem_cons_self hK.up hwritten ?_ fun s hA => ?_
      · show K.block[K.unpinned]? = some b
        rw [hK.unpinned rfl]
        exact hb
      refine brelse_pair_safe hA.swap hij (.inr hclean) (.inr hwritten) fun s hA => ?_
      have := ih hA (hK.next hsb hb fun _ => congrArg (· + 1) (hK.unpinned rfl)) hrest
      exact this
    | true =>
      refine brelse_pair_safe hA.swap hij (.inr hclean) (.inr hwritten) fun s hA => ?_
      have := ih hA (hK.next hsb hb (nomatch ·)) hrest
      exact this

theorem installTrans_safe (hA : At sb p K [] [] s)
    (hK : K.Installing sb recovering 0) :
    Safe (outline sb hsb) p (fun _ s => ∃ disk unpinned, At sb p { K with disk, unpinned } [] [] s ∧
      Core.Installing sb recovering { K with disk, unpinned } K.block.length)
      (installTrans sb recovering) s :=
  lh_safe hA fun _ _ hA => installTransFrom_safe hA hK rfl

/-! ## `commit` and recovery -/

/-- Nothing is left to commit or to recover. -/
def Settled (sb : Superblock) (p : Pid) (up : Bool) (s : Kernel A) : Prop :=
  ∃ K, At sb p K [] [] s ∧ K.up = up ∧ K.block = [] ∧ onDisk sb K.disk = []

variable {up : Bool}

/-- `log.lh.n = 0; write_head()`, once every block is at home. -/
theorem erase_safe (hA : At sb p K [] [] s)
    (hK : K.Installing sb recovering K.block.length) (hup : K.up = up) :
    Safe (outline sb hsb) p (fun _ => Settled sb p up)
      ((op (.setLh [])).bind fun _ => writeHead sb .erase) s := by
  have hhead : headBlocks (putHead (K.disk sb.logstart) []) = [] :=
    headBlocks_putHead _ (Nat.zero_le _) fun _ h => (nomatch h)
  refine setLh_safe hA (.nil sb) (fun hu => ⟨rfl, hK.unpinned ?_⟩) fun s hA => ?_
  · simpa [hu] using hK.up
  have hpre : WritePre sb sb.logstart (putHead (K.disk sb.logstart) [])
      { K with block := [], unpinned := 0 } .erase := by
    refine ⟨rfl, hhead, fun k b hk => ?_⟩
    rw [show onDisk sb K.disk = K.block from hK.header] at hk
    exact hK.installed k b (List.getElem?_eq_some_iff.1 hk).1 hk
  exact (writeHead_safe hA hpre).mono fun _ s hA =>
    ⟨_, hA, hup, rfl, onDisk_update_self.trans hhead⟩

/-- Once the header is on disk, the group is committed. -/
theorem Core.Logging.head (h : K.Logging sb K.block.length) :
    Core.Installing sb false
      (K.write .head sb.logstart (putHead (K.disk sb.logstart) K.block)) 0 where
  up := h.up
  unpinned _ := h.unpinned
  le := Nat.zero_le _
  lh := h.lh
  header := onDisk_update_self.trans
    (headBlocks_putHead _ h.lh.length.2 fun b hb => (h.lh.home b hb).2)
  group _ k b hb := by
    show update K.disk _ _ _ = _
    rw [update_of_ne (by omega)]
    exact h.written k b (List.getElem?_eq_some_iff.1 hb).1 hb
  installed k b hk := absurd hk (Nat.not_lt_zero k)

theorem Core.Logging.writePre (h : K.Logging sb K.block.length) :
    WritePre sb sb.logstart (putHead (K.disk sb.logstart) K.block) K .head :=
  ⟨rfl, h.header, headBlocks_putHead _ h.lh.length.2 fun b hb => (h.lh.home b hb).2,
    fun k b hb => h.written k b (List.getElem?_eq_some_iff.1 hb).1 hb, h.group, h.headed, h.up⟩

theorem commit_safe (hA : At sb p K [] [] s) (hup : K.up = true) (hu : K.unpinned = 0)
    (hhead : onDisk sb K.disk = []) (hgroup : K.group = K.block)
    (hheaded : K.headed = false) :
    Safe (outline sb hsb) p (fun _ => Settled sb p true) (commit sb) s := by
  refine lh_safe hA fun s hI hA => ?_
  have hlh : Header sb K.block := by
    have := hI.log.lh
    rwa [show s.log.block = K.block by rw [← hA.core]; rfl] at this
  split
  · have hK : K.Logging sb 0 := ⟨hup, hu, hlh, hhead, hgroup, hheaded, fun k _ hk =>
      absurd hk (Nat.not_lt_zero k)⟩
    refine (writeLog_safe hA hK).bind fun _ s ⟨disk, hA, hK⟩ => ?_
    refine (writeHead_safe hA hK.writePre).bind fun _ s hA => ?_
    refine (installTrans_safe hA hK.head).bind fun _ s ⟨disk, unpinned, hA, hK⟩ => ?_
    exact erase_safe hA hK hup
  · rename_i hn
    exact ⟨K, hA, hup, List.length_eq_zero_iff.1 (by omega), hhead⟩

theorem readHead_safe (hA : At sb p K [] [] s) (hup : K.up = false)
    (hh : Header sb (onDisk sb K.disk)) :
    Safe (outline sb hsb) p
      (fun _ => At sb p { K with block := onDisk sb K.disk, unpinned := 0 } [] [])
      (readHead sb) s := by
  refine bread_safe hA (fun _ _ => trivial) fun i d s hA hi hd _ => ?_
  obtain rfl := hd (inLog_logstart hsb)
  refine data_safe (fun _ => True) hA trivial (fun _ _ _ _ => id) List.mem_cons_self
    fun s hA _ => ?_
  refine setLh_safe hA hh (fun h => absurd h (by simp [hup])) fun s hA => ?_
  exact brelse_safe hA hi (.inr rfl) fun s hA => hA

theorem recoverFromLog_safe (hA : At sb p K [] [] s) (hup : K.up = false)
    (hh : Header sb (onDisk sb K.disk)) :
    Safe (outline sb hsb) p (fun _ => Settled sb p false) (recoverFromLog sb) s := by
  refine (readHead_safe hA hup hh).bind fun _ s hA => ?_
  have hK : Core.Installing sb true { K with block := onDisk sb K.disk, unpinned := 0 } 0 :=
    ⟨hup, fun h => (nomatch h), Nat.zero_le _, hh, rfl, fun h => (nomatch h),
      fun k _ hk => absurd hk (Nat.not_lt_zero k)⟩
  refine (installTrans_safe hA hK).bind fun _ s ⟨disk, unpinned, hA, hK⟩ => ?_
  exact erase_safe hA hK hup

/-! ## The calls of the file system -/

theorem Settled.stable (hR : Rely p s s') (h : Settled sb p up s) :
    Settled sb p up s' := by
  obtain ⟨K, hA, h⟩ := h
  exact ⟨K, hA.stable hR, h⟩

theorem At.tidied (h : At sb p K [] [] s) : Tidy sb p s := by
  intro i ho hl
  rw [h.disk]
  exact (h.tidy i ho List.not_mem_nil).2 hl

theorem initlog_safe (hA : At sb p K [] [] s) (hup : K.up = false)
    (hh : Header sb (onDisk sb K.disk)) :
    Safe (outline sb hsb) p (fun _ => Idle p) (initlog sb) s := by
  refine (recoverFromLog_safe hA hup hh).bind fun _ s h => ?_
  refine .call (A := Settled sb p false) h (fun _ _ => Settled.stable) ?_ ?_
  · rintro s _ _ ⟨K, hA, hup, hb, hd⟩
    obtain rfl := hA.core
    exact ⟨hA.committer, hup, hb, hd, hA.tidied⟩
  · rintro s r s' _ _ _ ⟨K, hA, hup, hb, hd⟩ he
    cases he
    exact ⟨nofun, fun i ho => (hA.tidy i ho List.not_mem_nil).1⟩

/-- Process `p` may make a call of the file system. -/
def Ready (p : Pid) (s : Kernel A) : Prop := Idle p s ∧ s.up = true

namespace Ready

theorem stable (hR : Rely p s s') (h : Ready p s) : Ready p s' :=
  ⟨h.1.stable hR, hR.up h.2⟩

theorem keep (h : Ready p s) (hc : s'.committer = s.committer) (hup : s'.up = s.up)
    (hb : ∀ j, (s'.buf j).owner = some p →
      (s.buf j).owner = some p ∧ ((s.buf j).valid → (s'.buf j).valid)) : Ready p s' :=
  ⟨⟨by rw [hc]; exact h.1.1, fun j ho => (hb j ho).2 (h.1.2 j (hb j ho).1)⟩, hup.trans h.2⟩

end Ready

/-- The last `end_op` makes its process the committer. -/
theorem Ready.commit (hI : Inv sb s) (hg : p ∈ s.inOp) (h : Ready p s)
    (he : exec p .endOp s = .ok (true, s')) :
    At sb p s'.core [] [] s' ∧ s'.up = true ∧ s'.unpinned = 0 ∧ onDisk sb s'.disk = [] ∧
      s'.group = s'.log.block ∧ s'.headed = false := by
  have hc := hI.log.none_of_inOp hg
  simp only [exec] at he
  split at he <;> cases he
  rename_i log hl
  have hblock : s.log.block = log.block := by rw [(Log.endOp_ok hl).2.2]
  refine ⟨⟨rfl, rfl, by simp, fun i ho _ => ⟨h.1.2 i ho, fun hl => ?_⟩⟩,
    h.2, hI.log.unpinned.2 hc, hI.log.quiet hc, hblock, rfl⟩
  -- a block of the log that differs from the disk is held by the committer, and there was none
  by_contra hne
  have := (hI.buf i).region (hI.dev_of_owner ho) (h.1.2 i ho) hl hne
  exact this.1 (this.2.trans hc)

theorem endOp_safe (h : Ready p s) :
    Safe (outline sb hsb) p (fun _ => Ready p) (endOp sb) s := by
  refine .call (A := Ready p) h (fun _ _ => Ready.stable) (fun _ _ _ _ => trivial) ?_
  intro s r s' hI _ hg h he
  cases r with
  | false =>
    change exec p .endOp s = _ at he
    simp only [exec] at he
    split at he <;> cases he
    exact h
  | true =>
    obtain ⟨hA, hup, hu, hd, hgroup, hheaded⟩ := h.commit hI hg he
    refine (commit_safe hA hup hu hd hgroup hheaded).bind fun _ s h => ?_
    refine .call (A := Settled sb p true) h (fun _ _ => Settled.stable) ?_ ?_
    · rintro s _ _ ⟨K, hA, hup, hb, hd⟩
      obtain rfl := hA.core
      exact ⟨hA.committer, hup, hb, hd, hA.tidied⟩
    · rintro s r s' _ _ _ ⟨K, hA, hup, hb, hd⟩ he
      obtain rfl := hA.core
      cases he
      exact ⟨⟨by simp, fun i ho => (hA.tidy i ho List.not_mem_nil).1⟩, hup⟩

/-- Process `p` just locked buffer `i`; whether the buffer is valid is not known yet. -/
structure Locked (p : Pid) (i : BufId) (s : Kernel A) : Prop where
  committer : s.committer ≠ some p
  up : s.up = true
  owner : (s.buf i).owner = some p
  others : ∀ j, j ≠ i → (s.buf j).owner = some p → (s.buf j).valid

namespace Locked

variable {i : BufId} {r : Unit}

theorem stable (hR : Rely p s s') (h : Locked p i s) : Locked p i s' := by
  refine ⟨fun e => h.committer (hR.committer.1 e), hR.up h.up, (hR.bio.owner i).2 h.owner, ?_⟩
  intro j hj ho
  have ho' := (hR.bio.owner j).1 ho
  exact (hR.bio.held j ho').2.1.trans (h.others j hj ho')

theorem of_acquiresleep (h : Ready p s)
    (he : exec p (.bio .client (.acquiresleep i)) s = .ok (r, s')) : Locked p i s' := by
  obtain ⟨bio, hb, rfl⟩ := exec_bio_ok he
  simp only [Bio.exec] at hb
  split at hb <;> cases hb
  refine ⟨h.1.1, h.2, congrArg Buf.owner (Bio.buf_set_self ..), fun j hj => ?_⟩
  show (Bio.buf (s.bio.set i _) j).owner = _ → (Bio.buf (s.bio.set i _) j).valid = true
  rw [Bio.buf_set_of_ne _ hj]
  exact h.1.2 j

theorem load (h : Locked p i s) (he : exec p (.bio .client (.load i)) s = .ok (r, s')) :
    Ready p s' := by
  obtain ⟨bio, hb, rfl⟩ := exec_bio_ok he
  simp only [Bio.exec] at hb
  split at hb <;> cases hb
  · rename_i hv
    refine ⟨⟨h.committer, fun j ho => ?_⟩, h.up⟩
    by_cases hj : j = i
    · subst hj; exact hv
    · exact h.others j hj ho
  · refine ⟨⟨h.committer, fun j => ?_⟩, h.up⟩
    show (Bio.buf (s.bio.set i _) j).owner = _ → (Bio.buf (s.bio.set i _) j).valid = true
    by_cases hj : j = i
    · subst hj; rw [Bio.buf_set_self]; exact fun _ => rfl
    · rw [Bio.buf_set_of_ne _ hj]; exact h.others j hj

end Locked

theorem client_bread_safe {dev : Nat} (h : Ready p s) :
    Safe (outline sb hsb) p (fun _ => Ready p) (bread .client dev b) s := by
  refine .call (A := Ready p) h (fun _ _ => Ready.stable) (fun _ _ _ _ => ⟨trivial, trivial⟩) ?_
  intro s i s' hI _ hg h he
  obtain rfl : dev = ROOTDEV := hg
  have got := hI.got he
  refine .call (A := fun s => Ready p s ∧ p ∈ s.bio.refs i) ⟨?_, got.refs⟩
    (fun s s' hR h => ⟨h.1.stable hR, hR.bio.mem_refs.2 h.2⟩) (fun s _ _ h => ⟨h.2, trivial⟩) ?_
  · refine h.keep got.committer (congrArg Core.up got.core) fun j ho => ?_
    rw [got.owner j] at ho
    exact ⟨ho, fun hv => (got.held j p ho).2.2.1.trans hv⟩
  intro s r s' hI _ _ h he
  refine .call (A := Locked p i) (Locked.of_acquiresleep h.1 he) (fun _ _ => Locked.stable)
    (fun s _ _ h => ⟨h.owner, trivial⟩) ?_
  exact fun s r s' _ _ _ h he => h.load he

variable {r : Unit}

theorem Ready.releasesleep (hI : Inv sb s) (h : Ready p s)
    (he : exec p (.bio .client (.releasesleep i)) s = .ok (r, s')) :
    Ready p s' ∧ p ∈ s'.bio.refs i ∧ (s'.buf i).owner ≠ some p := by
  obtain ⟨bio, hb, rfl⟩ := exec_bio_ok he
  simp only [Bio.exec] at hb
  split at hb <;> cases hb
  rename_i ho
  refine ⟨h.keep rfl rfl fun j => ?_, hI.bio.owner i p ho, ?_⟩
  · show (Bio.buf (s.bio.set i _) j).owner = _ → _ ∧ (_ → (Bio.buf (s.bio.set i _) j).valid = true)
    by_cases hj : j = i
    · subst hj; simp [Bio.buf_set_self]
    · rw [Bio.buf_set_of_ne _ hj]; exact fun ho => ⟨ho, id⟩
  · show (Bio.buf (s.bio.set i _) i).owner ≠ _
    simp [Bio.buf_set_self]

theorem Ready.unref (h : Ready p s)
    (he : exec p (.bio .client (.unref i)) s = .ok (r, s')) : Ready p s' := by
  obtain ⟨bio, hb, rfl⟩ := exec_bio_ok he
  cases hb
  refine h.keep rfl rfl fun j => ?_
  show ((s.bio.cache.unref i).buf j).owner = _ →
      _ ∧ (_ → ((s.bio.cache.unref i).buf j).valid = true)
  rw [Bcache.unref_buf]
  by_cases hj : j = i
  · subst hj; rw [Bcache.buf_set_self]; exact fun ho => ⟨ho, id⟩
  · rw [Bcache.buf_set_of_ne _ hj]; exact fun ho => ⟨ho, id⟩

theorem client_brelse_safe (h : Ready p s) :
    Safe (outline sb hsb) p (fun _ => Ready p) (brelse .client i) s := by
  refine .call (A := Ready p) h (fun _ _ => Ready.stable)
    (fun s _ _ h => ⟨trivial, fun hc => absurd hc h.1.1⟩) ?_
  intro s r s' hI _ _ h he
  refine .call (A := fun s => Ready p s ∧ p ∈ s.bio.refs i ∧ (s.buf i).owner ≠ some p)
    (h.releasesleep hI he) ?_ (fun s _ _ h => ⟨h.2, trivial⟩) ?_
  · exact fun s s' hR h => ⟨h.1.stable hR, hR.bio.mem_refs.2 h.2.1,
      fun ho => h.2.2 ((hR.bio.owner i).1 ho)⟩
  exact fun s r s' _ _ _ h he => h.1.unref he

theorem op_ready {o : KOp A} (h : Ready p s)
    (pre : ∀ s, Proper sb p o s → Ready p s → Pre sb p o s)
    (next : ∀ s r s', Ready p s → exec p o s = .ok (r, s') → Ready p s') :
    Safe (outline sb hsb) p (fun _ => Ready p) (op o) s :=
  .call (A := Ready p) h (fun _ _ => Ready.stable) (fun s _ hg h => pre s hg h)
    fun s r s' _ _ _ h he => next s r s' h he

theorem Ready.setData (h : Ready p s)
    (he : exec p (.bio site (.setData i d)) s = .ok (r, s')) : Ready p s' := by
  obtain ⟨bio, hb, rfl⟩ := exec_bio_ok he
  have hrec : s.record site (.setData i d) = s := by cases site <;> rfl
  rw [hrec]
  cases hb
  refine h.keep rfl rfl fun j => ?_
  show (Bio.buf (s.bio.set i _) j).owner = _ → _ ∧ (_ → (Bio.buf (s.bio.set i _) j).valid = true)
  by_cases hj : j = i
  · subst hj; rw [Bio.buf_set_self]; exact fun ho => ⟨ho, id⟩
  · rw [Bio.buf_set_of_ne _ hj]; exact fun ho => ⟨ho, id⟩

theorem Ready.logWrite (h : Ready p s)
    (he : exec p (.logWrite i) s = .ok (r, s')) : Ready p s' := by
  simp only [exec] at he
  split at he <;> cases he
  · exact h
  · refine h.keep rfl rfl fun j => ?_
    show ((s.bio.cache.bpin i).buf j).owner = _ →
        _ ∧ (_ → ((s.bio.cache.bpin i).buf j).valid = true)
    rw [Bcache.bpin]
    by_cases hj : j = i
    · subst hj; rw [Bcache.buf_set_self]; exact fun ho => ⟨ho, id⟩
    · rw [Bcache.buf_set_of_ne _ hj]; exact fun ho => ⟨ho, id⟩

theorem impl_safe (o : FsCall A) (h : Ready p s) :
    Safe (outline sb hsb) p (fun _ => Ready p) (impl sb o) s := by
  cases o with
  | bread dev blockno => exact client_bread_safe h
  | brelse i => exact client_brelse_safe h
  | data i =>
    refine op_ready h (fun _ _ _ => ⟨trivial, trivial⟩) fun s r s' h he => ?_
    obtain ⟨bio, hb, rfl⟩ := exec_bio_ok he
    cases hb
    exact h
  | setData i d => exact op_ready h (fun s hg _ => ⟨hg.1, trivial⟩) fun s r s' h he => h.setData he
  | copyin ok i d =>
    exact op_ready h (fun s hg _ => ⟨hg.1, trivial⟩) fun s r s' h he => h.setData he
  | logWrite i => exact op_ready h (fun s hg h => h.1.2 i hg.1.1) fun s r s' h he => h.logWrite he
  | beginOp =>
    refine op_ready h (fun s _ h => h.2) fun s r s' h he => ?_
    simp only [exec] at he
    split at he <;> cases he
    exact h
  | endOp => exact endOp_safe h
  | aux o =>
    refine op_ready h (fun s _ h => trivial) fun s r s' h he => ?_
    simp only [exec] at he
    split at he <;> cases he
    exact h

theorem interp_safe (x : Prog (fsIface A) Unit) (h : Ready p s) :
    Safe (outline sb hsb) p (fun _ => Idle p) (x.interp (impl sb)) s := by
  induction x generalizing s with
  | ret a => exact h.1
  | call o k ih => exact (impl_safe o h).bind fun r s h => ih r h

/-! ## Soundness -/

variable {disk base : Nat → Block} {aux : A.St}

theorem boot_inv (hh : Header sb (onDisk sb disk))
    (hbase : ∀ b, ¬sb.InLog b → recView sb disk b = base b) :
    Inv sb (boot sb disk base aux) where
  bio := .boot disk
  log := {
    size := rfl
    outstanding := rfl
    committing := ⟨nofun, nofun⟩
    exclusive := fun _ => rfl
    boot := fun _ => ⟨nofun, rfl⟩
    unpinned := ⟨Nat.le_refl 0, nofun⟩
    lh := .nil sb
    header := hh
    quiet := nofun
    recovered := hbase }
  buf _ := {
    dev := fun h => absurd rfl h
    pins := (if_neg fun h => nomatch h.2).symm
    left := nofun
    atCommit := fun _ _ h => nomatch h
    region := nofun }
  cached _ h := nomatch h

theorem start_good (hh : Header sb (onDisk sb disk))
    (hbase : ∀ b, ¬sb.InLog b → recView sb disk b = base b) :
    (start sb disk base aux).Good (outline sb hsb) := by
  refine ⟨boot_inv hh hbase, fun p => ?_⟩
  have hprog : (start sb disk base aux).prog = update (fun _ => .ret ()) 0 (initlog sb) := rfl
  rw [hprog]
  by_cases hp : p = 0
  · subst hp
    rw [update_self]
    refine initlog_safe ⟨rfl, rfl, fun _ h => (nomatch h), fun i ho => ?_⟩ rfl hh
    cases ho
  · rw [update_of_ne hp]
    refine ⟨fun e => hp (Option.some.inj e).symm, fun i ho => ?_⟩
    cases ho

variable {c c' : Config (kIface A) (Kernel A) Pid}

theorem good_step (h : c.Good (outline sb hsb))
    (hs : (system sb).Step c c' ∨ Crash sb c c') : c'.Good (outline sb hsb) := by
  rcases hs with hs | hs
  · refine h.step ?_ hs
    rintro p s _ ⟨hup, x, rfl⟩ _ hi
    exact interp_safe x ⟨hi, hup⟩
  · cases hs
    have hl := h.inv.log
    exact start_good hl.header hl.recovered

/-- Every configuration reached by any number of processes and crashes is good. -/
theorem good_of_runs (h : c.Good (outline sb hsb))
    (hr : Runs sb c c') : c'.Good (outline sb hsb) := by
  induction hr with
  | refl => exact h
  | tail _ hs ih => exact good_step ih hs

theorem good_of_empty
    (hd : onDisk sb disk = []) (hr : Runs sb (start sb disk disk aux) c) :
    c.Good (outline sb hsb) := by
  refine good_of_runs (start_good ?_ fun b _ => ?_) hr
  · rw [hd]; exact .nil sb
  · rw [recView, hd]; exact if_neg List.not_mem_nil

end Kernel

end Xv6
