import Xv6.Kernel.Invariant

/-!
# Processes that use the log, and crashes

Any number of processes run arbitrary programs over the calls that `fs.c` makes: `begin_op`,
`end_op`, `bread`, `brelse`, `log_write` and the accesses to the data of a buffer, beside any other
operations of the kernel. The calls follow the discipline stated in `log.c` and `bio.c`: one
operation at a time between `begin_op` and `end_op`, the data of a buffer is changed by its holder,
inside an operation and outside the log, and `log_write` is for such a buffer. Only one device
exists.
-/

namespace Xv6

open Lib Function Finset

namespace Kernel

variable {A : Aux} (sb : Superblock)

/-- A buffer whose data process `p` may change. -/
def Writable (p : Pid) (i : BufId) (s : Kernel A) : Prop :=
  (s.buf i).owner = some p ∧ p ∈ s.inOp ∧ ¬sb.InLog (s.buf i).blockno

/-- The discipline of the callers. -/
def Proper (p : Pid) : KOp A → Kernel A → Prop
  | .bio _ (.bget dev _), _ => dev = ROOTDEV
  | .bio .client (.setData i _), s | .bio (.copyin _) (.setData i _), s => Writable sb p i s
  | .logWrite i, s => Writable sb p i s ∧ (s.buf i).blockno < 2 ^ 32
  | .beginOp, s => p ∉ s.inOp
  | .endOp, s => p ∈ s.inOp
  | _, _ => True

instance (p : Pid) (i : BufId) (s : Kernel A) : Decidable (Writable sb p i s) :=
  inferInstanceAs (Decidable (_ ∧ _ ∧ _))

instance (p : Pid) : (o : KOp A) → (s : Kernel A) → Decidable (Proper sb p o s)
  | .bio _ (.bget dev _), _ => inferInstanceAs (Decidable (dev = ROOTDEV))
  | .bio .client (.setData i _), s | .bio (.copyin _) (.setData i _), s =>
    inferInstanceAs (Decidable (Writable sb p i s))
  | .logWrite i, s => inferInstanceAs (Decidable (Writable sb p i s ∧ (s.buf i).blockno < 2 ^ 32))
  | .beginOp, s => inferInstanceAs (Decidable (p ∉ s.inOp))
  | .endOp, s => inferInstanceAs (Decidable (p ∈ s.inOp))
  | .bio .log (.setData ..), _ | .bio (.logFrom _) (.setData ..), _ | .bio (.logCopy _)
      (.setData ..), _
  | .bio (.logWrite _) (.setData ..), _ | .bio .head (.setData ..), _
  | .bio (.install _) (.setData ..), _ | .bio .erase (.setData ..), _ => .isTrue trivial
  | .bio site (.acquiresleep _), _ | .bio site (.load _), _ | .bio site (.data _), _
  | .bio site (.bwrite _), _ | .bio site (.releasesleep _), _ | .bio site (.unref _), _
  | .bio site (.bpin _), _ | .bio site (.bunpin _), _ => .isTrue (by cases site <;> trivial)
  | .commitDone, _ | .lh, _ | .setLh _, _ | .initDone, _ | .aux _, _ => .isTrue trivial

def system : System (kIface A) (Kernel A) Panic Pid where
  exec := exec
  guard := Proper sb
  calls _ s x := s.up = true ∧ ∃ y : Prog (fsIface A) Unit, x = y.interp (impl sb)
  env _ _ := False

/-- The configuration after a power-up: process 0 runs `initlog`, nothing else runs. -/
def start (disk base : Nat → Block) (aux : A.St) : Config (kIface A) (Kernel A) Pid :=
  ⟨boot sb disk base aux, update (fun _ => .ret ()) 0 (initlog sb)⟩

/-- A crash keeps the disk and nothing else (the history apart). -/
inductive Crash : Config (kIface A) (Kernel A) Pid → Config (kIface A) (Kernel A) Pid → Prop
  | intro (c : Config (kIface A) (Kernel A) Pid) (aux : A.St) :
    Crash c (start sb c.st.disk c.st.spec aux)

/-- Runs with any number of crashes. -/
def Runs : Config (kIface A) (Kernel A) Pid → Config (kIface A) (Kernel A) Pid → Prop :=
  Relation.ReflTransGen fun c c' => (system sb).Step c c' ∨ Crash sb c c'

/-! ## The preconditions of the operations -/

variable {sb}

/-- The precondition of a write of `d` to block `b` of the disk. -/
def WritePre (sb : Superblock) (b : Nat) (d : Block) (K : Core) : Site → Prop
  | .logWrite tail => b = sb.logstart + tail + 1 ∧ tail < K.block.length ∧ onDisk sb K.disk = []
  | .head => b = sb.logstart ∧ onDisk sb K.disk = [] ∧ headBlocks d = K.block ∧
    (∀ k b, K.block[k]? = some b → K.disk (sb.logstart + k + 1) = K.atCommit b) ∧
    K.group = K.block ∧ K.headed = false ∧ K.up = true
  | .install tail => (onDisk sb K.disk)[tail]? = some b
  | .erase => b = sb.logstart ∧ headBlocks d = [] ∧
    ∀ k b, (onDisk sb K.disk)[k]? = some b → K.disk b = K.disk (sb.logstart + k + 1)
  | _ => False

/-- The precondition of an operation on a buffer, by where it is called from. -/
def SitePre (sb : Superblock) (p : Pid) : Site → BioOp → Kernel A → Prop
  -- `write_log` reads the logged blocks in turn, while all of them are pinned
  | .logFrom tail, .bget _ b, s => s.up = true ∧ s.unpinned = 0 ∧ s.log.block[tail]? = some b
  | .client, .setData .., _ | .copyin _, .setData .., _ => True
  | site, .setData i d, s => s.committer = some p ∧
    ((s.buf i).blockno ∈ s.pending → d = s.atCommit (s.buf i).blockno) ∧
    (s.up = true → sb.InLog (s.buf i).blockno ∨ (s.buf i).blockno ∈ s.pending) ∧
    -- what `write_log` copies is what the last holder left
    ∀ tail, site = .logCopy tail → ∃ b, s.log.block[tail]? = some b ∧ d = s.left b
  | site, .bwrite i, s => s.committer = some p ∧
    WritePre sb (s.buf i).blockno (s.buf i).data s.core site ∧
    (s.up = true → sb.InLog (s.buf i).blockno ∨ (s.buf i).blockno ∈ s.pending)
  | _, .releasesleep i, s => s.committer = some p → (s.buf i).owner = some p →
    (s.buf i).blockno ∈ s.pending ∨ (s.buf i).data = s.disk (s.buf i).blockno
  | _, .bunpin i, s => s.committer = some p ∧ s.up = true ∧ (s.buf i).owner = some p ∧
    (s.buf i).data = s.disk (s.buf i).blockno ∧ ∃ b, s.Caches i b ∧
    s.log.block[s.unpinned]? = some b
  | _, .bpin _, _ => False
  | _, _, _ => True

section
variable {s : Kernel A} {p : Pid} {i : BufId} {site : Site}

theorem sitePre_bwrite : SitePre sb p site (.bwrite i) s ↔
    s.committer = some p ∧ WritePre sb (s.buf i).blockno (s.buf i).data s.core site ∧
    (s.up = true → sb.InLog (s.buf i).blockno ∨ (s.buf i).blockno ∈ s.pending) := by
  cases site <;> rfl

theorem sitePre_releasesleep : SitePre sb p site (.releasesleep i) s ↔
    (s.committer = some p → (s.buf i).owner = some p →
      (s.buf i).blockno ∈ s.pending ∨ (s.buf i).data = s.disk (s.buf i).blockno) := by
  cases site <;> rfl

theorem sitePre_bunpin : SitePre sb p site (.bunpin i) s ↔ s.committer = some p ∧ s.up = true ∧
    (s.buf i).owner = some p ∧ (s.buf i).data = s.disk (s.buf i).blockno ∧
    ∃ b, s.Caches i b ∧ s.log.block[s.unpinned]? = some b := by
  cases site <;> rfl

end

def Pre (sb : Superblock) (p : Pid) : KOp A → Kernel A → Prop
  | .bio site o, s => Bio.Pre p o s.bio ∧ SitePre sb p site o s
  | .logWrite i, s => (s.buf i).valid
  | .beginOp, s => s.up = true
  | .setLh block, s => s.committer = some p ∧ Header sb block ∧
    (s.up = true → block = [] ∧ s.unpinned = s.log.n)
  | .commitDone, s => s.committer = some p ∧ s.up = true ∧ s.log.block = [] ∧
    onDisk sb s.disk = [] ∧ Tidy sb p s
  | .initDone, s => s.committer = some p ∧ s.up = false ∧ s.log.block = [] ∧
    onDisk sb s.disk = [] ∧ Tidy sb p s
  | _, _ => True

/-! ## Every operation keeps the invariant -/

variable {s : Kernel A} {p : Pid} {i : BufId} {bio : Bio}

/-- The rely of the others after an operation that leaves the log and the disk alone. -/
theorem Rely.of_bio (hb : s.bio.Rely q bio) (hdisk : bio.disk = s.bio.disk) :
    Rely q s { s with bio } :=
  ⟨hb, .rfl, .rfl, id, fun _ => congrArg (Core.mk · s.log.block s.up s.unpinned s.atCommit s.base
    s.group s.headed) hdisk, fun _ _ => rfl⟩

theorem Rely.of_committer {s' : Kernel A} (hc : s.committer = some p) (hqp : q ≠ p)
    (hb : s.bio.Rely q s'.bio) (hi : s'.inOp = s.inOp) (hcm : s'.committer ≠ some q)
    (hup : s.up = true → s'.up = true) (hl : s'.left = s.left) : Rely q s s' := by
  have hcq : s.committer ≠ some q := by
    rw [hc]
    exact fun e => hqp (Option.some.inj e).symm
  exact ⟨hb, by rw [hi], ⟨fun e => absurd e hcm, fun e => absurd e hcq⟩, hup,
    fun e => absurd e hcq, fun _ _ => by rw [hl]⟩

theorem record_eq (s : Kernel A) (site : Site) (o : BioOp) :
    (s.record site o).inOp = s.inOp ∧ (s.record site o).committer = s.committer ∧
      (s.record site o).up = s.up := by
  cases site <;> cases o <;> exact ⟨rfl, rfl, rfl⟩

theorem Inv.bwrite_ok (hsb : 0 < sb.nlog) (h : Inv sb s) {site : Site}
    (hc : s.committer = some p) (ho : (s.buf i).owner = some p)
    (hp : WritePre sb (s.buf i).blockno (s.buf i).data s.core site) :
    Inv sb { s.record site (.bwrite i) with
      bio := { s.bio with disk := update s.disk (s.buf i).blockno (s.buf i).data } } := by
  have hl := h.log
  have hcn : s.committer ≠ none := by simp [hc]
  have hdev := h.dev_of_owner ho
  cases site with
  | logWrite tail =>
    obtain ⟨hb, ht, hd⟩ : _ ∧ tail < s.log.n ∧ onDisk sb s.disk = [] := hp
    have hin : sb.InLog (s.buf i).blockno := by
      rw [hb]
      exact inLog_tail (ht.trans_le hl.lh.length.1)
    have hne : (s.buf i).blockno ≠ sb.logstart := by omega
    refine h.bwrite hcn ho rfl ?_ fun b hb' => ?_
    · rw [onDisk_update_of_ne hne]; exact hl.header
    · rw [recView_update_log hd hin hne hb', hl.recovered b hb']; rfl
  | head =>
    obtain ⟨hb, hd, hhead, hwritten, hgroup, hheaded, -⟩ : _ ∧ onDisk sb s.disk = [] ∧
      headBlocks (s.buf i).data = s.log.block ∧ _ ∧ s.group = s.log.block ∧
        s.headed = false ∧ _ := hp
    have hrec : ∀ b, ¬sb.InLog b → recView sb s.disk b = s.base b := fun b hb => by
      rw [hl.recovered b hb, spec, hheaded]; rfl
    refine h.bwrite hcn ho rfl ?_ fun b hb' => ?_
    · rw [hb, onDisk_update_self, hhead]; exact hl.lh
    · rw [hb, recView_update_head hsb hd hrec
        (show ∀ k b, _ → _ = s.atCommit b by rw [hhead]; exact hwritten) hb', hhead, ← hgroup]; rfl
  | install tail =>
    have hmem : (s.buf i).blockno ∈ onDisk sb s.disk := List.mem_of_getElem? hp
    have hne : (s.buf i).blockno ≠ sb.logstart := fun e =>
      (hl.header.home _ hmem).1 (e ▸ inLog_logstart hsb)
    refine h.bwrite hcn ho rfl ?_ fun b hb' => ?_
    · rw [onDisk_update_of_ne hne]; exact hl.header
    · rw [recView_update_install hl.header hsb hmem, hl.recovered b hb']; rfl
  | erase =>
    obtain ⟨hb, hhead, hhome⟩ : _ ∧ _ ∧ ∀ k b, (onDisk sb s.disk)[k]? = some b → s.disk b = _ := hp
    refine h.bwrite hcn ho rfl ?_ fun b hb' => ?_
    · rw [hb, onDisk_update_self, hhead]; exact .nil sb
    · rw [hb, recView_update_erase hsb hhead hhome hb', hl.recovered b hb']; rfl
  | client | copyin ok | log | logFrom tail | logCopy tail => exact hp.elim

theorem Inv.bio_ok (hsb : 0 < sb.nlog) (h : Inv sb s) {site : Site} {o : BioOp} {r : o.Res}
    (hg : Proper sb p (.bio site o) s) (hp : Pre sb p (.bio site o) s)
    (he : Bio.exec p o s.bio = .ok (r, bio)) :
    Inv sb { s.record site o with bio } ∧ ∀ q, q ≠ p → Rely q s { s.record site o with bio } := by
  obtain ⟨hpre, hsite⟩ := hp
  obtain ⟨hbio, hrely⟩ := h.bio.exec hpre he
  cases o with
  | bget dev blockno =>
    have hrec : s.record site (.bget dev blockno) = s := by cases site <;> rfl
    obtain rfl : dev = ROOTDEV := by cases site <;> exact hg
    simp only [Bio.exec] at he
    rw [hrec]
    split at he
    · rename_i j c hb
      cases he
      exact ⟨h.bget hb hbio fun j hj => update_of_ne hj .., fun q hq => .of_bio (hrely q hq) rfl⟩
    · cases he
  | acquiresleep j =>
    have hrec : s.record site (.acquiresleep j) = s := by cases site <;> rfl
    simp only [Bio.exec] at he
    rw [hrec]
    split at he <;> cases he
    rename_i hfree
    exact ⟨h.acquiresleep hbio hfree, fun q hq => .of_bio (hrely q hq) rfl⟩
  | load j =>
    have hrec : s.record site (.load j) = s := by cases site <;> rfl
    simp only [Bio.exec] at he
    rw [hrec]
    split at he <;> cases he
    · exact ⟨h, fun q _ => .refl q s⟩
    · rename_i hv
      exact ⟨h.load (Bool.eq_false_iff.2 hv) hpre hbio, fun q hq => .of_bio (hrely q hq) rfl⟩
  | data j =>
    have hrec : s.record site (.data j) = s := by cases site <;> rfl
    rw [hrec]
    cases he
    exact ⟨h, fun q _ => .refl q s⟩
  | setData j d =>
    have hrec : s.record site (.setData j d) = s := by cases site <;> rfl
    rw [hrec]
    cases he
    refine ⟨h.setData hpre hbio (fun hc hb => ?_) (fun hl => ?_),
      fun q hq => .of_bio (hrely q hq) rfl⟩
    · cases site with
      | client | copyin ok => exact absurd (h.log.none_of_inOp hg.2.1) hc
      | log | logFrom | logCopy | logWrite | head | install | erase => exact hsite.2.1 hb
    · cases site with
      | client | copyin ok => exact absurd hl hg.2.2
      | log | logFrom | logCopy | logWrite | head | install | erase => exact hsite.1
  | bwrite j =>
    have hsite' := sitePre_bwrite.1 hsite
    simp only [Bio.exec] at he
    split at he <;> cases he
    rename_i ho
    obtain ⟨hinOp, hcm, hup⟩ := s.record_eq site (.bwrite j)
    refine ⟨h.bwrite_ok hsb hsite'.1 ho hsite'.2.1, fun q hq =>
      .of_committer hsite'.1 hq (hrely q hq) hinOp ?_ ?_ ?_⟩
    · rw [show (s.record site (.bwrite j)).committer = _ from hcm, hsite'.1]
      exact fun e => hq (Option.some.inj e).symm
    · rw [show (s.record site (.bwrite j)).up = _ from hup]; exact id
    · cases site <;> rfl
  | releasesleep j =>
    have hrec : s.record site (.releasesleep j) =
        { s with left := update s.left (s.buf j).blockno (s.buf j).data } := by
      cases site <;> rfl
    have hsite' := sitePre_releasesleep.1 hsite
    simp only [Bio.exec] at he
    rw [hrec]
    split at he <;> cases he
    rename_i ho
    refine ⟨h.releasesleep ho hbio fun hc hl => (hsite' hc ho).resolve_left (h.log.not_pending hl),
      fun q hq => ⟨hrely q hq, .rfl, .rfl, id, fun _ => rfl, fun k hk => ?_⟩⟩
    have hkj : k ≠ j := by
      rintro rfl
      exact hq (Option.some.inj (hk.symm.trans ho))
    exact update_of_ne (h.blockno_ne hkj (h.dev_of_owner hk) (h.dev_of_owner ho)) ..
  | unref j =>
    have hrec : s.record site (.unref j) = s := by cases site <;> rfl
    rw [hrec]
    cases he
    refine ⟨h.unref hbio (fun k hk => update_of_ne hk ..) (fun _ => ?_),
      fun q hq => .of_bio (hrely q hq) rfl⟩
    exact List.ne_nil_of_mem hpre.1
  | bpin j => cases site <;> exact hsite.elim
  | bunpin j =>
    have hrec : s.record site (.bunpin j) = { s with unpinned := s.unpinned + 1 } := by
      cases site <;> rfl
    obtain ⟨hc, hup, -, -, b, hj, hb⟩ := sitePre_bunpin.1 hsite
    rw [hrec]
    cases he
    refine ⟨h.bunpin hup (by simp [hc]) hj hb, fun q hq =>
      .of_committer hc hq (hrely q hq) rfl ?_ id rfl⟩
    rw [show s.committer = _ from hc]
    exact fun e => hq (Option.some.inj e).symm

theorem Inv.exec_ok (hsb : 0 < sb.nlog) (h : Inv sb s) {o : KOp A} {r : o.Res} {s' : Kernel A}
    (hg : Proper sb p o s) (hp : Pre sb p o s) (he : exec p o s = .ok (r, s')) :
    Inv sb s' ∧ ∀ q, q ≠ p → Rely q s s' := by
  cases o with
  | bio site o =>
    simp only [exec] at he
    split at he <;> cases he
    rename_i hb
    exact h.bio_ok hsb hg hp hb
  | logWrite i =>
    obtain ⟨⟨ho, hin, hl⟩, hb⟩ := hg
    have hc := h.log.none_of_inOp hin
    have hcq : ∀ q, s.committer ≠ some q := fun q => by simp [hc]
    simp only [exec] at he
    split at he
    · cases he
    · rename_i log hw
      cases he
      obtain ⟨-, -, -, ⟨-, rfl, -⟩ | ⟨-, -, hf⟩⟩ := Log.write_ok hw
      · exact ⟨h.pass _, fun q _ => ⟨.refl q s.bio, .rfl, .rfl, id, fun _ => rfl, fun _ _ => rfl⟩⟩
      · cases hf
    · rename_i log hw
      cases he
      have hcnt : (s.bio.buf i).refcnt + 1 = (s.bio.refs i).length + (s.bio.pins i + 1) := by
        rw [h.bio.refcnt]; omega
      refine ⟨(h.logWrite hc hw (h.dev_of_owner ho) hp ⟨hl, hb⟩).pass _, fun q _ =>
        ⟨(h.bio.pin hcnt).2 q, .rfl, .rfl, id, fun e => absurd e (hcq q), fun _ _ => rfl⟩⟩
  | beginOp =>
    simp only [exec] at he
    split at he <;> cases he
    rename_i hw
    obtain ⟨hc, hI⟩ := h.beginOp hp hg (by simpa using hw)
    refine ⟨hI, fun q hq => ⟨.refl q s.bio, ?_, .rfl, id, fun hcq => ?_, fun _ _ => rfl⟩⟩
    · rw [mem_insert, or_iff_right hq]
    · rw [hc] at hcq; cases hcq
  | endOp =>
    have hc := h.log.none_of_inOp hg
    have hcq : ∀ q, s.committer ≠ some q := fun q => by simp [hc]
    have hin : ∀ q, q ≠ p → (q ∈ s.inOp.erase p ↔ q ∈ s.inOp) := fun q hq => by
      rw [mem_erase, and_iff_right hq]
    simp only [exec] at he
    split at he
    · cases he
    · rename_i log hl
      cases he
      exact ⟨h.endOp hg hl, fun q hq =>
        ⟨.refl q s.bio, hin q hq, .rfl, id, fun e => absurd e (hcq q), fun _ _ => rfl⟩⟩
    · rename_i log hl
      cases he
      refine ⟨h.endOp_commit hg hl, fun q hq => ⟨.refl q s.bio, hin q hq, ?_, id,
        fun e => absurd e (hcq q), fun _ _ => rfl⟩⟩
      exact ⟨fun e => absurd (Option.some.inj e).symm hq, fun e => absurd e (hcq q)⟩
  | commitDone =>
    obtain ⟨hc, hup, hlh, hd, ht⟩ := hp
    cases he
    exact ⟨h.commitDone hc hup hlh hd ht, fun q hq =>
      .of_committer hc hq (.refl q s.bio) rfl (by simp) id rfl⟩
  | initDone =>
    obtain ⟨hc, hup, hlh, hd, ht⟩ := hp
    cases he
    exact ⟨h.initDone hc hup hlh hd ht, fun q hq =>
      .of_committer hc hq (.refl q s.bio) rfl (by simp) (fun _ => rfl) rfl⟩
  | setLh block =>
    obtain ⟨hc, hb, hup⟩ := hp
    cases he
    refine ⟨h.setLh hb hup, fun q hq => .of_committer hc hq (.refl q s.bio) rfl ?_ id rfl⟩
    rw [show s.committer = _ from hc]
    exact fun e => hq (Option.some.inj e).symm
  | lh => cases he; exact ⟨h, fun q _ => .refl q s⟩
  | aux o =>
    simp only [exec] at he
    split at he <;> cases he
    refine ⟨h.of_log rfl ?_ rfl rfl (fun hc j => (h.buf j).atCommit hc) (fun _ _ ho _ _ _ => ho),
      fun q _ => ⟨.refl q s.bio, .rfl, .rfl, id, fun _ => rfl, fun _ _ => rfl⟩⟩
    exact { h.log with }

/-- A process that is between two calls. -/
def Idle (p : Pid) (s : Kernel A) : Prop :=
  s.committer ≠ some p ∧ ∀ i, (s.buf i).owner = some p → (s.buf i).valid

theorem Idle.stable {s' : Kernel A} (hR : Rely p s s') (h : Idle p s) : Idle p s' :=
  ⟨fun e => h.1 (hR.committer.1 e), fun i ho =>
    (hR.bio.held i ((hR.bio.owner i).1 ho)).2.1.trans (h.2 i ((hR.bio.owner i).1 ho))⟩

def outline (sb : Superblock) (hsb : 0 < sb.nlog) : RelyGuarantee (system (A := A) sb) where
  Inv := Inv sb
  Rely := Rely
  Idle := Idle
  Pre := Pre sb
  Tol _ := True
  rely_refl := .refl
  rely_trans := .trans
  idle_stable := Idle.stable
  op_ok hI hg hp he := hI.exec_ok hsb hg hp he
  op_panic _ _ _ _ := trivial
  env_ok h := h.elim

end Kernel

end Xv6
