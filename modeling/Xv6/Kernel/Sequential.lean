import Xv6.Kernel.CommitRun

/-!
# The calls of the file system, run by one process at a time

Between two calls of a process that runs alone, the state of the buffer cache, the log and the disk
is summed up by a `View`: what each block contains and what the disk holds of it, which blocks are
logged, and which buffers the process holds. One rule for each call says how it changes the view. A
`bread` may recycle a buffer; the block it cached then has the contents it has on disk.
-/

namespace Xv6

open Lib Function List

namespace Kernel

variable {A : Aux} {sb : Superblock} {s s' : Kernel A} {p : Pid} {i : BufId} {b : Nat}

structure View (A : Aux) where
  cur : Nat → Block
  disk : Nat → Block
  log : Log
  -- the block numbers passed to `log_write`
  passed : List Nat
  inOp : Finset Pid
  held : BufId → Option Nat
  aux : A.St

/-- No commit is going on in `s`, nobody but `p` holds a buffer, and outside the log `s` is as `v`
says. -/
structure Shows (sb : Superblock) (p : Pid) (v : View A) (s : Kernel A) : Prop where
  inv : Inv sb s
  committer : s.committer = none
  cur : ∀ b, ¬sb.InLog b → s.contents b = v.cur b
  disk : ∀ b, ¬sb.InLog b → s.disk b = v.disk b
  log : s.log = v.log
  passed : s.passed = v.passed
  inOp : s.inOp = v.inOp
  owner : ∀ i, (s.buf i).owner = (v.held i).map fun _ => p
  held : ∀ i b, v.held i = some b → (s.buf i).blockno = b
  valid : ∀ i, (s.buf i).dev = ROOTDEV → (s.buf i).valid
  aux : s.aux = v.aux

/-- The contents after some buffers were recycled, none of which was held or pinned. -/
def View.Evicts (v : View A) (cur : Nat → Block) : Prop :=
  ∀ b, cur b = v.cur b ∨ cur b = v.disk b ∧ b ∉ v.log.block ∧ ∀ i, v.held i ≠ some b

/-! ## Contents -/

theorem contents_of_not_caches (h : ∀ i, ¬s.Caches i b) : s.contents b = s.disk b := by
  unfold contents
  have hn : ((finRange NBUF).find? fun i => s.Caches i b) = none :=
    find?_eq_none.2 fun i _ => by simpa using h i
  rw [hn]

/-- The contents of a block whose copies are as before. -/
theorem Inv.contents_congr (h : Inv sb s) (h' : Inv sb s') (hdisk : s'.disk b = s.disk b)
    (copies : ∀ i, s'.Caches i b ↔ s.Caches i b)
    (data : ∀ i, s.Caches i b → (s'.buf i).data = (s.buf i).data) :
    s'.contents b = s.contents b := by
  by_cases hc : ∃ i, s.Caches i b
  · obtain ⟨i, hi⟩ := hc
    rw [h.contents_of_caches hi, h'.contents_of_caches ((copies i).2 hi), data i hi]
  · have hn : ∀ i, ¬s.Caches i b := fun i hi => hc ⟨i, hi⟩
    rw [contents_of_not_caches hn, contents_of_not_caches fun i hi => hn i ((copies i).1 hi), hdisk]

namespace Shows

variable {v : View A}

theorem up (h : Shows sb p v s) : s.up = true := h.inv.log.up_of_none h.committer

theorem pending (h : Shows sb p v s) : s.pending = v.log.block := by
  rw [h.inv.log.pending_of_none h.committer, h.log]

theorem owner_self (h : Shows sb p v s) (hi : v.held i = some b) : (s.buf i).owner = some p := by
  rw [h.owner, hi]
  rfl

theorem caches (h : Shows sb p v s) (hi : v.held i = some b) : s.Caches i b :=
  ⟨h.inv.dev_of_owner (h.owner_self hi), h.held i b hi⟩

theorem data (h : Shows sb p v s) (hi : v.held i = some b) (hb : ¬sb.InLog b) :
    (s.buf i).data = v.cur b := by
  rw [← h.cur b hb, h.inv.contents_of_caches (h.caches hi)]

end Shows

/-- Process `p`, running `x` alone from a state with view `v`, ends with `Q`, or stops in a
tolerated way. -/
def FsWp (sb : Superblock) (p : Pid) (tol : Option Panic → Prop) (Q : α → View A → Prop)
    (x : Prog (fsIface A) α) (v : View A) : Prop :=
  ∀ s, Shows sb p v s →
    (x.interp (impl sb)).Wp (exec p) tol (fun a s' => ∃ v', Shows sb p v' s' ∧ Q a v') s

namespace FsWp

variable {tol : Option Panic → Prop} {Q : α → View A → Prop} {v : View A}

theorem ret {a : α} (h : Q a v) : FsWp sb p tol Q (.ret a) v := fun _ hs => ⟨v, hs, h⟩

variable {x : Prog (fsIface A) α}

theorem bind {Q' : β → View A → Prop} {f : α → Prog (fsIface A) β}
    (h : FsWp sb p tol Q x v) (hf : ∀ a v', Q a v' → FsWp sb p tol Q' (f a) v') :
    FsWp sb p tol Q' (x.bind f) v := fun s hs => by
  rw [Prog.interp_bind]
  exact (h s hs).bind fun a s' ⟨v', hs', hQ⟩ => hf a v' hQ s' hs'

theorem mono {Q' : α → View A → Prop} (h : FsWp sb p tol Q x v)
    (hQ : ∀ a v', Q a v' → Q' a v') : FsWp sb p tol Q' x v :=
  fun s hs => (h s hs).mono fun _ _ ⟨v', hs', h⟩ => ⟨v', hs', hQ _ _ h⟩

/-! ## The rules of the calls -/

theorem call {o : FsCall A} {k : o.Res → Prog (fsIface A) α}
    {R : Kernel A → o.Res → Kernel A → Prop}
    (run : ∀ s, Shows sb p v s → (impl sb o).Wp (exec p) tol (R s) s)
    (next : ∀ s r s', Shows sb p v s → R s r s' → ∃ v', Shows sb p v' s' ∧
      FsWp sb p tol Q (k r) v') :
    FsWp sb p tol Q (.call o k) v := fun s hs => by
  refine (run s hs).bind fun r s' hR => ?_
  obtain ⟨v', hs', hk⟩ := next s r s' hs hR
  exact hk s' hs'

end FsWp

variable {v : View A} {hsb : 0 < sb.nlog} {tol : Option Panic → Prop}

theorem Shows.ready (h : Shows sb p v s) : Ready p s :=
  ⟨⟨by rw [h.committer]; exact nofun, fun i ho => h.valid i (h.inv.dev_of_owner ho)⟩, h.up⟩

theorem Shows.wp_inv {o : FsCall A} (hsb : 0 < sb.nlog) (h : Shows sb p v s)
    (all : (impl sb o).All OfCommit) :
    (impl sb o).Wp (exec p) (fun _ => True) (fun _ => Inv sb) s := by
  have hsafe : Safe (outline sb hsb) p (fun _ => Ready p) (impl sb o) s := impl_safe o h.ready
  exact (hsafe.wp (J := fun _ => True) h.inv trivial all (fun _ s ho => ho.proper s)
    (fun _ _ _ _ _ _ _ _ _ _ => trivial) trivial fun _ _ _ _ _ => trivial).mono fun _ _ h => h.2.1

theorem Bread.contents (hb : Bread p b s i s') (h : Shows sb p v s) (h' : Inv sb s') {c : Nat}
    (hc : ¬sb.InLog c) : s'.contents c = v.cur c ∨
      s'.contents c = v.disk c ∧ c ∉ v.log.block ∧ ∀ j, v.held j ≠ some c := by
  have hdisk : s'.disk = s.disk := by rw [hb.same]; rfl
  have other : ∀ j c, j ≠ i → (s'.Caches j c ↔ s.Caches j c) := fun j c hj => by
    rw [Caches, Caches, hb.other j hj]
  rcases hb.copy with ⟨hi, -, hdata⟩ | ⟨hdata, ⟨hi, hv⟩ | ⟨hmiss, hunused⟩⟩
  · -- the copy was there
    left
    rw [← h.cur c hc]
    refine h.inv.contents_congr h' (by rw [hdisk]) (fun j => ?_) fun j _ => ?_
    · by_cases hj : j = i
      · subst hj
        rw [Caches, Caches, hb.caches.1, hb.caches.2, hi.1, hi.2]
      · exact other j c hj
    · by_cases hj : j = i
      · subst hj; exact hdata
      · rw [hb.other j hj]
  · rw [h.valid i hi.1] at hv
    cases hv
  · by_cases hcb : c = b
    · subst hcb
      left
      rw [h'.contents_of_caches hb.caches, hdata, ← h.cur c hc, contents_of_not_caches hmiss]
    · by_cases hi : s.Caches i c
      · right
        have hgone : ∀ j, ¬s'.Caches j c := fun j hj => by
          by_cases hji : j = i
          · subst hji
            exact hcb (hj.2.symm.trans hb.caches.2)
          · exact hji (h.inv.eq_of_caches ((other j c hji).1 hj) hi)
        refine ⟨?_, fun hlog => ?_, fun j hj => ?_⟩
        · rw [contents_of_not_caches hgone, hdisk, h.disk c hc]
        · have hpin := h.inv.pins_of_caches (h.pending ▸ hlog) hi
          have hcnt := h.inv.bio.refcnt i
          rw [show (s.bio.buf i).refcnt = 0 from hunused, hpin] at hcnt
          omega
        · obtain rfl := h.inv.eq_of_caches (h.caches hj) hi
          have := h.owner_self hj
          rw [hb.free] at this
          cases this
      · left
        rw [← h.cur c hc]
        refine h.inv.contents_congr h' (by rw [hdisk]) (fun j => ?_) fun j hj => ?_
        · by_cases hji : j = i
          · subst hji
            exact ⟨fun hj => absurd (hj.2.symm.trans hb.caches.2) hcb, fun hj => absurd hj hi⟩
          · exact other j c hji
        · rw [hb.other j fun e => hi (e ▸ hj)]

theorem Bread.shows (hb : Bread p b s i s') (h : Shows sb p v s) (h' : Inv sb s') :
    ∃ cur, v.Evicts cur ∧ v.held i = none ∧
      Shows sb p { v with cur, held := update v.held i (some b) } s' := by
  classical
  have hfree : v.held i = none := by
    have := h.owner i
    rw [hb.free] at this
    simpa using this.symm
  refine ⟨fun c => if sb.InLog c then v.cur c else s'.contents c, fun c => ?_, hfree, ?_⟩
  · by_cases hc : sb.InLog c
    · exact .inl (if_pos hc)
    · simp only [if_neg hc]
      exact hb.contents h h' hc
  · have hsame := hb.same
    refine ⟨h', by rw [hsame]; exact h.committer, fun c hc => by simp only [if_neg hc],
      fun c hc => ?_, by rw [hsame]; exact h.log, by rw [hsame]; exact h.passed,
      by rw [hsame]; exact h.inOp, fun j => ?_,
      fun j c hj => ?_, fun j hd => ?_, by rw [hsame]; exact h.aux⟩
    · rw [← h.disk c hc, hsame]; rfl
    · show (s'.buf j).owner = (update v.held i (some b) j).map fun _ => p
      by_cases hj : j = i
      · subst hj; rw [hb.owner, update_self]; rfl
      · rw [hb.other j hj, h.owner, update_of_ne hj]
    · change update v.held i (some b) j = some c at hj
      by_cases hji : j = i
      · subst hji
        rw [update_self] at hj
        rw [hb.caches.2]
        exact Option.some.inj hj
      · rw [update_of_ne hji] at hj
        rw [hb.other j hji]
        exact h.held j c hj
    · by_cases hj : j = i
      · subst hj; exact hb.valid
      · rw [hb.other j hj] at hd ⊢; exact h.valid j hd

namespace FsWp

variable {Q : α → View A → Prop}

theorem bread {k : BufId → Prog (fsIface A) α} (hsb : 0 < sb.nlog) (hheld : ∀ i, v.held i ≠ some b)
    (noBuffers : tol (some .bgetNoBuffers))
    (next : ∀ i cur, v.held i = none → v.Evicts cur →
      FsWp sb p tol Q (k i) { v with cur, held := update v.held i (some b) }) :
    FsWp sb p tol Q (.call (.bread ROOTDEV b) k) v := by
  refine call (R := fun s i s' => Bread p b s i s' ∧ Inv sb s') (fun s h => ?_) ?_
  · have hrun :
        (Kernel.bread .client ROOTDEV b).Wp (exec p) tol (fun i s' => Bread p b s i s') s := by
      rw [← Prog.bind_ret (Kernel.bread .client ROOTDEV b)]
      refine bread_wp h.inv.bio.wf (fun j hj ho => ?_) noBuffers fun i s' hb => hb
      rw [h.owner] at ho
      obtain ⟨c, hc⟩ := Option.ne_none_iff_exists'.1 fun e : v.held j = none => ho (by rw [e]; rfl)
      rcases hj with hj | hj
      · rw [← hj.2, h.held j c hc] at hheld
        exact absurd hc (hheld j)
      · have hcnt := h.inv.bio.refcnt j
        have := length_pos_of_mem (h.inv.bio.owner j p (h.owner_self hc))
        rw [show (s.bio.buf j).refcnt = 0 from hj] at hcnt
        omega
    exact hrun.and (h.wp_inv (o := .bread ROOTDEV b) hsb bread_all)
  · rintro s i s' h ⟨hb, h'⟩
    obtain ⟨cur, hcur, hfree, hs'⟩ := hb.shows h h'
    exact ⟨_, hs', next i cur hfree hcur⟩

theorem brelse {k : Unit → Prog (fsIface A) α} (hsb : 0 < sb.nlog) (hi : v.held i = some b)
    (next : FsWp sb p tol Q (k ()) { v with held := update v.held i none }) :
    FsWp sb p tol Q (.call (.brelse i) k) v := by
  refine call (R := fun s _ s' => Brelse s i s' ∧ Inv sb s') (fun s h => ?_) ?_
  · have hrun : (Kernel.brelse .client i).Wp (exec p) tol (fun _ s' => Brelse s i s') s := by
      rw [← Prog.bind_ret (Kernel.brelse .client i)]
      exact brelse_wp h.inv.bio.wf (h.owner_self hi) fun s' hb => hb
    exact hrun.and (h.wp_inv (o := .brelse i) hsb brelse_all)
  · rintro s _ s' h ⟨hb, h'⟩
    refine ⟨_, ?_, next⟩
    obtain ⟨n, hself⟩ := hb.self
    have hsame := hb.same
    have hdisk : s'.disk = s.disk := by rw [hsame]; rfl
    have same : ∀ j, (s'.buf j).dev = (s.buf j).dev ∧ (s'.buf j).blockno = (s.buf j).blockno ∧
        (s'.buf j).valid = (s.buf j).valid ∧ (s'.buf j).data = (s.buf j).data := fun j => by
      by_cases hj : j = i
      · subst hj; rw [hself]; exact ⟨rfl, rfl, rfl, rfl⟩
      · rw [hb.other j hj]; exact ⟨rfl, rfl, rfl, rfl⟩
    refine ⟨h', by rw [hsame]; exact h.committer, fun c hc => ?_, fun c hc => ?_,
      by rw [hsame]; exact h.log, by rw [hsame]; exact h.passed, by rw [hsame]; exact h.inOp,
      fun j => ?_, fun j c hj => ?_,
      fun j hd => ?_, by rw [hsame]; exact h.aux⟩
    · rw [← h.cur c hc]
      refine h.inv.contents_congr h' (by rw [hdisk]) (fun j => ?_) fun j _ => (same j).2.2.2
      rw [Caches, Caches, (same j).1, (same j).2.1]
    · rw [hdisk]; exact h.disk c hc
    · show (s'.buf j).owner = (update v.held i none j).map fun _ => p
      by_cases hj : j = i
      · subst hj; rw [hself, update_self]; rfl
      · rw [hb.other j hj, h.owner, update_of_ne hj]
    · change update v.held i none j = some c at hj
      by_cases hji : j = i
      · subst hji
        rw [update_self] at hj
        cases hj
      · rw [update_of_ne hji] at hj
        rw [(same j).2.1]
        exact h.held j c hj
    · rw [(same j).2.2.1]
      exact h.valid j ((same j).1.symm.trans hd)

theorem data {k : Block → Prog (fsIface A) α} (hi : v.held i = some b) (hb : ¬sb.InLog b)
    (next : FsWp sb p tol Q (k (v.cur b)) v) : FsWp sb p tol Q (.call (.data i) k) v := by
  refine call (R := fun s r s' => r = (s.buf i).data ∧ s' = s) (fun s h => ⟨rfl, rfl⟩) ?_
  rintro s r s' h ⟨rfl, rfl⟩
  refine ⟨v, h, ?_⟩
  rw [h.data hi hb]
  exact next

end FsWp

theorem Shows.setData {d : Block} (h : Shows sb p v s) (hi : v.held i = some b) (hb : ¬sb.InLog b) :
    Shows sb p { v with cur := update v.cur b d }
      { s with bio := s.bio.set i { s.buf i with data := d } } := by
  have ho := h.owner_self hi
  have hself : Bio.buf (s.bio.set i { s.buf i with data := d }) i = { s.buf i with data := d } :=
    Bio.buf_set_self ..
  have hother : ∀ j, j ≠ i → Bio.buf (s.bio.set i { s.buf i with data := d }) j = s.buf j :=
    fun j hj => Bio.buf_set_of_ne _ hj _
  have same : ∀ j, (Bio.buf (s.bio.set i { s.buf i with data := d }) j).dev = (s.buf j).dev ∧
      (Bio.buf (s.bio.set i { s.buf i with data := d }) j).blockno = (s.buf j).blockno ∧
      (Bio.buf (s.bio.set i { s.buf i with data := d }) j).valid = (s.buf j).valid ∧
      (Bio.buf (s.bio.set i { s.buf i with data := d }) j).owner = (s.buf j).owner := fun j => by
    by_cases hj : j = i
    · subst hj; rw [hself]; exact ⟨rfl, rfl, rfl, rfl⟩
    · rw [hother j hj]; exact ⟨rfl, rfl, rfl, rfl⟩
  have hbio : (s.bio.set i { s.buf i with data := d }).Inv :=
    h.inv.bio.set rfl rfl rfl (h.inv.bio.owner i)
  have hinv : Inv sb { s with bio := s.bio.set i { s.buf i with data := d } } := by
    refine h.inv.setData ho hbio (fun hc => absurd h.committer hc) fun hl => ?_
    rw [h.held i b hi] at hl
    exact absurd hl hb
  refine ⟨hinv, h.committer, fun c hc => ?_, h.disk, h.log, h.passed, h.inOp, fun j => ?_,
    fun j c hj => ?_, fun j hd => ?_, h.aux⟩
  · show _ = update v.cur b d c
    by_cases hcb : c = b
    · subst hcb
      have hcopy : Caches { s with bio := s.bio.set i { s.buf i with data := d } } i c := by
        rw [Caches, Kernel.buf, hself]
        exact h.caches hi
      rw [hinv.contents_of_caches hcopy, update_self, Kernel.buf, hself]
    · rw [update_of_ne hcb, ← h.cur c hc]
      refine h.inv.contents_congr hinv rfl (fun j => ?_) fun j hj => ?_
      · rw [Caches, Caches, Kernel.buf, (same j).1, (same j).2.1]
      · rw [Kernel.buf, hother j]
        rintro rfl
        exact hcb (hj.2.symm.trans (h.held j b hi))
  · exact (same j).2.2.2.trans (h.owner j)
  · exact (same j).2.1.trans (h.held j c hj)
  · exact (same j).2.2.1.trans (h.valid j ((same j).1.symm.trans hd))

variable {log : Log}

/-- After a change to the log and to reference counts. -/
theorem Shows.of_refcnt (h : Shows sb p v s) (hinv : Inv sb s') {passed : List Nat}
    {inOp : Finset Pid} (hlog : s'.log = log) (hpassed : s'.passed = passed)
    (hinOp : s'.inOp = inOp) (hc : s'.committer = s.committer)
    (hdisk : s'.disk = s.disk) (haux : s'.aux = s.aux)
    (buf : ∀ j, ∃ n, s'.buf j = { s.buf j with refcnt := n }) :
    Shows sb p { v with log, passed, inOp } s' := by
  refine ⟨hinv, hc.trans h.committer, fun c hc => ?_, fun c hc => ?_, hlog, hpassed, hinOp,
    fun j => ?_, fun j c hj => ?_, fun j hd => ?_, haux.trans h.aux⟩
  · rw [← h.cur c hc]
    refine h.inv.contents_congr hinv (by rw [hdisk]) (fun j => ?_) fun j _ => ?_
    · obtain ⟨n, hn⟩ := buf j
      rw [Caches, Caches, hn]
    · obtain ⟨n, hn⟩ := buf j
      rw [hn]
  · rw [hdisk]; exact h.disk c hc
  · obtain ⟨n, hn⟩ := buf j
    rw [hn]; exact h.owner j
  · obtain ⟨n, hn⟩ := buf j
    rw [hn]; exact h.held j c hj
  · obtain ⟨n, hn⟩ := buf j
    rw [hn] at hd ⊢
    exact h.valid j hd

namespace FsWp

variable {Q : α → View A → Prop}

variable {k : Unit → Prog (fsIface A) α} {d : Block}

theorem setData (hi : v.held i = some b)
    (hb : ¬sb.InLog b) (next : FsWp sb p tol Q (k ()) { v with cur := update v.cur b d }) :
    FsWp sb p tol Q (.call (.setData i d) k) v := by
  refine call (R := fun s _ s' => s' = { s with bio := s.bio.set i { s.buf i with data := d } })
    (fun s h => rfl) ?_
  rintro s _ s' h rfl
  exact ⟨_, h.setData hi hb, next⟩

theorem copyin {ok : Bool} (hi : v.held i = some b)
    (hb : ¬sb.InLog b) (next : FsWp sb p tol Q (k ()) { v with cur := update v.cur b d }) :
    FsWp sb p tol Q (.call (.copyin ok i d) k) v := by
  refine call (R := fun s _ s' => s' = { s with bio := s.bio.set i { s.buf i with data := d } })
    (fun s h => rfl) ?_
  rintro s _ s' h rfl
  exact ⟨_, h.setData hi hb, next⟩

theorem aux {o : A.iface.Op} {k : A.iface.Res o → Prog (fsIface A) α}
    (ok : ∀ r x, A.exec p o v.aux = .ok (r, x) → FsWp sb p tol Q (k r) { v with aux := x })
    (waits : A.exec p o v.aux = .blocked → tol none)
    (panic : ∀ e, A.exec p o v.aux = .panic e → tol (some e)) :
    FsWp sb p tol Q (.call (.aux o) k) v := by
  refine call (R := fun s r s' => ∃ x, A.exec p o s.aux = .ok (r, x) ∧ s' = { s with aux := x })
    (fun s h => ?_) ?_
  · rw [← h.aux] at waits panic
    refine .call (fun r s' he => ?_) (fun he => ?_) fun e he => ?_
    · change exec p (.aux o) s = .ok (r, s') at he
      simp only [exec] at he
      split at he <;> cases he
      exact ⟨_, ‹_›, rfl⟩
    · change exec p (.aux o) s = .blocked at he
      simp only [exec] at he
      split at he <;> cases he
      exact waits ‹_›
    · change exec p (.aux o) s = .panic e at he
      simp only [exec] at he
      split at he <;> cases he
      exact panic _ ‹_›
  · rintro s r s' h ⟨x, hx, rfl⟩
    rw [h.aux] at hx
    refine ⟨_, ?_, ok r x hx⟩
    have hinv : Inv sb { s with aux := x } :=
      h.inv.of_log rfl { h.inv.log with } rfl rfl (fun hc j => (h.inv.buf j).atCommit hc)
        fun _ _ ho _ _ _ => ho
    exact { h with inv := hinv, aux := rfl }

end FsWp

theorem Shows.logWrite {new : Bool} (h : Shows sb p v s) (hi : v.held i = some b)
    (hb : ¬sb.InLog b) (hb' : b < 2 ^ 32) (hw : s.log.write (s.buf i).blockno = .ok (log, new))
    (he : exec p (.logWrite i) s = .ok ((), s')) :
    Shows sb p { v with log := v.log.add b, passed := v.passed ++ [b] } s' := by
  have hblock := h.held i b hi
  simp only [exec, hw] at he
  obtain ⟨-, -, -, ⟨hmem, rfl, rfl⟩ | ⟨hnew, rfl, rfl⟩⟩ := Log.write_ok hw
  · cases he
    refine h.of_refcnt (v := v) (h.inv.pass _) ?_ (by rw [h.passed, hblock]) h.inOp rfl rfl rfl
      fun j => ⟨_, rfl⟩
    rw [h.log, hblock] at hmem
    rw [Log.add, if_pos hmem, h.log]
  · cases he
    have hdev := h.inv.dev_of_owner (h.owner_self hi)
    refine h.of_refcnt (v := v) ?_ ?_ (by rw [h.passed, hblock]) h.inOp rfl rfl rfl fun j => ?_
    · exact (h.inv.logWrite h.committer hw hdev (h.valid i hdev)
        (by rw [hblock]; exact ⟨hb, hb'⟩)).pass _
    · rw [h.log, hblock] at hnew
      rw [Log.add, if_neg hnew, h.log, hblock]
    · by_cases hj : j = i
      · subst hj; exact ⟨_, Bcache.buf_set_self ..⟩
      · exact ⟨(s.buf j).refcnt, Bcache.buf_set_of_ne _ hj _⟩

namespace FsWp

variable {Q : α → View A → Prop}

theorem logWrite {k : Unit → Prog (fsIface A) α} (hi : v.held i = some b) (hb : ¬sb.InLog b)
    (hb' : b < 2 ^ 32) (ho : 1 ≤ v.log.outstanding) (tooBig : tol (some .tooBigTransaction))
    (next : FsWp sb p tol Q (k ()) { v with log := v.log.add b, passed := v.passed ++ [b] }) :
    FsWp sb p tol Q (.call (.logWrite i) k) v := by
  refine call (R := fun s _ s' => ∃ log new, s.log.write (s.buf i).blockno = .ok (log, new) ∧
    exec p (.logWrite i) s = .ok ((), s')) (fun s h => ?_) ?_
  · refine .call (fun _ s' he => ?_) (fun he => ?_) fun e he => ?_
    · change exec p (.logWrite i) s = .ok (_, s') at he
      have he' := he
      simp only [exec] at he
      split at he <;> cases he
      · exact ⟨_, _, ‹_›, he'⟩
      · exact ⟨_, _, ‹_›, he'⟩
    · change exec p (.logWrite i) s = .blocked at he
      simp only [exec] at he
      split at he <;> cases he
    · change exec p (.logWrite i) s = .panic e at he
      simp only [exec] at he
      split at he <;> cases he
      rename_i hw
      rcases Log.write_error hw with rfl | ⟨rfl, hout⟩
      · exact tooBig
      · rw [h.log] at hout
        omega
  · rintro s _ s' h ⟨log, new, hw, he⟩
    exact ⟨_, h.logWrite hi hb hb' hw he, next⟩

end FsWp

-- from here on only the rules are used
attribute [irreducible] FsWp

end Kernel

end Xv6
