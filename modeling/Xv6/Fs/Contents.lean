import Xv6.Fs.Bmap

/-!
# Writing files

What `writei` and `iupdate` do. The loop of `writei` has a rule of its own: an invariant that
every round keeps holds when the loop ends.
-/

namespace Xv6

open Lib Kernel Function

namespace Fs

variable {sb : Superblock} {p : Pid} {v v' : FsView} {out : Set Nat} {D D' : Nat →
  Dinode} {E : Set Nat}
  {b c n bn : Nat} {ip : IId} {tol : Option Panic → Prop} {α : Type} {Q : α → FsView → Prop}

/-- The block of a file is neither metadata nor an indirect block. -/
theorem Holds.not_vital (h : Holds sb out v D E ip n)
    (hb : ref sb v.cur D (n, slotOf bn) = some b) :
    ¬Vital sb D b := by
  rintro (hmeta | ⟨m, hm, hlast, hne⟩)
  · exact h.image.owns.ref_reserved hb hmeta.2
  · subst hlast
    have := h.image.owns.inj hb (Image.ref_indirect hm hne)
    exact slotOf_ne_last bn (Prod.mk.inj this).2

theorem Holds.lt_size (h : Holds sb out v D E ip n) {q : Nat × Slot}
    (hb : ref sb v.cur D q = some b) :
    b < sb.size ∧ sb.nmeta ≤ b :=
  ⟨(h.image.owns.used_of_ref hb).1, not_lt.1 (h.image.owns.ref_reserved hb)⟩

theorem iupdate_wp (hsb : sb.Wf) (h : Holds sb out v D E ip n) (hheld : ∀ i, v.held i = none)
    (ho : 1 ≤ v.log.outstanding) :
    FsWp sb p Halts (fun _ v' => Image sb (out \ {n}) v' D E ∧ Moves {sb.iblock n} ∅ v v' ∧
      v'.held = v.held ∧ v'.aux = v.aux) (iupdate sb ip) v := by
  have hlog := hsb.iblock_not_inLog h.lt
  have hlt : sb.iblock n < 2 ^ 32 := by
    have := hsb.iblock_lt h.lt
    have := hsb.data
    exact hsb.lt_of_lt_size (by omega)
  refine aux_wp rfl ?_
  rw [h.inum, h.dino]
  refine bread_wp hsb h.dev (fun i => by rw [hheld]; exact nofun) (.inl rfl) fun i cur hi hcur => ?_
  refine data_wp (update_self ..) hlog fun d hd => ?_
  refine .setData (update_self ..) hlog ?_
  refine .logWrite (update_self ..) hlog hlt ho (.inr (.inl rfl)) ?_
  refine .brelse hsb.nlog (update_self ..) (.ret ?_)
  have hd' : d = v.cur (sb.iblock n) :=
    hd.trans (Evicts.keep hcur (h.image.clean _ (Image.vital_iblock hsb h.lt)))
  subst hd'
  refine ⟨h.image.update hsb h.lt (.rewrite hcur _) ?_, .rewrite hcur _, release hi, rfl⟩
  exact update_self ..

/-! ## `writei` -/

/-- The bytes that `either_copyin` moves, and whether it gets to the end. -/
def delivered (a : FsSt) (p : Pid) : Src → Nat → Bool × List UInt8
  | .user va, m => (a.mem p).copyin m va m
  | .kernel bs, m => (true, bs.take m)

variable {src : Src}

theorem eitherCopyin_wp {m : Nat} {f : Bool × List UInt8 → FsProg α}
    (next : ∀ r, r = delivered v.aux p src m → FsWp sb p tol Q (f r) v) :
    FsWp sb p tol Q ((eitherCopyin src m).bind f) v := by
  cases src with
  | user va => exact aux_wp rfl (next _ rfl)
  | kernel bs => exact next _ rfl

/-- A part of block `b` was overwritten. If `copyin` failed, the change is not logged. -/
structure Put (b o : Nat) (ok : Bool) (bs : List UInt8) (v v' : FsView) : Prop where
  moves : Moves {c | ok = true ∧ c = b} {c | ok = false ∧ c = b} v v'
  cur : Clean v b → v'.cur b = (v.cur b).splice o bs
  held : v'.held = v.held
  aux : v'.aux = v.aux

variable {cur : Nat → Block} {held : BufId → Option Nat} {o : Nat} {bs : List UInt8}

theorem Put.logged
    (hcur : v.Evicts cur) (hheld : held = v.held) :
    Put b o true bs v { v with
      cur := update cur b ((cur b).splice o bs)
      log := v.log.add b
      passed := v.passed ++ [b]
      held } where
  moves := (Moves.rewrite hcur held).mono (fun _ hc => ⟨rfl, hc⟩) (Set.empty_subset _)
  cur hc := by
    show update cur b _ b = _
    rw [update_self, Evicts.keep hcur hc]
  held := hheld
  aux := rfl

theorem Put.failed
    (hcur : v.Evicts cur) (hheld : held = v.held) :
    Put b o false bs v { v with cur := update cur b ((cur b).splice o bs), held } where
  moves := by
    have hkeep : ∀ c, c ∉ {c | false = false ∧ c = b} → Clean v c →
        update cur b ((cur b).splice o bs) c = v.cur c := fun c hc hclean => by
      rw [update_of_ne fun e => hc ⟨rfl, e⟩]
      exact Evicts.keep hcur hclean
    exact ⟨rfl, rfl, rfl, fun _ => id, ⟨[], (List.append_nil _).symm, nofun⟩,
      fun c hc hclean => .inl (hkeep c hc hclean), fun c _ hc hclean => hkeep c hc hclean⟩
  cur hc := by
    show update cur b _ b = _
    rw [update_self, Evicts.keep hcur hc]
  held := hheld
  aux := rfl

variable {ok : Bool}

theorem Put.holds (hsb : sb.Wf) (h : Holds sb out v D E ip n)
    (hb : ref sb v.cur D (n, slotOf bn) = some b) (hp : Put b o ok bs v v') :
    Holds sb out v' D E ip n := by
  have hv := h.not_vital hb
  refine h.of_image (h.image.of_moves hsb hp.moves (fun c hc hmem => ?_) fun c hc hmem => ?_) hp.aux
  · exact hv (hmem.2 ▸ hc)
  · exact hv (hmem.2 ▸ hc)

/-- The references after a part of a file block was overwritten. -/
theorem Put.ref_eq (h : Holds sb out v D E ip n)
    (hb : ref sb v.cur D (n, slotOf bn) = some b) (hp : Put b o ok bs v v') :
    ref sb v'.cur D = ref sb v.cur D :=
  h.image.ref_eq hp.moves fun m hm hne => by
    have hv := h.not_vital hb
    refine ⟨fun hmem => hv ?_, fun hmem => hv ?_⟩
    · exact .inr ⟨m, hm, hmem.2, hmem.2 ▸ hne⟩
    · exact .inr ⟨m, hm, hmem.2, hmem.2 ▸ hne⟩

/-- The number of bytes of one round of `writei`. -/
def chunk (N tot off : Nat) : Nat := min (N - tot) (BSIZE - off % BSIZE)

variable {N tot off : Nat}

theorem writeiLoop_wp {J : Nat → Nat → Src → FsView → (Nat → Dinode) → Prop}
    {R : Nat × Nat → FsView → (Nat → Dinode) → Prop} (hsb : sb.Wf)
    (next : ∀ {tot off src v D b v₁ D₁ v₂ bs}, J tot off src v D → tot < N →
      Bmapped sb out E ip n (off / BSIZE) v D b v₁ D₁ →
      delivered v.aux p src (chunk N tot off) = (true, bs) →
      Put b (off % BSIZE) true bs v₁ v₂ →
      J (tot + chunk N tot off) (off + chunk N tot off) (src.drop (chunk N tot off)) v₂ D₁)
    (fail : ∀ {tot off src v D b v₁ D₁ v₂ bs}, J tot off src v D → tot < N →
      Bmapped sb out E ip n (off / BSIZE) v D b v₁ D₁ →
      delivered v.aux p src (chunk N tot off) = (false, bs) →
      Put b (off % BSIZE) false bs v₁ v₂ → R (tot, off) v₂ D₁)
    (done : ∀ {tot off src v D}, J tot off src v D → N ≤ tot → R (tot, off) v D)
    {fuel : Nat} (hJ : J tot off src v D) (h : Holds sb out v D E ip n)
    (hheld : ∀ i, v.held i = none) (ho : 1 ≤ v.log.outstanding) (hfuel : N - tot ≤ fuel)
    (hoff : off + (N - tot) ≤ MAXFILE * BSIZE) :
    FsWp sb p Halts (fun r v' => ∃ D', Holds sb out v' D' E ip n ∧ (∀ i, v'.held i = none) ∧
      1 ≤ v'.log.outstanding ∧ R r v' D') (writeiLoop sb ip N fuel tot off src) v := by
  induction fuel generalizing tot off src v D with
  | zero => exact .ret ⟨D, h, hheld, ho, done hJ (by omega)⟩
  | succ fuel ih =>
    refine ite_wp (fun htot => ?_) fun htot => .ret ⟨D, h, hheld, ho, done hJ (not_lt.1 htot)⟩
    have hpos : 0 < chunk N tot off ∧ chunk N tot off ≤ N - tot := by
      have : off % BSIZE < BSIZE := Nat.mod_lt _ (by decide)
      unfold chunk
      omega
    have hbn : off / BSIZE < MAXFILE := by
      rw [Nat.div_lt_iff_lt_mul (by decide)]
      omega
    refine (bmap_wp hsb h hheld hbn fun _ => ho).bind fun b v₁ ⟨D₁, hb⟩ => ?_
    have hheld₁ : ∀ i, v₁.held i = none := fun i => by rw [hb.grown.held, hheld]
    have ho₁ : 1 ≤ v₁.log.outstanding := by
      rw [hb.grown.moves.outstanding]
      exact ho
    obtain ⟨hsize, hdata⟩ := hb.holds.lt_size hb.block
    have hlog := hsb.data_not_inLog hdata
    have hmem : ∀ m, delivered v₁.aux p src m = delivered v.aux p src m := fun m => by
      rw [hb.grown.aux]
      cases src <;> rfl
    refine aux_wp rfl ?_
    refine bread_wp hsb hb.holds.dev (fun i => by rw [hheld₁]; exact nofun) (.inl rfl)
      fun i cur hi hcur => ?_
    refine eitherCopyin_wp fun r hr => ?_
    obtain ⟨ok, bs⟩ := r
    have hr' : delivered v.aux p src (chunk N tot off) = (ok, bs) := (hmem _).symm.trans hr.symm
    refine data_wp (update_self ..) hlog fun d hd => ?_
    refine .copyin (update_self ..) hlog ?_
    refine ite_wp (fun hok => ?_) fun hok => ?_
    · obtain rfl : ok = false := by simpa using hok
      subst hd
      have hput : Put b (off % BSIZE) false bs v₁ _ := .failed hcur (release (b := b) hi)
      refine .brelse hsb.nlog (update_self ..) (.ret ⟨D₁, ?_, ?_, ?_, fail hJ htot hb hr' hput⟩)
      · exact hput.holds hsb hb.holds hb.block
      · intro k
        rw [hput.held, hheld₁]
      · exact ho₁
    · obtain rfl : ok = true := by simpa using hok
      subst hd
      have hput : Put b (off % BSIZE) true bs v₁ _ := .logged hcur (release (b := b) hi)
      refine .logWrite (update_self ..) hlog (hsb.lt_of_lt_size hsize) ho₁ (.inr (.inl rfl)) ?_
      refine .brelse hsb.nlog (update_self ..) ?_
      refine ih (next hJ htot hb hr' hput) (hput.holds hsb hb.holds hb.block) (fun k => ?_) ?_ ?_ ?_
      · rw [hput.held, hheld₁]
      · rw [hput.moves.outstanding]
        exact ho₁
      · change N - (tot + chunk N tot off) ≤ fuel
        omega
      · change off + chunk N tot off + (N - (tot + chunk N tot off)) ≤ _
        omega

/-- The indexes of the blocks that hold the bytes from `off` to `off + len`. -/
def span (off len : Nat) : Set Nat := {bn | ∃ j, off ≤ j ∧ j < off + len ∧ j / BSIZE = bn}

theorem span_mono (off : Nat) {len len' : Nat} (h : len ≤ len') : span off len ⊆ span off len' :=
  fun _ ⟨j, hj, hlt, he⟩ => ⟨j, hj, by omega, he⟩

theorem span_chunk (off : Nat) (h : tot < N) :
    span off (tot + chunk N tot (off + tot)) = span off tot ∪ {(off + tot) / BSIZE} := by
  have hmod := Nat.mod_lt (off + tot) (show 0 < BSIZE by decide)
  have hdiv := Nat.div_add_mod (off + tot) BSIZE
  ext bn
  constructor
  · rintro ⟨j, hj, hlt, rfl⟩
    by_cases hjt : j < off + tot
    · exact .inl ⟨j, hj, hjt, rfl⟩
    · right
      refine Set.mem_singleton_iff.2 ?_
      unfold chunk at hlt
      rw [Nat.div_eq_iff (by decide)]
      constructor
      · rw [Nat.mul_comm]; omega
      · rw [Nat.mul_comm]; omega
  · rintro (⟨j, hj, hlt, rfl⟩ | he)
    · exact ⟨j, hj, by omega, rfl⟩
    · refine ⟨off + tot, by omega, ?_, he.symm⟩
      unfold chunk
      omega

variable {K K' S S' : Set Nat}

theorem writeSet_mono (hK : K ⊆ K') (r r' : Slot → Option Nat) :
    writeSet sb K r r' ⊆ writeSet sb K' r r' := by
  rintro c (⟨bn, hbn, hc⟩ | hc)
  · exact .inl ⟨bn, hK hbn, hc⟩
  · exact .inr hc

theorem Grown.mono (h : Grown sb ip n K S v D v' D') (hK : K ⊆ K') (hS : S ⊆ S') :
    Grown sb ip n K' S' v D v' D' where
  others := h.others
  fields := h.fields
  kept := h.kept
  only hq := (h.only hq).imp_right fun ⟨hnone, hn, hq⟩ =>
    ⟨hnone, hn, hq.imp_right fun ⟨bn, hbn, e⟩ => ⟨bn, hK hbn, e⟩⟩
  moves := h.moves.mono (writeSet_mono hK _ _) hS
  held := h.held
  aux := h.aux

theorem Put.grown (h : Holds sb out v D E ip n)
    (hb : ref sb v.cur D (n, slotOf bn) = some b) (hp : Put b o ok bs v v') :
    Grown sb ip n {bn} {c | ok = false ∧ c = b} v D v' D where
  others _ _ := rfl
  fields := rfl
  kept hq := by rwa [hp.ref_eq h hb]
  only hq := by
    rw [hp.ref_eq h hb] at hq
    exact .inl hq
  moves := by
    refine hp.moves.mono (fun c hc => .inl ⟨bn, rfl, b, ?_, .inl hc.2⟩) subset_rfl
    rw [refsOf, hp.ref_eq h hb, hb]
  held := hp.held
  aux := by rw [hp.aux, ← h.dino, withDino_self]

/-- What the loop of `writei` does when it has copied `tot` of `N` bytes. If it stopped early, the
blocks in `S` are changed and not logged. -/
structure Copied (sb : Superblock) (ip : IId) (n off N : Nat) (S : Set Nat) (v : FsView)
    (D : Nat → Dinode) (tot : Nat) (v' : FsView) (D' : Nat → Dinode) : Prop where
  le : tot ≤ N
  full : tot = N → S = ∅
  inside : ∀ c ∈ S, ∃ bn ∈ span off N, ref sb v'.cur D' (n, slotOf bn) = some c
  mapped : ∀ bn ∈ span off tot, ref sb v'.cur D' (n, slotOf bn) ≠ none
  grown : Grown sb ip n (span off N) S v D v' D'

theorem writeiLoop_copied (hsb : sb.Wf) (h : Holds sb out v D E ip n)
    (hheld : ∀ i, v.held i = none) (ho : 1 ≤ v.log.outstanding) (hoff : off + N ≤ MAXFILE * BSIZE) :
    FsWp sb p Halts (fun r v' => ∃ D', Holds sb out v' D' E ip n ∧ (∀ i, v'.held i = none) ∧
      1 ≤ v'.log.outstanding ∧ r.2 = off + r.1 ∧ ∃ S, Copied sb ip n off N S v D r.1 v' D')
      (writeiLoop sb ip N N 0 off src) v := by
  refine writeiLoop_wp (R := fun r v' D' => r.2 = off + r.1 ∧
    ∃ S, Copied sb ip n off N S v D r.1 v' D')
    (J := fun tot o _ w D₁ => o = off + tot ∧ tot ≤ N ∧
      (∀ bn ∈ span off tot, ref sb w.cur D₁ (n, slotOf bn) ≠ none) ∧
      Grown sb ip n (span off tot) ∅ v D w D₁)
    hsb ?next ?fail ?done ⟨rfl, Nat.zero_le N, ?_, ?_⟩ h hheld ho (by omega) (by omega)
  case next =>
    rintro tot _ src w D₀ b v₁ D₁ v₂ bs ⟨rfl, hle, hmapped, hg⟩ htot hb - hput
    have hspan := span_chunk off htot
    refine ⟨by omega, by unfold chunk; omega, fun bn hbn => ?_, ?_⟩
    · rw [hput.ref_eq hb.holds hb.block]
      rw [hspan] at hbn
      rcases hbn with hbn | rfl
      · obtain ⟨c, hc⟩ := Option.ne_none_iff_exists'.1 (hmapped bn hbn)
        rw [hb.grown.kept hc]
        exact nofun
      · rw [hb.block]
        exact nofun
    · rw [hspan]
      have := (hg.trans hb.grown).trans (hput.grown hb.holds hb.block)
      refine this.mono ?_ ?_
      · rw [Set.union_assoc, Set.union_self]
      · rintro c ((hc | hc) | hc)
        · exact hc
        · exact hc
        · cases hc.1
  case fail =>
    rintro tot _ src w D₀ b v₁ D₁ v₂ bs ⟨rfl, hle, hmapped, hg⟩ htot hb - hput
    have hmem : (off + tot) / BSIZE ∈ span off N := ⟨off + tot, by omega, by omega, rfl⟩
    have hr := hput.ref_eq hb.holds hb.block
    refine ⟨rfl, {c | c = b}, hle, fun e => absurd e htot.ne, fun c hc => ⟨_, hmem, ?_⟩,
      fun bn hbn => ?_, ?_⟩
    · rw [hr, hb.block, show c = b from hc]
    · obtain ⟨c, hc⟩ := Option.ne_none_iff_exists'.1 (hmapped bn hbn)
      rw [hr, hb.grown.kept hc]
      exact nofun
    · refine ((hg.trans hb.grown).trans (hput.grown hb.holds hb.block)).mono ?_ ?_
      · rintro bn ((hbn | rfl) | rfl)
        · exact span_mono off hle hbn
        · exact hmem
        · exact hmem
      · rintro c ((hc | hc) | hc)
        · exact hc.elim
        · exact hc.elim
        · exact hc.2
  case done =>
    rintro tot _ src w D₁ ⟨rfl, hle, hmapped, hg⟩ htot
    obtain rfl : tot = N := by omega
    exact ⟨rfl, ∅, le_rfl, fun _ => rfl, fun c hc => hc.elim, hmapped, hg⟩
  · rintro bn ⟨j, hj, hlt, -⟩
    omega
  · exact (Grown.refl h).mono (Set.empty_subset _) subset_rfl

/-- What `writei` does once the offset is accepted. -/
structure Written (sb : Superblock) (out E : Set Nat) (ip : IId) (n off N : Nat)
    (S : Set Nat) (v : FsView)
    (D : Nat → Dinode) (tot : Nat) (v' : FsView) (D' : Nat → Dinode) : Prop where
  le : tot ≤ N
  full : tot = N → S = ∅
  inside : ∀ c ∈ S, ∃ bn ∈ span off N, ref sb v'.cur D' (n, slotOf bn) = some c
  mapped : ∀ bn ∈ span off tot, ref sb v'.cur D' (n, slotOf bn) ≠ none
  image : Image sb (out \ {n}) v' D' E
  others : ∀ m, m ≠ n → D' m = D m
  fields : D' n = { D n with size := max (D n).size (off + tot), addrs := (D' n).addrs }
  kept : ∀ {q c}, ref sb v.cur D q = some c → ref sb v'.cur D' q = some c
  only : ∀ {q c}, ref sb v'.cur D' q = some c → ref sb v.cur D q = some c ∨
    ref sb v.cur D q = none ∧ q.1 = n ∧
      (q.2 = .addr (Fin.last NDIRECT) ∨ ∃ bn ∈ span off N, q.2 = slotOf bn)
  moves : Moves (writeSet sb (span off N) (refsOf sb v D n) (refsOf sb v' D' n) ∪
    {sb.iblock n}) S v v'
  held : v'.held = v.held
  aux : v'.aux = withDino v.aux ip (D' n)

theorem Copied.written {w : FsView} {D₁ : Nat → Dinode} (hsb : sb.Wf)
    (hc : Copied sb ip n off N S v D tot w D₁) (h : Holds sb out w D₁ E ip n) {x : Dinode}
    (hx : x = { D₁ n with size := max (D n).size (off + tot) })
    (hi : Image sb (out \ {n}) v' (update D₁ n x) E)
    (hm : Moves {sb.iblock n} ∅ { w with aux := withDino w.aux ip x } v') (hheld : v'.held = w.held)
    (haux : v'.aux = withDino w.aux ip x) :
    Written sb out E ip n off N S v D tot v' (update D₁ n x) := by
  have haddrs : ∀ m, (update D₁ n x m).addrs = (D₁ m).addrs := fun m => by
    by_cases hmn : m = n
    · subst hmn; rw [update_self, hx]
    · rw [update_of_ne hmn]
  have hself : update D₁ n x n = x := update_self ..
  have hm' : Moves {sb.iblock n} ∅ w v' :=
    ((Moves.of_aux w _).trans hm).mono (Set.empty_union _).le (Set.empty_union _).le
  have href : ref sb v'.cur (update D₁ n x) = ref sb w.cur D₁ := by
    rw [ref_addrs haddrs]
    refine h.image.ref_eq hm' fun m hm hne => ⟨fun e => ?_, id⟩
    have hr : ref sb w.cur D₁ (m, .addr (Fin.last NDIRECT)) = _ := Image.ref_indirect hm hne
    exact h.image.owns.ref_reserved hr ((show _ = sb.iblock n from e) ▸ hsb.iblock_lt h.lt)
  have hg := hc.grown
  refine ⟨hc.le, hc.full, ?_, ?_, hi, fun m hm => ?_, ?_, fun hq => ?_, fun hq => ?_, ?_,
    hheld.trans hg.held, ?_⟩
  · rw [href]; exact hc.inside
  · rw [href]; exact hc.mapped
  · rw [update_of_ne hm, hg.others m hm]
  · rw [hself, hx, hg.fields]
  · rw [href]; exact hg.kept hq
  · rw [href] at hq; exact hg.only hq
  · refine (hg.moves.trans hm').mono ?_ (Set.union_empty _).le
    rw [show refsOf sb v' (update D₁ n x) n = refsOf sb w D₁ n from
      funext fun q => congrFun href (n, q)]
  · rw [hself, haux, hg.aux, withDino_withDino]

/-- `writei` accepts `N` bytes at `off` for a file of the given size. -/
def Accepts (size off N : Nat) : Prop :=
  ¬(size < off ∨ (off + N) % 2 ^ 32 < off) ∧ off + N ≤ MAXFILE * BSIZE

/-- What `writei` does. -/
def WriteiPost (sb : Superblock) (out E : Set Nat) (ip : IId) (n off N : Nat) (v : FsView)
    (D : Nat → Dinode) (r : Int) (v' : FsView) : Prop :=
  r = -1 ∧ v' = v ∧ ¬Accepts (D n).size off N ∨
    ∃ D' S, ∃ tot : Nat, r = tot ∧ Accepts (D n).size off N ∧
      Written sb out E ip n off N S v D tot v' D'

theorem writei_wp (hsb : sb.Wf) (h : Holds sb out v D E ip n)
    (hheld : ∀ i, v.held i = none) (ho : 1 ≤ v.log.outstanding) :
    FsWp sb p Halts (WriteiPost sb out E ip n off N v D) (writei sb ip src off N) v := by
  refine aux_wp rfl ?_
  rw [h.dino]
  refine ite_wp (fun hbad => .ret (.inl ⟨rfl, rfl, fun ha => ha.1 hbad⟩)) fun hgood => ?_
  refine ite_wp (fun hbig => .ret (.inl ⟨rfl, rfl, fun ha => absurd ha.2 (not_le.2 hbig)⟩))
    fun hsmall => ?_
  have hmax := not_lt.1 hsmall
  refine (writeiLoop_copied hsb h hheld ho hmax).bind ?_
  rintro ⟨tot, o⟩ w ⟨D₁, h₁, hheld₁, ho₁, ho, S, hc⟩
  obtain rfl : o = off + tot := ho
  have hsize : (D₁ n).size = (D n).size := by rw [hc.grown.fields]
  -- the size in memory is set if it grows; `iupdate` follows in any case
  have finish : FsWp sb p Halts (WriteiPost sb out E ip n off N v D)
      ((iupdate sb ip).bind fun _ => .ret (tot : Int))
      { w with aux := withDino w.aux ip { D₁ n with size := max (D n).size (off + tot) } } := by
    have hfits := h₁.image.fits n h₁.lt
    have hlt : max (D n).size (off + tot) < 2 ^ 32 := by
      have := hfits.size
      have := hc.le
      simp only [MAXFILE, NDIRECT, NINDIRECT, BSIZE] at hmax
      omega
    have hi := h₁.image.setInode (x := { D₁ n with size := max (D n).size (off + tot) }) h₁.out rfl
      ⟨hfits.type, hfits.major, hfits.minor, hfits.nlink, hlt, hfits.addrs⟩ fun ht =>
        absurd ht h₁.type
    refine (iupdate_wp hsb (h₁.withDino hi h₁.type) hheld₁ ho₁).bind fun _ v' h' => ?_
    obtain ⟨hi', hm, hheld', haux⟩ := h'
    exact .ret (.inr ⟨_, S, tot, rfl, ⟨hgood, hmax⟩, hc.written hsb h₁ rfl hi' hm hheld' haux⟩)
  refine aux_wp rfl ?_
  rw [h₁.dino]
  refine ite_wp (fun hgrow => ?_) fun hstay => ?_
  · rw [max_eq_right (by omega)] at finish
    exact setDino_wp finish
  · have hsame : withDino w.aux ip { D₁ n with size := max (D n).size (off + tot) } = w.aux := by
      rw [max_eq_left (by omega), ← hsize, ← h₁.dino, withDino_self]
    rw [hsame] at finish
    exact finish

end Fs

end Xv6
