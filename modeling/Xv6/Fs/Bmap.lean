import Xv6.Fs.Alloc

/-!
# The block map

What `bmap` does: it finds the block of a file with a given index, and allocates it and the indirect
block if they are missing. The references of other slots and of other inodes stay as they are.
-/

namespace Xv6

open Lib Kernel Function

namespace Fs

variable {sb : Superblock} {p : Pid} {v v' : FsView} {out : Set Nat} {D D' : Nat →
  Dinode} {E : Set Nat}
  {b c n bn : Nat} {ip : IId} {tol : Option Panic → Prop} {α : Type} {Q : α → FsView → Prop}

/-- `slotOf bn` is where the number of block `bn` of a file is stored. -/
def slotOf (bn : Nat) : Slot :=
  if h : bn < NDIRECT then .addr ⟨bn, Nat.lt_succ_of_lt h⟩ else .entry (bn - NDIRECT)

theorem slotOf_ne_last (bn : Nat) : slotOf bn ≠ .addr (Fin.last NDIRECT) := by
  unfold slotOf
  split
  · rename_i h
    intro e
    have := congrArg Fin.val (Slot.addr.inj e)
    exact absurd this h.ne
  · exact nofun

/-- Entry `ip` of the inode table holds inode `n` of `D`. -/
structure Holds (sb : Superblock) (out : Set Nat) (v : FsView) (D : Nat → Dinode) (E : Set Nat)
    (ip : IId) (n : Nat) : Prop where
  image : Image sb out v D E
  out : n ∈ out
  lt : n < sb.ninodes
  dev : (v.aux.inode ip).dev = ROOTDEV
  inum : (v.aux.inode ip).inum = n
  dino : (v.aux.inode ip).dino = D n
  type : (D n).type ≠ 0

theorem Holds.of_image (h : Holds sb out v D E ip n) (hi : Image sb out v' D E)
    (haux : v'.aux = v.aux) :
    Holds sb out v' D E ip n :=
  ⟨hi, h.out, h.lt, haux ▸ h.dev, haux ▸ h.inum, haux ▸ h.dino, h.type⟩

/-- `ip->addrs` and other fields in memory are those of `x`. -/
def withDino (a : FsSt) (ip : IId) (x : Dinode) : FsSt :=
  a.setInode ip { a.inode ip with dino := x }

theorem withDino_self (a : FsSt) (ip : IId) : withDino a ip (a.inode ip).dino = a := by
  unfold withDino FsSt.setInode
  rw [update_eq_self]

theorem withDino_withDino (a : FsSt) (ip : IId) (x y : Dinode) :
    withDino (withDino a ip x) ip y = withDino a ip y := by
  simp only [withDino, FsSt.setInode, update_self, update_idem]

variable {x : Dinode}

theorem setDino_wp {k : Unit → FsProg α}
    (next : FsWp sb p tol Q (k ()) { v with aux := withDino v.aux ip x }) :
    FsWp sb p tol Q (.call (.aux (.setDino ip x)) k) v :=
  aux_wp rfl next

theorem setAddr_wp {k : Fin (NDIRECT + 1)} {f : Unit → FsProg α}
    (hx : (v.aux.inode ip).dino = x)
    (next : FsWp sb p tol Q (f ()) { v with aux := withDino v.aux ip (x.setAddr k b) }) :
    FsWp sb p tol Q ((setAddr ip k b).bind f) v := by
  subst hx
  exact aux_wp rfl (setDino_wp next)

theorem Holds.withDino {E' : Set Nat} (h : Holds sb out v D E' ip n)
    (hi : Image sb out v (update D n x) E) (htype : x.type ≠ 0) :
    Holds sb out { v with aux := withDino v.aux ip x } (update D n x) E ip n := by
  have hself : (Fs.withDino v.aux ip x).inode ip = { v.aux.inode ip with dino := x } :=
    update_self ..
  have hD : update D n x n = x := update_self ..
  refine ⟨⟨hi.owns, hi.inodes, hi.fits, hi.free, hi.clean⟩, h.out, h.lt, ?_, ?_, ?_, by rwa [hD]⟩
  · show ((Fs.withDino v.aux ip x).inode ip).dev = _
    rw [hself]; exact h.dev
  · show ((Fs.withDino v.aux ip x).inode ip).inum = _
    rw [hself]; exact h.inum
  · show ((Fs.withDino v.aux ip x).inode ip).dino = _
    rw [hself, hD]

/-- Slot `q` of inode `n` refers to block `b` now. If it referred to no block before, `b` is new and
the blocks in `T` were changed. -/
structure Mapped (sb : Superblock) (out E : Set Nat) (ip : IId) (n : Nat) (q : Slot) (T : Set Nat)
    (v : FsView) (D : Nat → Dinode) (b : Nat) (v' : FsView) (D' : Nat → Dinode) : Prop where
  holds : Holds sb out v' D' E ip n
  others : ∀ m, m ≠ n → D' m = D m
  fields : D' n = { D n with addrs := (D' n).addrs }
  refs : ref sb v'.cur D' = update (ref sb v.cur D) (n, q) (some b)
  old : ∀ c, ref sb v.cur D (n, q) = some c → c = b ∧ D' = D
  fresh : ref sb v.cur D (n, q) = none → v'.cur b = .zero ∧ ¬Used sb v.cur b
  moves : Moves {c | ref sb v.cur D (n, q) = none ∧ c ∈ T} ∅ v v'
  held : v'.held = v.held
  aux : v'.aux = withDino v.aux ip (D' n)

variable {q : Slot}

theorem Mapped.of_some (T : Set Nat) (h : Holds sb out v D E ip n)
    (hq : ref sb v.cur D (n, q) = some b) (hi : Image sb out v' D E) (hm : Moves ∅ ∅ v v')
    (hheld : v'.held = v.held) (haux : v'.aux = v.aux) : Mapped sb out E ip n q T v D b v' D where
  holds := h.of_image hi haux
  others _ _ := rfl
  fields := rfl
  refs := by
    rw [h.image.ref_eq hm fun _ _ _ => ⟨id, id⟩, ← hq, update_eq_self]
  old c hc := ⟨Option.some.inj (hc.symm.trans hq), rfl⟩
  fresh hnone := by rw [hq] at hnone; cases hnone
  moves := hm.mono (Set.empty_subset _) subset_rfl
  held := hheld
  aux := by rw [haux, ← h.dino, withDino_self]

theorem ref_addr (h : Holds sb out v D E ip n) (k : Fin (NDIRECT + 1)) :
    ref sb v.cur D (n, .addr k) = nz ((D n).addrs k) := by
  rw [ref, if_pos h.lt, slotRef]

/-- An allocated block that is in nobody's hands yet. -/
theorem Image.insert_sdiff (h : Image sb out v D E) (hb : ¬Used sb v.cur b) :
    insert b E \ {b} = E := by
  refine Set.insert_sdiff_self_of_notMem fun hE => hb ?_
  exact h.owns.used_of_extra hE

theorem bmapAddr_wp (hsb : sb.Wf) (h : Holds sb out v D E ip n) (hheld : HeldUsed sb v)
    (k : Fin (NDIRECT + 1)) (ho : (D n).addrs k = 0 → 1 ≤ v.log.outstanding) :
    FsWp sb p Halts (fun b v' => ∃ D', Mapped sb out E ip n (.addr k) {sb.bblock b, b} v D b v' D')
      (bmapAddr sb ip k) v := by
  refine aux_wp rfl (ite_wp (fun hk => ?_) fun hk => ?_)
  · rw [h.dino] at hk
    refine (balloc_wp hsb h.dev h.image hheld (ho hk)).bind fun b w ha => ?_
    have haux : w.aux.inode = v.aux.inode := by rw [ha.aux]
    have hi := h.image.alloc hsb ha
    have hlink := hi.linkAddr hsb h.lt h.out (Set.mem_insert b E) hk h.type ha.zero ha.logged
    rw [h.image.insert_sdiff ha.free] at hlink
    have hw : Holds sb out w D (insert b E) ip n :=
      ⟨hi, h.out, h.lt, haux ▸ h.dev, haux ▸ h.inum, haux ▸ h.dino, h.type⟩
    have hb0 := (hi.pos_of_extra (Set.mem_insert b E)).2
    refine setAddr_wp hw.dino (.ret ⟨update D n ((D n).setAddr k b), ?_⟩)
    have hself : update D n ((D n).setAddr k b) n = (D n).setAddr k b := update_self ..
    have hnone : ref sb v.cur D (n, .addr k) = none := by
      rw [ref_addr h, hk]
      rfl
    have hr : ref sb w.cur (update D n ((D n).setAddr k b)) =
        update (ref sb v.cur D) (n, .addr k) (some b) := by
      rw [ref_update h.lt (slotRef_setAddr hk hb0 ha.zero), h.image.ref_alloc ha]
    refine ⟨hw.withDino hlink h.type, fun m hm => update_of_ne hm .., ?_, hr, fun c hc => ?_,
      fun _ => ⟨ha.zero, ha.free⟩, ?_, ha.held, ?_⟩
    · rw [hself]; rfl
    · rw [hnone] at hc
      cases hc
    · exact (ha.moves.trans (.of_aux w _)).mono (fun c hc => ⟨hnone, hc.resolve_right id⟩)
        (Set.union_empty _).le
    · rw [hself, ← ha.aux]
  · refine .ret ⟨D, .of_some _ h ?_ h.image (.refl v) rfl rfl⟩
    rw [ref_addr h, ← h.dino]
    exact nz_eq_some.2 ⟨rfl, hk⟩

variable {j ind : Nat}

theorem ref_entry (h : Holds sb out v D E ip n) (hind : (D n).addrs (Fin.last NDIRECT) = ind)
    (hind0 : ind ≠ 0) (hj : j < NINDIRECT) :
    ref sb v.cur D (n, .entry j) = nz (entry v.cur ind j) := by
  rw [ref, if_pos h.lt, slotRef, hind, if_pos ⟨hj, hind0⟩]

/-- The part of `bmap` that looks into the indirect block. -/
theorem entry_wp (hsb : sb.Wf) (h : Holds sb out v D E ip n) (hheld : ∀ i, v.held i = none)
    (hind : (D n).addrs (Fin.last NDIRECT) = ind) (hind0 : ind ≠ 0) (hj : j < NINDIRECT)
    (ho : entry v.cur ind j = 0 → 1 ≤ v.log.outstanding) :
    FsWp sb p Halts (fun b v' => Mapped sb out E ip n (.entry j) {sb.bblock b, b, ind} v D b v' D)
      (do
        let x : Inode ← aux (.inode ip)
        let bp ← bread x.dev ind
        let a ← data bp
        if a.u32 (4 * j) = 0 then
          let addr ← balloc sb x.dev
          let a ← data bp
          setData bp (a.setU32 (4 * j) addr)
          logWrite bp
          brelse bp
          return addr
        else
          brelse bp
          return a.u32 (4 * j)) v := by
  have href : ref sb v.cur D (n, .addr (Fin.last NDIRECT)) = some ind := by
    rw [ref_addr h, hind]
    exact nz_eq_some.2 ⟨rfl, hind0⟩
  have hvital : Vital sb D ind := .inr ⟨n, h.lt, hind, hind0⟩
  have hdata : sb.nmeta ≤ ind := not_lt.1 (h.image.owns.ref_reserved href)
  have hlog := hsb.data_not_inLog hdata
  have hsize : ind < sb.size := (h.image.owns.used_of_ref href).1
  have hentry := ref_entry h hind hind0 hj
  refine aux_wp rfl ?_
  refine bread_wp hsb h.dev (fun i => by rw [hheld]; exact nofun) (.inl rfl) fun i cur hi hcur => ?_
  have hw := Moves.bread hcur (update v.held i (some ind))
  have hwi := h.image.of_moves hsb hw (fun _ _ => id) fun _ _ => id
  have hrw := h.image.ref_eq hw fun _ _ _ => ⟨id, id⟩
  have hsame : cur ind = v.cur ind := hw.keep _ id id (h.image.clean _ hvital)
  refine data_wp (update_self ..) hlog fun d hd => ?_
  refine ite_wp (fun hzero => ?_) fun hzero => ?_
  all_goals obtain rfl : d = v.cur ind := hd.trans hsame
  · have hused : Used sb cur ind := hwi.owns.used_of_ref ((congrFun hrw _).trans href)
    have hbusy : HeldUsed sb { v with cur, held := update v.held i (some ind) } := by
      intro k c hk
      change update v.held i (some ind) k = some c at hk
      by_cases hki : k = i
      · subst hki
        rw [update_self] at hk
        cases hk
        exact ⟨hdata, hused⟩
      · rw [update_of_ne hki, hheld] at hk
        cases hk
    refine (balloc_wp hsb h.dev hwi hbusy (ho hzero)).bind fun b w ha => ?_
    have hwheld : w.held i = some ind := by
      rw [ha.held]
      exact update_self ..
    have hne : b ≠ ind := fun e => ha.free (e ▸ hused)
    have hnew := hwi.alloc hsb ha
    have hkeep : w.cur ind = v.cur ind := by
      rw [ha.moves.keep ind ?_ id (hwi.clean _ hvital)]
      · exact hsame
      · rintro (e | e)
        · have := (Superblock.Wf.bblock ha.lt).2
          omega
        · exact hne e.symm
    have hout : 1 ≤ w.log.outstanding := by
      rw [ha.moves.outstanding]
      exact ho hzero
    refine .data hwheld hlog ?_
    refine .setData hwheld hlog ?_
    refine .logWrite hwheld hlog (hsb.lt_of_lt_size hsize) hout (.inr (.inl rfl)) ?_
    refine .brelse hsb.nlog hwheld (.ret ?_)
    have hm : Moves {ind} ∅ w _ :=
      .write (d := (w.cur ind).setU32 (4 * j) b) (update w.held i none)
    have hcur' : update w.cur ind ((w.cur ind).setU32 (4 * j) b) ind =
        (w.cur ind).setU32 (4 * j) b := update_self ..
    have hlink :=
      hnew.linkEntry hsb h.lt (Set.mem_insert b E) hind hind0 hj hm hcur' (by rwa [entry, hkeep])
    rw [hwi.insert_sdiff ha.free] at hlink
    have hnone : ref sb v.cur D (n, .entry j) = none := by rw [hentry, entry, hzero]; rfl
    have haux : w.aux = v.aux := ha.aux
    refine ⟨h.of_image hlink haux, fun _ _ => rfl, rfl, ?_, fun c hc => ?_,
      fun _ => ⟨?_, fun hu => ha.free ?_⟩, ?_, ?_, ?_⟩
    · rw [hnew.ref_setEntry hsb h.lt (Set.mem_insert b E) hind hind0 hj hm hcur',
        hwi.ref_alloc ha, hrw]
    · rw [hnone] at hc
      cases hc
    · show update w.cur ind _ b = _
      rw [update_of_ne hne, ha.zero]
    · refine ⟨hu.1, ?_⟩
      rw [hw.keep _ id id (h.image.clean _ (Image.vital_bblock hsb hu.1))]
      exact hu.2
    · refine (hw.trans (ha.moves.trans hm)).mono (fun c hc => ⟨hnone, ?_⟩) ?_
      · rcases hc with hc | (hc | hc) | hc
        · exact hc.elim
        · exact .inl hc
        · exact .inr (.inl hc)
        · exact .inr (.inr hc)
      · rw [Set.empty_union, Set.empty_union]
    · show update w.held i none = v.held
      rw [ha.held]
      exact release hi
    · show w.aux = _
      rw [haux, ← h.dino, withDino_self]
  · refine .brelse hsb.nlog (update_self ..) (.ret ?_)
    have hm : Moves ∅ ∅ v _ := .bread hcur (update (update v.held i (some ind)) i none)
    refine .of_some _ h ?_ (h.image.of_moves hsb hm (fun _ _ => id) fun _ _ => id) hm
      (release hi) rfl
    rw [hentry]
    exact nz_eq_some.2 ⟨rfl, hzero⟩

/-! ## Files that grow -/

/-- The blocks of an inode for the indexes in `K`, the bitmap blocks of those of them that are new,
and the indirect block with its bitmap block. The references before and after are `r` and `r'`. -/
def writeSet (sb : Superblock) (K : Set Nat) (r r' : Slot → Option Nat) : Set Nat :=
  {c | ∃ bn ∈ K, ∃ b, r' (slotOf bn) = some b ∧ (c = b ∨ r (slotOf bn) = none ∧ c = sb.bblock b)} ∪
    {c | ∃ b, r' (.addr (Fin.last NDIRECT)) = some b ∧ (c = b ∨ c = sb.bblock b)}

/-- The references of inode `n`. -/
def refsOf (sb : Superblock) (v : FsView) (D : Nat → Dinode) (n : Nat) (q : Slot) : Option Nat :=
  ref sb v.cur D (n, q)

/-- Inode `n` may have got blocks for the indexes in `K`. -/
structure Grown (sb : Superblock) (ip : IId) (n : Nat) (K S : Set Nat) (v : FsView)
    (D : Nat → Dinode) (v' : FsView) (D' : Nat → Dinode) : Prop where
  others : ∀ m, m ≠ n → D' m = D m
  fields : D' n = { D n with addrs := (D' n).addrs }
  kept : ∀ {q c}, ref sb v.cur D q = some c → ref sb v'.cur D' q = some c
  only : ∀ {q c}, ref sb v'.cur D' q = some c → ref sb v.cur D q = some c ∨
    ref sb v.cur D q = none ∧ q.1 = n ∧ (q.2 = .addr (Fin.last NDIRECT) ∨ ∃ bn ∈ K, q.2 = slotOf bn)
  moves : Moves (writeSet sb K (refsOf sb v D n) (refsOf sb v' D' n)) S v v'
  held : v'.held = v.held
  aux : v'.aux = withDino v.aux ip (D' n)

variable {K K' S S' : Set Nat}

theorem Grown.refl (h : Holds sb out v D E ip n) : Grown sb ip n ∅ ∅ v D v D where
  others _ _ := rfl
  fields := rfl
  kept := id
  only := .inl
  moves := (Moves.refl v).mono (Set.empty_subset _) subset_rfl
  held := rfl
  aux := by rw [← h.dino, withDino_self]

theorem Grown.trans {v'' : FsView} {D'' : Nat → Dinode} (h : Grown sb ip n K S v D v' D')
    (h' : Grown sb ip n K' S' v' D' v'' D'') : Grown sb ip n (K ∪ K') (S ∪ S') v D v'' D'' where
  others m hm := (h'.others m hm).trans (h.others m hm)
  fields := by
    rw [h'.fields, h.fields]
  kept hq := h'.kept (h.kept hq)
  only {q c} hq := by
    rcases h'.only hq with hq | ⟨hnone, hn, hK⟩
    · refine (h.only hq).imp_right fun ⟨hnone, hn, hK⟩ => ⟨hnone, hn, hK.imp_right ?_⟩
      exact fun ⟨bn, hbn, e⟩ => ⟨bn, .inl hbn, e⟩
    · refine .inr ⟨?_, hn, hK.imp_right fun ⟨bn, hbn, e⟩ => ⟨bn, .inr hbn, e⟩⟩
      cases hr : ref sb v.cur D q with
      | none => rfl
      | some c =>
        rw [h.kept hr] at hnone
        cases hnone
  moves := by
    refine (h.moves.trans h'.moves).mono ?_ subset_rfl
    rintro c ((⟨bn, hbn, b, hb, hc⟩ | ⟨b, hb, hc⟩) | (⟨bn, hbn, b, hb, hc⟩ | ⟨b, hb, hc⟩))
    · exact .inl ⟨bn, .inl hbn, b, h'.kept hb, hc⟩
    · exact .inr ⟨b, h'.kept hb, hc⟩
    · refine .inl ⟨bn, .inr hbn, b, hb, hc.imp_right fun ⟨hnone, e⟩ => ⟨?_, e⟩⟩
      cases hr : refsOf sb v D n (slotOf bn) with
      | none => rfl
      | some c =>
        rw [refsOf, h.kept hr] at hnone
        cases hnone
    · exact .inr ⟨b, hb, hc⟩
  held := h'.held.trans h.held
  aux := by rw [h'.aux, h.aux, withDino_withDino]

variable {T : Set Nat}

theorem Mapped.grown (h : Mapped sb out E ip n q T v D b v' D')
    (hq : q = .addr (Fin.last NDIRECT) ∨ ∃ bn ∈ K, q = slotOf bn)
    (hT : ref sb v.cur D (n, q) = none → T ⊆ writeSet sb K (refsOf sb v D n) (refsOf sb v' D' n)) :
    Grown sb ip n K ∅ v D v' D' where
  others := h.others
  fields := h.fields
  kept {r c} hr := by
    rw [h.refs]
    by_cases hrq : r = (n, q)
    · subst hrq
      rw [update_self, (h.old c hr).1]
    · rwa [update_of_ne hrq]
  only {r c} hr := by
    rw [h.refs] at hr
    by_cases hrq : r = (n, q)
    · subst hrq
      rw [update_self] at hr
      cases hr
      cases hold : ref sb v.cur D (n, q) with
      | none => exact .inr ⟨rfl, rfl, hq⟩
      | some c =>
        obtain ⟨rfl, -⟩ := h.old c hold
        exact .inl rfl
    · rw [update_of_ne hrq] at hr
      exact .inl hr
  moves := h.moves.mono (fun c hc => hT hc.1 hc.2) subset_rfl
  held := h.held
  aux := h.aux

/-- A new block and its bitmap block are in the set. -/
theorem Mapped.pair_subset (h : Mapped sb out E ip n (slotOf bn) T v D b v' D')
    (hnone : ref sb v.cur D (n, slotOf bn) = none) :
    {sb.bblock b, b} ⊆ writeSet sb {bn} (refsOf sb v D n) (refsOf sb v' D' n) := by
  have hb : refsOf sb v' D' n (slotOf bn) = some b := by rw [refsOf, h.refs, update_self]
  rintro c (rfl | rfl)
  · exact .inl ⟨bn, rfl, b, hb, .inr ⟨hnone, rfl⟩⟩
  · exact .inl ⟨bn, rfl, c, hb, .inl rfl⟩

/-- What `bmap` does for block `bn`. -/
structure Bmapped (sb : Superblock) (out E : Set Nat) (ip : IId) (n bn : Nat) (v : FsView)
    (D : Nat → Dinode) (b : Nat) (v' : FsView) (D' : Nat → Dinode) : Prop where
  holds : Holds sb out v' D' E ip n
  grown : Grown sb ip n {bn} ∅ v D v' D'
  block : ref sb v'.cur D' (n, slotOf bn) = some b
  old : ref sb v.cur D (n, slotOf bn) ≠ none → D' = D ∧ Moves ∅ ∅ v v'
  fresh : ref sb v.cur D (n, slotOf bn) = none → v'.cur b = .zero

theorem Mapped.bmapped (h : Mapped sb out E ip n (slotOf bn) T v D b v' D')
    (hT : ref sb v.cur D (n, slotOf bn) = none →
      T ⊆ writeSet sb {bn} (refsOf sb v D n) (refsOf sb v' D' n)) :
    Bmapped sb out E ip n bn v D b v' D' where
  holds := h.holds
  grown := h.grown (.inr ⟨bn, rfl, rfl⟩) hT
  block := by rw [h.refs, update_self]
  old hne := by
    obtain ⟨c, hc⟩ := Option.ne_none_iff_exists'.1 hne
    refine ⟨(h.old c hc).2, h.moves.mono (fun _ hT => hne hT.1) subset_rfl⟩
  fresh hnone := (h.fresh hnone).1

theorem ref_last_of_entry {cur : Nat → Block} (h : ref sb cur D (n, .entry j) ≠ none) :
    ref sb cur D (n, .addr (Fin.last NDIRECT)) ≠ none := by
  obtain ⟨c, hc⟩ := Option.ne_none_iff_exists'.1 h
  obtain ⟨hn, hc⟩ := ref_eq_some.1 hc
  rw [slotRef] at hc
  split at hc
  · rename_i hj
    rw [Image.ref_indirect hn hj.2]
    exact Option.some_ne_none _
  · cases hc

theorem Mapped.bmapped_entry {w : FsView} {D₁ : Nat → Dinode} (hslot : slotOf bn = .entry j)
    (h₁ : Mapped sb out E ip n (.addr (Fin.last NDIRECT)) {sb.bblock ind, ind} v D ind w D₁)
    (h₂ : Mapped sb out E ip n (.entry j) {sb.bblock b, b, ind} w D₁ b v' D') :
    Bmapped sb out E ip n bn v D b v' D' := by
  rw [← hslot] at h₂
  have hsame : ref sb w.cur D₁ (n, slotOf bn) = ref sb v.cur D (n, slotOf bn) := by
    rw [h₁.refs, update_of_ne fun e => slotOf_ne_last bn (Prod.mk.inj e).2]
  have hind : ref sb w.cur D₁ (n, .addr (Fin.last NDIRECT)) = some ind := by
    rw [h₁.refs, update_self]
  have hind' : ref sb v'.cur D' (n, .addr (Fin.last NDIRECT)) = some ind := by
    rw [h₂.refs, update_of_ne fun e => slotOf_ne_last bn (Prod.mk.inj e).2.symm, hind]
  have hg₁ : Grown sb ip n {bn} ∅ v D w D₁ :=
    h₁.grown (.inl rfl) fun _ c hc => .inr ⟨ind, hind, hc.symm⟩
  have hm₂ : Bmapped sb out E ip n bn w D₁ b v' D' := h₂.bmapped fun hnone c hc => by
    rcases hc with hc | hc | hc
    · exact h₂.pair_subset hnone (.inl hc)
    · exact h₂.pair_subset hnone (.inr hc)
    · exact .inr ⟨ind, hind', .inl hc⟩
  refine ⟨hm₂.holds, ?_, hm₂.block, fun hne => ?_, fun hnone => hm₂.fresh (hsame.trans hnone)⟩
  · have := hg₁.trans hm₂.grown
    rwa [Set.union_self, Set.union_self] at this
  · obtain ⟨c, hc⟩ := Option.ne_none_iff_exists'.1 (ref_last_of_entry (hslot ▸ hne))
    obtain ⟨-, rfl⟩ := h₁.old c hc
    obtain ⟨rfl, hm⟩ := hm₂.old (by rw [hsame]; exact hne)
    refine ⟨rfl, (h₁.moves.trans hm).mono (fun d hd => hd.elim (fun hd => ?_) id)
      (Set.union_self _).le⟩
    rw [hc] at hd
    cases hd.1

theorem bmap_wp (hsb : sb.Wf) (h : Holds sb out v D E ip n) (hheld : ∀ i, v.held i = none)
    (hbn : bn < MAXFILE) (ho : ref sb v.cur D (n, slotOf bn) = none → 1 ≤ v.log.outstanding) :
    FsWp sb p Halts (fun b v' => ∃ D', Bmapped sb out E ip n bn v D b v' D') (bmap sb ip bn) v := by
  have hbusy : HeldUsed sb v := fun i c hi => by rw [hheld] at hi; cases hi
  unfold bmap
  by_cases hdir : bn < NDIRECT
  · rw [dif_pos hdir]
    have hslot : slotOf bn = .addr ⟨bn, Nat.lt_succ_of_lt hdir⟩ := dif_pos hdir
    rw [hslot, ref_addr h] at ho
    refine (bmapAddr_wp hsb h hbusy _ fun hk => ho (by rw [hk]; rfl)).mono fun b v' =>
      Exists.imp fun D' hm => ?_
    rw [← hslot] at hm
    exact hm.bmapped hm.pair_subset
  · have hj : bn - NDIRECT < NINDIRECT := by
      simp only [MAXFILE] at hbn
      omega
    rw [dif_neg hdir, if_pos hj]
    have hslot : slotOf bn = .entry (bn - NDIRECT) := dif_neg hdir
    rw [hslot] at ho
    refine (bmapAddr_wp hsb h hbusy _ fun hk => ho ?_).bind fun ind w hm => ?_
    · rw [ref, if_pos h.lt, slotRef, hk, if_neg fun hne => hne.2 rfl]
    obtain ⟨D₁, hm⟩ := hm
    have hind : (D₁ n).addrs (Fin.last NDIRECT) = ind ∧ ind ≠ 0 := by
      have : ref sb w.cur D₁ (n, .addr (Fin.last NDIRECT)) = some ind := by
        rw [hm.refs, update_self]
      rw [ref_addr hm.holds] at this
      exact nz_eq_some.1 this
    refine (entry_wp hsb hm.holds (fun i => by rw [hm.held, hheld]) hind.1 hind.2 hj
      fun hzero => ?_).mono
      fun b v' hm' => ⟨D₁, hm.bmapped_entry hslot hm'⟩
    rw [hm.moves.outstanding]
    refine ho ?_
    have hnone : ref sb w.cur D₁ (n, .entry (bn - NDIRECT)) = none := by
      rw [ref_entry hm.holds hind.1 hind.2 hj, hzero]
      rfl
    have hne : (n, Slot.entry (bn - NDIRECT)) ≠ (n, .addr (Fin.last NDIRECT)) := by simp
    rwa [hm.refs, update_of_ne hne] at hnone

end Fs

end Xv6
