import Xv6.Dir.Steps

/-!
# Operations on inodes keep the invariant

One statement for each operation that a rule allows.
-/

namespace Xv6.Dir

open Lib Function

variable {P : Type} {s s' : St P} {g : Ledger P} {p q : P} {l l' : Loc} {i j : IId} {n : Nat}

/-! ## Changes of an entry -/

section

variable [Fintype P] {c : ℤ}

theorem SlotStep.count {m : Nat} (hI : Inv s g) (pos : 0 < (s.inode i).ref)
    (ref : (m : ℤ) = (s.inode i).ref + c) (nonneg : 0 ≤ g.refs p i + c)
    (user : (s.inode i).lock = some p →
      0 < g.refs p i + c ∨ ∃ f, 0 < g.files p f ∧ (s.file f).Holds i) :
    SlotStep p s g i { s.inode i with ref := m } s.disk c :=
  ⟨ref, nonneg, .inl ⟨pos, rfl⟩, fun hl _ hv => hI.inode.core i hl pos hv, user, fun _ _ => .rfl,
    fun _ _ _ => ⟨rfl, rfl, rfl⟩, fun _ _ => rfl⟩

theorem SlotStep.acquire (hI : Inv s g) (lock : (s.inode i).lock = none) (used : Used s g p i) :
    SlotStep p s g i { s.inode i with lock := some p } s.disk 0 where
  ref := (add_zero _).symm
  nonneg := by simpa using hI.inode.nonneg p i
  inum := .inl ⟨hI.inode.ref_pos used, rfl⟩
  core := nofun
  user _ := by rwa [add_zero]
  lock q hq := by simp [lock, hq.symm]
  foreign q _ h := by simp [lock] at h
  disk _ _ := rfl

theorem SlotStep.release (hI : Inv s g) (lock : (s.inode i).lock = some p)
    (core : (s.inode i).valid = true → (s.inode i).node = s.disk (s.inode i).inum ∧
      (s.disk (s.inode i).inum).type ≠ .free) :
    SlotStep p s g i { s.inode i with lock := none } s.disk 0 where
  ref := (add_zero _).symm
  nonneg := by simpa using hI.inode.nonneg p i
  inum := .inl ⟨hI.inode.ref_pos (hI.inode.user i p lock), rfl⟩
  core _ _ := core
  user := nofun
  lock q hq := by simp [lock, hq.symm]
  foreign q hq h := absurd (Option.some.inj (lock.symm.trans h)).symm hq
  disk _ _ := rfl

/-- The process that has locked the entry changes it, in memory and on disk. -/
theorem SlotStep.modify {v : Bool} {z : Node} {d : Nat → Node} (hI : Inv s g)
    (lock : (s.inode i).lock = some p) (disk : ∀ m, m ≠ (s.inode i).inum → d m = s.disk m) :
    SlotStep p s g i { s.inode i with valid := v, node := z } d 0 where
  ref := (add_zero _).symm
  nonneg := by simpa using hI.inode.nonneg p i
  inum := .inl ⟨hI.inode.ref_pos (hI.inode.user i p lock), rfl⟩
  core h := by simp [lock] at h
  user _ := by
    rw [add_zero]
    exact hI.inode.user i p lock
  lock _ _ := .rfl
  foreign q hq h := absurd (Option.some.inj (lock.symm.trans h)).symm hq
  disk := disk

end

/-! ## Changes of knowledge -/

section

variable {disk disk' : Nat → Node} {x x' : InCore P} {r : ℤ} {y y' : Node}

theorem Loc.SameOff.of_uses (only : ∀ j, l.Uses (j, n) → j = i)
    (refs : ∀ q : Ptr, q.1 ≠ i → l'.refs q = l.refs q) (via : l'.via = l.via)
    (held : ∀ m, m ≠ n → l'.held m = l.held m)
    (mid : l'.mid = l.mid ∨ ∀ j, j ≠ i → l.mid.entry ≠ some j ∧ l'.mid.entry ≠ some j) :
    l.SameOff i l' where
  refs j hj m := refs (j, m) hj
  via := via
  held j hj m hu := held m (by rintro rfl; exact hj (only j hu))
  mid := mid

theorem SlotAt.take {m : Nat} (h : SlotAt p l disk i x r y) (mid : l.mid = .idle) (hn : x.inum = n)
    (hu : l.held n ≠ none → l.Uses (i, n)) :
    SlotAt p (l.take (i, n)) disk i { x with ref := m } (r + 1) y := by
  have uses {k : Nat} (hk : (l.take (i, n)).Uses (i, k)) : k = n ∨ l.Uses (i, k) := by
    by_cases hkn : k = n
    · exact .inl hkn
    · simpa [Loc.Uses, Loc.take, hkn] using hk
  refine h.repoint (h.lock_idle mid) mid (fun k hk => ?_)
    (fun k hh => ⟨fun hk => ?_, fun hk => ?_⟩) ?_ rfl
  · rcases uses hk with rfl | hk
    · exact hn
    · exact h.inum k hk
  · rcases uses hk with rfl | hk
    · exact hu hh
    · exact hk
  · exact hk.imp_left fun h => h.trans_le (Nat.le_add_right ..)
  · simp [Loc.take, hn, h.refs]

/-- A pointer is given up, but not the last one to an inode that the process has locked. -/
theorem SlotAt.drop {m : Nat} (h : SlotAt p l disk i x r y)
    (lock : x.lock = some p ↔ ∃ n, l.Uses (i, n) ∧ l.held n ≠ none) (pos : 0 < l.refs (i, n))
    (free : l.held n = none ∨ 2 ≤ l.refs (i, n)) (mid : l'.mid = .idle)
    (refs : l'.refs = l.refs - Pi.single (i, n) 1) (held : l'.held = l.held)
    (via : l'.via = l.via) :
    SlotAt p l' disk i { x with ref := m } (r - 1) y := by
  have hn := h.inum n (.inl pos)
  have uses {k : Nat} (hk : l'.Uses (i, k)) : l.Uses (i, k) := by
    rw [Loc.Uses, refs, via] at hk
    exact hk.imp_left fun h => h.trans_le (Nat.sub_le ..)
  refine h.repoint lock mid (fun k hk => h.inum k (uses hk))
    (fun k hh => ⟨uses, fun hk => ?_⟩) ?_ held
  · obtain rfl : k = n := (h.inum k hk).symm.trans hn
    have := free.resolve_left hh
    refine .inl ?_
    simp only [refs, Pi.sub_apply, Pi.single_eq_same]
    omega
  · rw [h.refs, hn, refs, Pi.sub_apply, Pi.single_eq_same]
    omega

theorem SlotAt.content {z w : Node} (h : SlotAt p l disk i x r y) (hu : l.Uses (i, n))
    (hh : l.held n ≠ none) (inum : x'.inum = x.inum) (lock : x'.lock = x.lock)
    (valid : x'.valid = true)
    (node : x'.node = z) (hd : disk' n = w) (type : w.type ≠ .free) (hy : y' = w) :
    SlotAt p { l with held := Function.update l.held n (some (z, w)) } disk' i x' r y' := by
  have only {k : Nat} (hk : l.Uses (i, k)) : k = n := (h.inum k hk).symm.trans (h.inum n hu)
  have held {k : Nat} (hk : l.Uses (i, k)) (hn : l.held k = none) : False := by
    rw [only hk] at hn
    exact hh hn
  refine ⟨by rw [inum]; exact h.refs, by rw [inum]; exact h.inum, ?_, fun k z' w' hk hh' => ?_,
    fun k hm => ?_, fun k hm => ?_, fun k hm => ?_, fun k hm => ?_, fun k hm => ?_⟩
  · rw [lock, h.lock]
    refine or_congr_left (exists_congr fun k => and_congr_right fun hk => ?_)
    have := only hk
    subst this
    simp [hh]
  · have := only hk
    subst this
    simp only [update_self, Option.some.injEq, Prod.mk.injEq] at hh'
    obtain ⟨rfl, rfl⟩ := hh'
    exact ⟨valid, node, hd, type, hy⟩
  · exact (held (h.loading k hm).1 (h.loading k hm).2.1).elim
  · obtain ⟨hr, -⟩ := h.doomed k hm
    refine ⟨hr, ?_⟩
    have := only (.inl hr)
    subst this
    simp
  · exact (held (.inl (h.dead k hm).1) (h.dead k hm).2).elim
  · exact (held (.inl (h.void k hm).1) (h.void k hm).2.1).elim
  · exact (held (.inl (h.gone k hm).1) (h.gone k hm).2).elim

end

/-! ## Operations -/

theorem At.lock_of_held (h : At p l s g) (hu : l.Uses (i, n)) (hh : l.held n ≠ none) :
    (s.inode i).lock = some p :=
  (h.inode.slot i).lock.2 (.inl ⟨n, hu, hh⟩)

theorem At.held_eq_none (h : At p l s g) (hu : l.Uses (i, n)) (lock : (s.inode i).lock ≠ some p) :
    l.held n = none := by
  by_contra hh
  exact lock (h.lock_of_held hu hh)

variable [DecidableEq P] [Fintype P]

section

variable {o : Op} {r : o.Res}

theorem Next.take (hI : Inv s g) (h : At p l s g) (mid : l.mid = .idle) (pos : 0 < (s.inode i).ref)
    (hn : (s.inode i).inum = n) (gains : Gains o r (Pi.single i 1) 0 0 0)
    (copy : copyOf s' o r = none)
    (hs : s' = s.setInode i { s.inode i with ref := (s.inode i).ref + 1 }) :
    Next p o r s s' g (l.take (i, n)) := by
  have only := h.only hI pos hn
  have uses (hh : l.held n ≠ none) : l.Uses (i, n) := by
    obtain ⟨j, hj⟩ := h.inode.uses n hh
    rwa [only j hj] at hj
  have step : SlotStep p s g i { s.inode i with ref := (s.inode i).ref + 1 } s.disk 1 := by
    refine .count hI pos (by push_cast; rfl) (by have := hI.inode.nonneg p i; omega) fun hl => ?_
    exact (hI.inode.user i p hl).imp_left fun h => by omega
  refine Next.slot hI h step hs gains (fun j _ => by rw [next_seen copy]) ?_ ?_ ?_ fun m hm => ?_
  · refine .of_uses only (fun q hq => ?_) rfl (fun _ _ => rfl) (.inl rfl)
    have : q ≠ (i, n) := by
      rintro rfl
      exact hq rfl
    simp [Loc.take, this]
  · exact ⟨by simp [mid], by simp [Loc.take, mid], rfl, rfl, rfl, rfl, rfl, rfl, rfl, rfl, rfl, rfl⟩
  · rw [next_seen copy]
    exact (h.inode.slot i).take mid hn uses
  · obtain ⟨j, hj⟩ := h.inode.uses m hm
    exact ⟨j, hj.imp_left fun h => h.trans_le (Nat.le_add_right ..)⟩

theorem Next.drop (hI : Inv s g) (h : At p l s g)
    (mid : l.mid = .idle ∨ l.mid = .gone (i, n)) (pos : 0 < l.refs (i, n))
    (free : l.held n = none ∨ 2 ≤ l.refs (i, n)) (gains : Gains o r (-Pi.single i 1) 0 0 0)
    (copy : copyOf s' o r = none)
    (hs : s' = s.setInode i { s.inode i with ref := (s.inode i).ref - 1 }) :
    Next p o r s s' g { l.drop (i, n) with mid := .idle } := by
  have slot := h.inode.slot i
  have hn := h.inum (.inl pos)
  have used := h.used (.inl pos)
  have ref := hI.inode.ref_pos used
  have lock : (s.inode i).lock = some p ↔ ∃ n, l.Uses (i, n) ∧ l.held n ≠ none := by
    rcases mid with mid | mid
    · exact slot.lock_idle mid
    · exact slot.lock_gone mid
  have hr := slot.refs
  rw [hn] at hr
  have rest {j : IId} {m : Nat} (hh : l.held m ≠ none) (hu : l.Uses (j, m)) :
      Loc.Uses { l.drop (i, n) with mid := .idle } (j, m) := by
    by_cases hj : (j, m) = (i, n)
    · cases hj
      have := free.resolve_left hh
      refine .inl ?_
      simp only [Loc.drop, Pi.sub_apply, Pi.single_eq_same]
      omega
    · refine hu.imp_left fun h => ?_
      simpa [Loc.drop, hj] using h
  have step : SlotStep p s g i { s.inode i with ref := (s.inode i).ref - 1 } s.disk (-1) := by
    refine .count hI ref (by omega) (by omega) fun hl => ?_
    obtain ⟨m, hu, hh⟩ := lock.1 hl
    obtain rfl : m = n := (slot.inum m hu).symm.trans hn
    rcases free.resolve_left hh with h
    exact .inl (by omega)
  refine Next.slot hI h step hs (by rw [Pi.single_neg]; exact gains)
    (fun j _ => by rw [next_seen copy]) ?_ ?_ ?_
    fun m hm => ?_
  · refine .of_uses (h.only hI ref hn) (fun q hq => ?_) rfl (fun _ _ => rfl) ?_
    · have : q ≠ (i, n) := by
        rintro rfl
        exact hq rfl
      simp [Loc.drop, this]
    · right
      rcases mid with mid | mid
      · simp [mid, Mid.entry]
      · simp +contextual [mid, Mid.entry, eq_comm]
  · exact ⟨by rcases mid with mid | mid <;> simp [mid], nofun, rfl, rfl, rfl, rfl, rfl, rfl, rfl,
      rfl, rfl, rfl⟩
  · rw [next_seen copy]
    exact slot.drop lock pos free rfl rfl rfl rfl
  · obtain ⟨j, hj⟩ := h.inode.uses m hm
    exact ⟨j, rest hm hj⟩

end

theorem Next.igetNew (hI : Inv s g) (h : At p l s g) (mid : l.mid = .idle)
    (hf : s.find n = some (i, false))
    (hs : s' = s.setInode i { s.inode i with inum := n, ref := 1, valid := false }) :
    Next p (.iget n) i s s' g (l.take (i, n)) := by
  obtain ⟨h0, hn⟩ := St.find_false hf
  have unused {q : P} (hu : Used s g q i) : False := by
    have := hI.inode.ref_pos hu
    omega
  have unknown {m : Nat} (hu : l.Uses (i, m)) : False := unused (h.used hu)
  have held : l.held n = none := by
    by_contra hh
    obtain ⟨j, hj⟩ := h.inode.uses n hh
    exact hn j (hI.inode.ref_pos (h.used hj)) (h.inum hj)
  have refs : g.refs p i = 0 := by
    have := hI.inode.nonneg p i
    by_contra hne
    exact unused (q := p) (.inl (by omega))
  have lock (q : P) : (s.inode i).lock ≠ some q := fun hl => unused (hI.inode.user i q hl)
  have step : SlotStep p s g i { s.inode i with inum := n, ref := 1, valid := false } s.disk 1 :=
    ⟨by simp [h0], by omega, .inr ⟨h0, rfl,
      hn⟩, by simp, fun hl => absurd hl (lock p), fun _ _ => .rfl,
      fun q _ hl => absurd hl (lock q), fun _ _ => rfl⟩
  have uses {m : Nat} (hu : (l.take (i, n)).Uses (i, m)) : n = m := by
    by_contra hm
    refine unknown (m := m) ?_
    simpa [Loc.Uses, Loc.take, Ne.symm hm] using hu
  have hl : l.refs (i, n) = 0 := Nat.eq_zero_of_not_pos fun hpos => unknown (.inl hpos)
  refine Next.slot hI h step hs (.of rfl) (fun j _ => by rw [next_seen rfl]) ?_ ?_ ?_
    fun m hm => ?_
  · refine ⟨fun j hj m => ?_, rfl, fun _ _ _ _ => rfl, .inl rfl⟩
    simp [Loc.take, hj]
  · exact ⟨by simp [mid], by simp [Loc.take, mid], rfl, rfl, rfl, rfl, rfl, rfl, rfl, rfl, rfl, rfl⟩
  · refine .of_idle mid ?_ (fun m => uses) ⟨fun hl => absurd hl (lock p), ?_⟩ fun m z w hu hh => ?_
    · simp [Loc.take, refs, hl]
    · rintro ⟨m, hu, hh⟩
      rw [← uses hu] at hh
      exact absurd held hh
    · rw [← uses hu] at hh
      simp [Loc.take, held] at hh
  · obtain ⟨j, hj⟩ := h.inode.uses m hm
    exact ⟨j, hj.imp_left fun h => h.trans_le (Nat.le_add_right ..)⟩

theorem Next.acquire (hI : Inv s g) (h : At p l s g) (mid : l.mid = .idle) (hu : l.Uses (i, n))
    (lock : (s.inode i).lock = none) (hs : s' = s.setInode i { s.inode i with lock := some p }) :
    Next p (.acquire i) () s s' g { l with mid := .loading (i, n) } := by
  have slot := h.inode.slot i
  have hn := h.inum hu
  have used := h.used hu
  have held : l.held n = none := h.held_eq_none hu (by simp [lock])
  refine Next.slot hI h (.acquire hI lock used) hs (Quiet.slot (.of rfl))
    (fun j _ => by rw [next_seen rfl]) ?_ ?_ ?_ h.inode.uses
  · exact .of_uses (h.only hI (hI.inode.ref_pos used) hn) (fun _ _ => rfl) rfl (fun _ _ => rfl)
      (.inr (by simp +contextual [mid, Mid.entry, eq_comm]))
  · exact ⟨by simp [mid], nofun, rfl, rfl, rfl, rfl, rfl, rfl, rfl, rfl, rfl, rfl⟩
  · rw [next_seen rfl, add_zero]
    refine ⟨slot.refs, slot.inum, ?_, fun m z w hm hh => ?_, fun m hm => ?_, nofun,
      nofun, nofun, nofun⟩
    · exact iff_of_true rfl (.inr ⟨n, .inl rfl⟩)
    · obtain rfl : m = n := (slot.inum m hm).symm.trans hn
      exact absurd hh (by simp [held])
    · cases hm
      refine ⟨hu, held, fun hv => ?_⟩
      rw [← hn]
      exact hI.inode.core i lock (hI.inode.ref_pos used) hv

theorem Next.load (hI : Inv s g) (h : At p l s g) (mid : l.mid = .loading (i, n))
    (type : (s.disk n).type ≠ .free)
    (hs : s' = s.setInode i { s.inode i with valid := true, node := s.disk n }) :
    Next p (.load i) () s s' g { l.hold n (s.disk n) with mid := .idle } := by
  have slot := h.inode.slot i
  obtain ⟨hu, held, -⟩ := slot.loading n mid
  have hn := h.inum hu
  have lock := slot.lock.2 (.inr ⟨n, .inl mid⟩)
  have copy : copyOf s' (.load i) () = some (i, s.disk n) := by simp [copyOf, hs, St.setInode]
  refine Next.slot hI h (.modify hI lock fun _ _ => rfl) hs (Quiet.slot (.of rfl))
    (fun j hj => next_seen_of_ne hj copy) ?_ ?_ ?_ fun m hm => ?_
  · refine .of_uses (h.only hI (hI.inode.ref_pos (h.used hu)) hn) (fun _ _ => rfl) rfl
      (fun m hm => update_of_ne hm ..) (.inr ?_)
    simp +contextual [mid, Mid.entry, eq_comm]
  · exact ⟨by simp [mid], nofun, rfl, rfl, rfl, rfl, rfl, rfl, rfl, rfl, rfl, rfl⟩
  · rw [next_seen_self copy, add_zero]
    refine .of_idle rfl slot.refs slot.inum (iff_of_true lock ⟨n, hu, by simp [Loc.hold]⟩)
      fun m z w hm hh => ?_
    obtain rfl : m = n := (slot.inum m hm).symm.trans hn
    simp only [Loc.hold, update_self, Option.some.injEq, Prod.mk.injEq] at hh
    obtain ⟨rfl, rfl⟩ := hh
    exact ⟨rfl, rfl, rfl, type, rfl⟩
  · by_cases hmn : m = n
    · exact ⟨i, hmn ▸ hu⟩
    · refine h.inode.uses m ?_
      simpa [Loc.hold, hmn] using hm

theorem Next.iunlock {x : Node} (hI : Inv s g) (h : At p l s g) (mid : l.mid = .idle)
    (hu : l.Uses (i, n)) (held : l.held n = some (x, x))
    (hs : s' = s.setInode i { s.inode i with lock := none }) :
    Next p (.iunlock i) () s s' g (l.release n) := by
  have slot := h.inode.slot i
  have hn := h.inum hu
  have lock := h.lock_of_held hu (by simp [held])
  obtain ⟨hv, hx, hd, ht, hy⟩ := slot.held n x x hu held
  refine Next.slot hI h (.release hI lock fun _ => ?_) hs (Quiet.slot (.of rfl))
    (fun j _ => by rw [next_seen rfl]) ?_ ?_ ?_ fun m hm => ?_
  · rw [hn, hd]
    exact ⟨hx, ht⟩
  · exact .of_uses (h.only hI (hI.inode.ref_pos (h.used hu)) hn) (fun _ _ => rfl) rfl
      (fun m hm => update_of_ne hm ..) (.inl rfl)
  · exact ⟨by simp [mid], by simp [Loc.release,
      mid], rfl, rfl, rfl, rfl, rfl, rfl, rfl, rfl, rfl, rfl⟩
  · rw [next_seen rfl, add_zero]
    have none {m : Nat} (hm : l.Uses (i, m)) : (l.release n).held m = none := by
      obtain rfl : m = n := (slot.inum m hm).symm.trans hn
      exact update_self ..
    refine .of_idle mid slot.refs slot.inum ⟨nofun, ?_⟩ fun m z w hm hh => ?_
    · rintro ⟨m, hm, hh⟩
      exact absurd (none hm) hh
    · exact absurd (hh.symm.trans (none hm)) nofun
  · by_cases hmn : m = n
    · simp [Loc.release, hmn] at hm
    · refine h.inode.uses m ?_
      simpa [Loc.release, hmn] using hm

theorem Next.content {o : Op} {r : o.Res} {x y z w : Node}
    (hI : Inv s g) (h : At p l s g) (live : l.mid ≠ .exited) (hu : l.Uses (i, n))
    (held : l.held n = some (x, y)) (quiet : Quiet o r)
    (copy : copyOf s' o r = none ∧ w = y ∨ copyOf s' o r = some (i, w)) (type : w.type ≠ .free)
    (hs : s' = (s.setInode i { s.inode i with node := z }).setDisk n w) :
    Next p o r s s' g { l with held := Function.update l.held n (some (z, w)) } := by
  have slot := h.inode.slot i
  have hn := h.inum hu
  have hh : l.held n ≠ none := by simp [held]
  have lock := h.lock_of_held hu hh
  obtain ⟨hv, hx, hd, ht, hy⟩ := slot.held n x y hu held
  have step : SlotStep p s g i { s.inode i with node := z } (Function.update s.disk n w) 0 :=
    SlotStep.modify (v := (s.inode i).valid) hI lock fun m hm => update_of_ne (by rwa [← hn]) ..
  have seen : (g.next p o r s s').seen p i = w := by
    rcases copy with ⟨copy, rfl⟩ | copy
    · rw [next_seen copy, hy]
    · exact next_seen_self copy
  refine Next.slot hI h step hs (Quiet.slot quiet) (fun j hj => ?_) ?_ ?_ ?_ fun m hm => ?_
  · rcases copy with ⟨copy, -⟩ | copy
    · rw [next_seen copy]
    · exact next_seen_of_ne hj copy
  · exact .of_uses (h.only hI (hI.inode.ref_pos (h.used hu)) hn) (fun _ _ => rfl) rfl
      (fun m hm => update_of_ne hm ..) (.inl rfl)
  · exact ⟨live, live, rfl, rfl, rfl, rfl, rfl, rfl, rfl, rfl, rfl, rfl⟩
  · rw [add_zero]
    exact slot.content hu hh rfl rfl hv rfl (update_self ..) type seen
  · by_cases hmn : m = n
    · exact ⟨i, hmn ▸ hu⟩
    · refine h.inode.uses m ?_
      simpa [hmn] using hm

/-! ## The last part of `iput` -/

theorem Next.iputTestTrue (hI : Inv s g) (h : At p l s g) (mid : l.mid = .idle)
    (pos : 0 < l.refs (i, n)) (lock : (s.inode i).lock = none) (valid : (s.inode i).valid = true)
    (hs : s' = s.setInode i { s.inode i with lock := some p }) :
    Next p (.iputTest i) true s s' g { l.hold n (s.inode i).node with mid := .doomed (i, n) } := by
  have slot := h.inode.slot i
  have hu : l.Uses (i, n) := .inl pos
  have hn := h.inum hu
  have used := h.used hu
  have ref := hI.inode.ref_pos used
  have held : l.held n = none := h.held_eq_none hu (by simp [lock])
  obtain ⟨hx, ht⟩ := hI.inode.core i lock ref valid
  rw [hn] at hx ht
  have copy : copyOf s' (.iputTest i) true = some (i, (s.inode i).node) := by
    simp [copyOf, hs, St.setInode]
  refine Next.slot hI h (.acquire hI lock used) hs (Quiet.slot (.of rfl))
    (fun j hj => next_seen_of_ne hj copy) ?_ ?_ ?_ fun m hm => ?_
  · refine .of_uses (h.only hI ref hn) (fun _ _ => rfl) rfl
      (fun m hm => update_of_ne hm ..) (.inr ?_)
    simp +contextual [mid, Mid.entry, eq_comm]
  · exact ⟨by simp [mid], nofun, rfl, rfl, rfl, rfl, rfl, rfl, rfl, rfl, rfl, rfl⟩
  · rw [next_seen_self copy, add_zero]
    refine ⟨slot.refs, slot.inum, iff_of_true rfl (.inl ⟨n, hu, by simp [Loc.hold]⟩),
      fun m z w hm hh => ?_, nofun, fun m hm => ?_, nofun, nofun, nofun⟩
    · obtain rfl : m = n := (slot.inum m hm).symm.trans hn
      simp only [Loc.hold, update_self, Option.some.injEq, Prod.mk.injEq] at hh
      obtain ⟨rfl, rfl⟩ := hh
      exact ⟨valid, rfl, hx.symm, hx ▸ ht, rfl⟩
    · cases hm
      exact ⟨pos, by simp [Loc.hold]⟩
  · by_cases hmn : m = n
    · exact ⟨i, hmn ▸ hu⟩
    · refine h.inode.uses m ?_
      simpa [Loc.hold, hmn] using hm

theorem Next.iupdateFree {x y : Node} (hI : Inv s g) (h : At p l s g) (mid : l.mid = .doomed (i, n))
    (held : l.held n = some (x, y)) (hs : s' = s.setDisk n x) :
    Next p (.iupdate i) () s s' g { l.release n with mid := .dead (i, n) } := by
  have slot := h.inode.slot i
  obtain ⟨pos, -⟩ := slot.doomed n mid
  have hu : l.Uses (i, n) := .inl pos
  have hn := h.inum hu
  have lock := h.lock_of_held hu (by simp [held])
  have only {m : Nat} (hm : l.Uses (i, m)) : m = n := (slot.inum m hm).symm.trans hn
  have step : SlotStep p s g i (s.inode i) (Function.update s.disk n x) 0 :=
    SlotStep.modify (v := (s.inode i).valid) (z := (s.inode i).node) hI lock fun m hm =>
      update_of_ne (by rwa [← hn]) ..
  have hs' : s' = { s with
      inode := Function.update s.inode i (s.inode i), disk := Function.update s.disk n x } := by
    rw [update_eq_self]
    exact hs
  have copy : copyOf s' (.iupdate i) () = some (i, s'.disk (s'.inode i).inum) := rfl
  refine Next.slot hI h step hs' (Quiet.slot (.of rfl))
    (fun j hj => next_seen_of_ne hj copy) ?_ ?_ ?_ fun m hm => ?_
  · refine .of_uses (h.only hI (hI.inode.ref_pos (h.used hu)) hn) (fun _ _ => rfl) rfl
      (fun m hm => update_of_ne hm ..) (.inr ?_)
    simp +contextual [mid, Mid.entry, eq_comm]
  · exact ⟨by simp [mid], nofun, rfl, rfl, rfl, rfl, rfl, rfl, rfl, rfl, rfl, rfl⟩
  · rw [add_zero]
    refine ⟨slot.refs, slot.inum, iff_of_true lock (.inr ⟨n, .inr (.inl rfl)⟩),
      fun m z w hm hh => ?_, nofun, nofun, fun m hm => ?_, nofun, nofun⟩
    · obtain rfl := only hm
      simp [Loc.release] at hh
    · cases hm
      exact ⟨pos, by simp [Loc.release]⟩
  · by_cases hmn : m = n
    · simp [Loc.release, hmn] at hm
    · refine h.inode.uses m ?_
      simpa [Loc.release, hmn] using hm

theorem Next.invalidate (hI : Inv s g) (h : At p l s g) (mid : l.mid = .dead (i, n))
    (hs : s' = s.setInode i { s.inode i with valid := false }) :
    Next p (.invalidate i) () s s' g { l with mid := .void (i, n) } := by
  have slot := h.inode.slot i
  obtain ⟨pos, held⟩ := slot.dead n mid
  have hn := h.inum (.inl pos)
  have lock := slot.lock.2 (.inr ⟨n, .inr (.inl mid)⟩)
  have step : SlotStep p s g i { s.inode i with valid := false } s.disk 0 :=
    SlotStep.modify (z := (s.inode i).node) hI lock fun _ _ => rfl
  refine Next.slot hI h step hs (Quiet.slot (.of rfl)) (fun j _ => by rw [next_seen rfl]) ?_ ?_ ?_
    h.inode.uses
  · refine .of_uses (h.only hI (hI.inode.ref_pos (h.used (.inl pos))) hn) (fun _ _ => rfl) rfl
      (fun _ _ => rfl) (.inr ?_)
    simp +contextual [mid, Mid.entry, eq_comm]
  · exact ⟨by simp [mid], nofun, rfl, rfl, rfl, rfl, rfl, rfl, rfl, rfl, rfl, rfl⟩
  · rw [next_seen rfl, add_zero]
    refine ⟨slot.refs, slot.inum, iff_of_true lock (.inr ⟨n, .inr (.inr rfl)⟩),
      fun m z w hm hh => ?_, nofun, nofun, nofun, fun m hm => ?_, nofun⟩
    · obtain rfl : m = n := (slot.inum m hm).symm.trans hn
      exact absurd (hh.symm.trans held) nofun
    · cases hm
      exact ⟨pos, held, rfl⟩

theorem Next.iputRelease (hI : Inv s g) (h : At p l s g) (mid : l.mid = .void (i, n))
    (hs : s' = s.setInode i { s.inode i with lock := none }) :
    Next p (.iputRelease i) () s s' g { l with mid := .gone (i, n) } := by
  have slot := h.inode.slot i
  obtain ⟨pos, held, invalid⟩ := slot.void n mid
  have hn := h.inum (.inl pos)
  have lock := slot.lock.2 (.inr ⟨n, .inr (.inr mid)⟩)
  refine Next.slot hI h (.release hI lock (by simp [invalid])) hs (Quiet.slot (.of rfl))
    (fun j _ => by rw [next_seen rfl]) ?_ ?_ ?_ h.inode.uses
  · refine .of_uses (h.only hI (hI.inode.ref_pos (h.used (.inl pos))) hn) (fun _ _ => rfl) rfl
      (fun _ _ => rfl) (.inr ?_)
    simp +contextual [mid, Mid.entry, eq_comm]
  · exact ⟨by simp [mid], nofun, rfl, rfl, rfl, rfl, rfl, rfl, rfl, rfl, rfl, rfl⟩
  · rw [next_seen rfl, add_zero]
    have none {m : Nat} (hm : l.Uses (i, m)) : l.held m = none := by
      obtain rfl : m = n := (slot.inum m hm).symm.trans hn
      exact held
    refine ⟨slot.refs, slot.inum, ⟨nofun, ?_⟩, fun m z w hm hh => ?_, nofun, nofun, nofun, nofun,
      fun m hm => ?_⟩
    · rintro (⟨m, hm, hh⟩ | ⟨m, hm | hm | hm⟩)
      · exact absurd (none hm) hh
      · cases hm
      · cases hm
      · cases hm
    · exact absurd (hh.symm.trans (none hm)) nofun
    · cases hm
      exact ⟨pos, held⟩

/-! ## Allocation -/

theorem Next.alloc {d : Nat → Node} {k : Nat} {type : IType} (hI : Inv s g) (h : At p l s g)
    (mid : l.mid = .idle) (disk : ∀ m, (s.disk m).type ≠ .free → d m = s.disk m)
    {b : Bool} (hs : s' = { s with disk := d }) :
    Next p (.alloc k type) b s s' g l := by
  have hr : (g.next p (.alloc k type) b s s').refs = g.refs := next_refs nofun rfl
  have hf : (g.next p (.alloc k type) b s s').files = g.files := next_files nofun rfl
  have he : (g.next p (.alloc k type) b s s').ends = g.ends := next_ends nofun rfl
  have hc : (g.next p (.alloc k type) b s s').corpses = g.corpses := next_corpses nofun rfl
  have hy : (g.next p (.alloc k type) b s s').seen = g.seen := next_seen rfl
  have hi : s'.inode = s.inode := by rw [hs]
  have hfi : s'.file = s.file := by rw [hs]
  have proc {q : P} {lq : Loc} (hat : ProcAt q lq s) : ProcAt q lq s' :=
    hat.congr (by rw [hs]) (by rw [hs]) (by rw [hs]) (by rw [hs]) (by rw [hs])
  have kept (q : P) : InodeKept q s g s' (g.next p (.alloc k type) b s s') := by
    refine .of_eq (by rw [hr]) (by rw [hy]) hi fun j _ ht => ?_
    rw [hs]
    exact disk _ ht
  have inv : InodeInv s' (g.next p (.alloc k type) b s s') := by
    refine ⟨?_, ?_, ?_, ?_, ?_⟩
    · rw [hi, hfi, hr]
      exact hI.inode.law
    · rw [hr]
      exact hI.inode.nonneg
    · rw [hi]
      exact hI.inode.unique
    · rw [hi]
      intro j hl hpos hv
      obtain ⟨hx, ht⟩ := hI.inode.core j hl hpos hv
      rw [hs]
      simp only [disk _ ht]
      exact ⟨hx, ht⟩
    · intro j q
      rw [hi, Used, hr, hf, hfi]
      exact hI.inode.user j q
  refine ⟨⟨inv, hI.file.congr hfi hf, hI.pipe.congr hfi (by rw [hs]) (by rw [hs]) he hc,
    hI.proc.congr (by rw [hs]) (by rw [hs]) (by rw [hs]) (by rw [hs])⟩, ⟨?_, ?_, ?_, ?_⟩,
    fun q hq lq hat => ⟨InodeAt.kept hat (kept q), ?_, ?_, proc hat.proc⟩⟩
  · exact (InodeAt.kept h (kept p)).congr rfl rfl rfl rfl rfl rfl rfl rfl
  · exact h.file.congr hfi (by rw [hf]) rfl rfl rfl rfl
  · exact h.pipe.congr (by rw [he]) (by rw [hc]) rfl rfl
  · exact (proc h.proc).congr_loc (by simp [mid]) (by simp [mid]) rfl rfl rfl rfl
  · exact hat.file.congr hfi (by rw [hf]) rfl rfl rfl rfl
  · exact hat.pipe.congr (by rw [he]) (by rw [hc]) rfl rfl

end Xv6.Dir
