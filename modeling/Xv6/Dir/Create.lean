import Xv6.Dir.Calls

/-!
# `create` follows the rules

The new inode is locked by its creator before an entry names it. A directory gets its dots first,
while nobody else can find it.
-/

namespace Xv6.Dir

open Lib Function

variable {sb : Superblock} {l : Loc} {i dp ip : IId} {d m n : Nat} {x y z : Node}
  {name : List UInt8}

/-- `dirlink` of a name that is known not to be there. -/
theorem dirlinkNew_runs (uses : l.Uses (dp, d)) (held : l.held d = some (x, x))
    (mid : l.mid = .idle) (owns : ∀ n, l.held n ≠ none → ∃ j, 0 < l.refs (j, n))
    (hnone : ∀ k, k < x.data.length / DESIZE → (entry x.data k).inum ≠ 0 →
      namecmp name (entry x.data k).name = false) :
    Runs l (dirlink dp name m) fun r l' => r = true ∧ ∃ z, l' = l.hold d z := by
  refine (dirlink_runs uses held mid owns).mono ?_
  rintro (_ | _) l' ⟨htrue, hfalse⟩
  · obtain ⟨-, k, hk, h0, hname⟩ := hfalse rfl
    exact Bool.noConfusion (hname.symm.trans (hnone k hk h0))
  · exact ⟨rfl, htrue rfl⟩

theorem Loc.Calm.owns_both (h : l.Calm) (hn : (l.both dp ip d m x y).held n ≠ none) :
    ∃ j, 0 < (l.both dp ip d m x y).refs (j, n) := by
  by_cases hm : n = m
  · subst hm
    exact ⟨ip, Nat.succ_pos _ |>.trans_eq Loc.refs_take_self.symm⟩
  · rw [Loc.both, Loc.held_hold_of_ne hm] at hn
    obtain ⟨j, hj⟩ := h.owns (q := (dp, d)) hn
    exact ⟨j, hj.trans_le (Loc.refs_le_take _)⟩

theorem Loc.hold_both' : (l.both dp ip d m x y).hold m z = l.both dp ip d m x z := by
  rw [both, hold_hold, both]

section

variable (calm : l.Calm) (hne : m ≠ d)

include calm hne

theorem created_runs : Runs (l.both dp ip d m x y) (do
      iunlockput dp
      return some ip) fun r l' => r = some ip ∧ l' = (l.take (ip, m)).hold m y := by
  have free : ((l.take (ip, m)).hold m y).held d = none :=
    (Loc.held_hold_of_ne hne.symm).trans (calm.unlocked d)
  rw [Loc.both_eq hne]
  refine .bind (iunlockput_take_runs (l := (l.take (ip, m)).hold m y) calm.mid free) ?_
  rintro - _ rfl
  exact .ret ⟨rfl, rfl⟩

/-- The entry for the new inode, and the end of `create`. -/
theorem enter_runs (hnone : ∀ k, k < x.data.length / DESIZE → (entry x.data k).inum ≠ 0 →
      namecmp name (entry x.data k).name = false) :
    Runs (l.both dp ip d m x y) (do
      let ok ← dirlink dp name m
      if !ok then panic .createDirlink
      else
        iunlockput dp
        return some ip) fun r l' => r = some ip ∧ ∃ z, l' = (l.take (ip, m)).hold m z := by
  refine .bind (dirlinkNew_runs Loc.uses_both (Loc.held_both hne) calm.mid (fun n => calm.owns_both)
    hnone) ?_
  rintro _ _ ⟨rfl, w, rfl⟩
  rw [Loc.hold_both hne]
  exact (created_runs calm hne).mono fun r l' h => ⟨h.1, y, h.2⟩

omit hne in
/-- The dots of a new directory. -/
theorem dots_runs {α : Type} {Q : α → Loc → Prop} {e : Nat} {f : Bool → Code α}
    (stop : ∀ y, Runs (l.both dp ip d m x y) (f false) Q)
    (next : ∀ y, Runs (l.both dp ip d m x y) (f true) Q) :
    Runs (l.both dp ip d m x y) ((dirlink ip name e).bind f) Q := by
  refine .bind (dirlink_runs Loc.uses_both' Loc.held_hold calm.mid fun n => calm.owns_both) ?_
  rintro (_ | _) l' ⟨htrue, hfalse⟩
  · obtain ⟨rfl, -⟩ := hfalse rfl
    exact stop y
  · obtain ⟨z, rfl⟩ := htrue rfl
    rw [Loc.hold_both']
    exact next z

/-- `create` of a directory, with the new inode initialised. -/
theorem makeDir_runs (hnone : ∀ k, k < x.data.length / DESIZE → (entry x.data k).inum ≠ 0 →
      namecmp name (entry x.data k).name = false) :
    Runs (l.both dp ip d m x y) (do
      update dp Node.incr
      let ok ← dirlink ip dotName m
      if !ok then panic .createDots
      else
        let parent : Nat ← op (.inum dp)
        let ok ← dirlink ip dotdotName parent
        if !ok then panic .createDots
        else
          let ok ← dirlink dp name m
          if !ok then panic .createDirlink
          else
            iunlockput dp
            return some ip) fun r l' => r = some ip ∧ ∃ z, l' = (l.take (ip, m)).hold m z := by
  refine .bind (update_runs Loc.uses_both (Loc.held_both hne) calm.mid rfl) ?_
  rintro - _ rfl
  rw [Loc.hold_both hne]
  refine dots_runs calm (fun y => .panic calm.live (by decide)) fun y => ?_
  refine .op (.inum calm.live Loc.uses_both) ?_
  rintro _ _ ⟨rfl, rfl⟩
  refine dots_runs calm (fun y => .panic calm.live (by decide)) fun y => ?_
  exact enter_runs calm hne hnone

theorem createIn_runs {type : IType} {major minor : Nat}
    (hnone : ∀ k, k < x.data.length / DESIZE → (entry x.data k).inum ≠ 0 →
      namecmp name (entry x.data k).name = false) :
    Runs (((l.take (dp, d)).hold d x).take (ip, m)) (createIn dp ip name type major minor)
      fun r l' => r = some ip ∧ ∃ z, l' = (l.take (ip, m)).hold m z := by
  refine .bind (ilock_runs calm.mid Loc.uses_take) ?_
  rintro - _ ⟨-, y, -, rfl⟩
  have uses : (l.both dp ip d m x y).Uses (ip, m) := Loc.uses_both'
  refine .bind (update_runs uses Loc.held_hold calm.mid rfl) ?_
  rintro - _ rfl
  rw [Loc.hold_hold]
  refine .op (.inum calm.live uses) ?_
  rintro _ _ ⟨rfl, rfl⟩
  split
  · exact makeDir_runs calm hne hnone
  · exact enter_runs calm hne hnone

end

theorem create_runs {path : Path} {type : IType} {major minor : Nat} (ht : type ≠ .free)
    (calm : l.Calm) :
    Runs l (create sb path type major minor) fun r l' => (r = none → l' = l) ∧
      ∀ i, r = some i → ∃ n z, l' = (l.take (i, n)).hold n z := by
  refine .bind (namex_runs calm) ?_
  rintro (_ | ⟨dp, name⟩) l₁ hres
  · obtain rfl := hres
    exact .ret ⟨fun _ => rfl, nofun⟩
  obtain ⟨d, rfl⟩ := hres
  refine .bind (ilock_runs calm.mid Loc.uses_take) ?_
  rintro - _ ⟨-, x, -, rfl⟩
  have uses : ((l.take (dp, d)).hold d x).Uses (dp, d) := Loc.uses_take
  refine .bind (dirlookup_runs uses Loc.held_hold calm.mid) ?_
  rintro (_ | ⟨i, off⟩) l₂ ⟨-, hfound⟩
  · obtain ⟨rfl, hnone⟩ := hfound
    refine .bind (ialloc_runs calm.mid ht) ?_
    rintro ip _ ⟨m, hfree, rfl⟩
    have hne : m ≠ d := by
      rintro rfl
      rw [Loc.held_hold] at hfree
      cases hfree
    refine (createIn_runs calm hne fun k hk => hnone k k.zero_le hk).mono ?_
    rintro _ _ ⟨rfl, z, rfl⟩
    refine ⟨nofun, ?_⟩
    rintro _ ⟨⟩
    exact ⟨m, z, rfl⟩
  · obtain ⟨k, n, -, -, -, -, -, -, rfl⟩ := hfound
    have swap : ((l.take (dp, d)).hold d x).take (i, n) =
        ((l.take (i, n)).take (dp, d)).hold d x := by
      rw [Loc.take_comm (l := l)]
      rfl
    rw [swap]
    refine .bind (iunlockput_take_runs calm.mid (calm.unlocked d)) ?_
    rintro - _ rfl
    refine .bind (ilock_runs calm.mid Loc.uses_take) ?_
    rintro - _ ⟨-, z, -, rfl⟩
    have uses : ((l.take (i, n)).hold n z).Uses (i, n) := Loc.uses_take
    apply Runs.inode uses Loc.held_hold calm.live
    split
    · refine .ret ⟨nofun, ?_⟩
      rintro _ ⟨⟩
      exact ⟨n, z, rfl⟩
    · refine .bind (iunlockput_take_runs calm.mid (calm.unlocked n)) ?_
      rintro - _ rfl
      exact .ret ⟨fun _ => rfl, nofun⟩

end Xv6.Dir
