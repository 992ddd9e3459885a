import Renameutils.TMapRotate
import Renameutils.Lib.Rebalance

/-!
# Insertion

`tmap_insert_rebalance` rebalances the tree as `InsertFix` says.
-/

namespace Renameutils.TMap

open RBTree

variable {κ ν : Type} {map map' : TMap κ ν} {t w x y u : RBTree (TMapItem κ ν)}
variable {path : Path (TMapItem κ ν)} {f g : Frame (TMapItem κ ν)} {a b : TMapItem κ ν} {s s' : Side}
variable {r c : Bool}

theorem insertRebalance_stop (h : Rep map (plug t path)) (ht : rootId t ≠ nil)
    (hpath : Path.isRed path = false ∨ path.tail = []) (fuel : Nat) :
    Becomes (insertRebalance (fuel + 1) map (rootId t)) (plug t path).blacken map := by
  obtain ⟨n, hn, hnp⟩ := h.root_parent ht
  obtain ⟨p, hp, hred, hpp⟩ := h.above
  have hstop : ¬ (p.red = true ∧ p.parent ≠ nil) := by
    rw [hred, hpp]
    rintro ⟨hr, hnil⟩
    rcases hpath with hb | htail
    · rw [hb] at hr; cases hr
    · rw [htail] at hnil; exact hnil rfl
  have hrun : insertRebalance (fuel + 1) map (rootId t) = map.write map.root (.setRed false) := by
    rw [insertRebalance, hn]
    simp only [Option.bind_eq_bind, Option.bind_some, hnp, hp, if_neg hstop]
  have h' : Rep map (plug (plug t path) []) := h
  rw [hrun, h.root]
  exact h'.blacken

/-- A red uncle: parent and uncle become black, the grandparent red. -/
theorem redUncle_spec (h : Rep map (plug t (⟨s', true, a, w⟩ :: ⟨s, c, b, u⟩ :: path))) (ht : rootId t ≠ nil)
    (hu : u.isRed = true) :
    ∃ map', map.redUncle (rootId t) (rootId u) = some (map', b.id) ∧
      Rep map' (plug (branch s true (branch s' false t a w) b u.blacken) path) ∧ map'.Keeps map := by
  obtain ⟨n, hn, hnp⟩ := h.root_parent ht
  rw [plug_cons] at h
  obtain ⟨map₁, hrun₁, h₁, hkeeps₁⟩ := Rep.setRed h false
  rw [plug_swap] at h₁
  obtain ⟨map₂, hrun₂, h₂, hkeeps₂⟩ := h₁.blacken
  have huroot : rootId u.blacken = rootId u := by cases u <;> rfl
  have hune : rootId u ≠ nil := by
    obtain rfl | ⟨r, x, d, y, rfl⟩ := u.eq_leaf_or_branch .left
    · cases hu
    · exact h₁.rootId_ne_nil
  obtain ⟨m, hm, hmp⟩ := h₂.root_parent (huroot ▸ hune)
  rw [huroot] at hm
  rw [← plug_swap, plug_cons] at h₂
  obtain ⟨map₃, hrun₃, h₃, hkeeps₃⟩ := Rep.setRed h₂ true
  refine ⟨map₃, ?_, h₃, hkeeps₃.trans (hkeeps₂.trans hkeeps₁)⟩
  rw [redUncle, hn]
  simp only [Option.bind_eq_bind, Option.bind_some, hnp, topId, hrun₁, hrun₂, hm, hmp, hrun₃]

/-- A new node on the inside is rotated to the outside, and changes places with its parent. -/
theorem innerChild_inner
    (h : Rep map (plug (branch s r x a y) (⟨s.other, true, b, w⟩ :: path))) :
    ∃ map', map.innerChild s a.id = some (map', b.id) ∧
      Rep map' (plug (branch s true w b x) (⟨s, r, a, y⟩ :: path)) ∧ map'.Keeps map := by
  have hn := h.node
  have hp := h.top
  rw [plug_swap, Side.other_other, plug_cons] at h
  obtain ⟨map', hrun, h', hkeeps⟩ := Rep.rotate h
  refine ⟨map', ?_, h', hkeeps⟩
  rw [innerChild, hn]
  simp only [Option.bind_eq_bind, Option.bind_some, nodeOf_parent, topId, hp]
  simp [nodeOf_other, hrun]

theorem innerChild_outer (h : Rep map (plug t (⟨s, c, b, w⟩ :: path))) (ht : rootId t ≠ nil) :
    map.innerChild s (rootId t) = some (map, rootId t) := by
  obtain ⟨n, hn, hnp⟩ := h.root_parent ht
  have hp := h.top
  have hne := h.sibling_ne (.inl ht)
  rw [innerChild, hn]
  simp only [Option.bind_eq_bind, Option.bind_some, hnp, topId, hp]
  simp [hne]

theorem outerChild_spec (h : Rep map (plug t (⟨s, r, a, w⟩ :: ⟨s, c, b, u⟩ :: path))) (ht : rootId t ≠ nil) :
    Becomes (map.outerChild s (rootId t)) (plug (branch s false t a (branch s true w b u)) path) map := by
  obtain ⟨n, hn, hnp⟩ := h.root_parent ht
  rw [plug_cons] at h
  obtain ⟨map₁, hrun₁, h₁, hkeeps₁⟩ := Rep.setRed h false
  have hp := h₁.node
  rw [plug_cons] at h₁
  obtain ⟨map₂, hrun₂, h₂, hkeeps₂⟩ := Rep.setRed h₁ true
  have htree : branch s true (branch s false t a w) b u =
      branch s.other true u b (branch s.other false w a t) := by
    rw [branch_other, branch_other]
  rw [htree] at h₂
  obtain ⟨map₃, hrun₃, h₃, hkeeps₃⟩ := h₂.rotate
  rw [branch_other, branch_other] at h₃
  refine ⟨map₃, ?_, h₃, hkeeps₃.trans (hkeeps₂.trans hkeeps₁)⟩
  rw [outerChild, hn]
  simp only [Option.bind_eq_bind, Option.bind_some, hnp, topId, hrun₁, hp, nodeOf_parent, hrun₂, hrun₃]

/-- With a black uncle the loop ends after this turn. -/
theorem rotate_spec (h : Rep map (plug t (⟨s', true, a, w⟩ :: ⟨s, c, b, u⟩ :: path))) (ht : rootId t ≠ nil)
    (hu : u.isRed = false) :
    ∃ map₁ map₂ i t₁ path₁, map.innerChild s (rootId t) = some (map₁, i) ∧
      map₁.outerChild s i = some map₂ ∧ i = rootId t₁ ∧ rootId t₁ ≠ nil ∧
      InsertFix t (⟨s', true, a, w⟩ :: ⟨s, c, b, u⟩ :: path) (plug t₁ path₁) ∧
      Path.isRed path₁ = false ∧ Rep map₂ (plug t₁ path₁) ∧ map₂.Keeps map := by
  rcases Side.eq_or_eq_other s s' with rfl | rfl
  · have hin := innerChild_outer h ht
    obtain ⟨map₂, hrun, h₂, hkeeps⟩ := outerChild_spec h ht
    exact ⟨map, map₂, _, t, ⟨s', false, a, branch s' true w b u⟩ :: path, hin, hrun, rfl, ht, .outer hu, rfl,
      h₂, hkeeps⟩
  · obtain rfl | ⟨r, x, d, y, rfl⟩ := t.eq_leaf_or_branch s
    · exact absurd rfl ht
    obtain ⟨map₁, hin, h₁, hkeeps₁⟩ := innerChild_inner h
    have ht₁ := Rep.rootId_ne_nil h₁
    obtain ⟨map₂, hrun, h₂, hkeeps₂⟩ := outerChild_spec h₁ ht₁
    rw [rootId_branch] at hrun
    exact ⟨map₁, map₂, _, branch s true w a x, ⟨s, false, d, branch s true y b u⟩ :: path,
      by rw [rootId_branch]; exact hin, hrun, rootId_branch.symm, ht₁, .inner hu, rfl, h₂,
      hkeeps₂.trans hkeeps₁⟩

theorem insertRebalance_spec {fuel : Nat} (h : Rep map (plug t path)) (ht : rootId t ≠ nil)
    (hf : path.length < fuel) :
    ∃ t', InsertFix t path t' ∧
      Becomes (insertRebalance fuel map (rootId t)) t'.blacken map := by
  induction fuel generalizing map t path with
  | zero => cases hf
  | succ fuel ih =>
    by_cases hpath : Path.isRed path = false
    · exact ⟨_, .black hpath, insertRebalance_stop h ht (.inl hpath) fuel⟩
    obtain _ | ⟨⟨s', r, a, w⟩, _ | ⟨⟨s, c, b, u⟩, path⟩⟩ := path
    · exact absurd rfl hpath
    · exact ⟨_, .root, insertRebalance_stop h ht (.inr rfl) fuel⟩
    obtain rfl : r = true := by simpa [Path.isRed] using hpath
    obtain ⟨n, hn, hnp⟩ := h.root_parent ht
    have hp := h.top
    have hup : Rep map (plug (branch s' true t a w) (⟨s, c, b, u⟩ :: path)) := h
    have hg := hup.top
    have hbnil := hup.top_ne_nil
    have hside := hup.sibling_ne (.inl (Rep.rootId_ne_nil hup))
    rw [rootId_branch] at hg hside
    rw [plug_swap] at hup
    obtain ⟨un, hun, hunr⟩ := hup.root_red
    have hbody : insertRebalance (fuel + 1) map (rootId t) =
        if u.isRed then
          (map.redUncle (rootId t) (rootId u)).bind fun x => insertRebalance fuel x.1 x.2
        else
          (map.innerChild s (rootId t)).bind fun x =>
            (x.1.outerChild s x.2).bind fun map => insertRebalance fuel map x.2 := by
      rw [insertRebalance, hn]
      simp only [Option.bind_eq_bind, Option.bind_some, hnp, topId] at hp hg hside ⊢
      simp [hp, hbnil, hg, side_eq hside, hun, hunr]
    rw [hbody]
    cases hu : u.isRed with
    | true =>
      obtain ⟨map₁, hrun, h₁, hkeeps⟩ := redUncle_spec h ht hu
      have hlen : path.length < fuel := by simp only [List.length_cons] at hf; omega
      obtain ⟨t', hfix, map₂, hrun₂, h₂, hkeeps₂⟩ := ih h₁ h₁.rootId_ne_nil hlen
      rw [rootId_branch] at hrun₂
      exact ⟨t', .recolor hu hfix, map₂, by simp [hrun, hrun₂], h₂, hkeeps₂.trans hkeeps⟩
    | false =>
      obtain ⟨map₁, map₂, i, t₁, path₁, hin, hout, rfl, ht₁, hfix, hblack, h₂, hkeeps⟩ := rotate_spec h ht hu
      obtain ⟨fuel, rfl⟩ : ∃ k, fuel = k + 1 :=
        Nat.exists_eq_succ_of_ne_zero (by simp only [List.length_cons] at hf; omega)
      obtain ⟨map₃, hrun₃, h₃, hkeeps₃⟩ := insertRebalance_stop h₂ ht₁ (.inl hblack) fuel
      exact ⟨_, hfix, map₃, by simp [hin, hout, hrun₃], h₃, hkeeps₃.trans hkeeps⟩

end Renameutils.TMap
