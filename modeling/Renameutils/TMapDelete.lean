import Renameutils.TMapRotate
import Renameutils.Lib.Rebalance

/-!
# Deletion

`tmap_delete_rebalance` rebalances the tree as `DeleteFix` says.
-/

namespace Renameutils.TMap

open RBTree

variable {κ ν : Type} {map map' : TMap κ ν} {t w x y z : RBTree (TMapItem κ ν)}
variable {path : Path (TMapItem κ ν)} {f g : Frame (TMapItem κ ν)} {a b d : TMapItem κ ν} {s s' : Side}
variable {r c : Bool} {n i : Nat}

theorem rootId_plug_mem : rootId (plug t (f :: path)) ∈ pathIds (f :: path) := by
  induction path generalizing t f with
  | nil =>
    rw [plug_cons, plug_nil, Frame.fill, rootId_branch]
    exact List.mem_cons_self
  | cons g path ih =>
    have := ih (t := f.fill t) (f := g)
    rw [plug_cons]
    exact List.mem_cons_of_mem _ (List.mem_append_right _ this)

theorem Rep.root_ne (h : Rep map (plug t (f :: path))) : rootId t ≠ map.root := by
  rw [h.root]
  intro heq
  have hat := rep_plug.mp h
  have hmem : rootId t ∈ pathIds (f :: path) := heq ▸ rootId_plug_mem
  have hnil : rootId t ≠ nil := fun hn => hat.nonnil (List.mem_append_right _ (hn ▸ hmem))
  exact (List.nodup_append.mp hat.nodup).2.2 _ (rootId_mem hnil) _ hmem rfl

theorem deleteRebalance_stop (h : Rep map (plug t path)) (ht : t.isRed = true ∨ path = []) (fuel : Nat)
    (parent : Nat) :
    Becomes (deleteRebalance (fuel + 1) map (rootId t) parent) (plug t.blacken path) map := by
  obtain ⟨n, hn, hred⟩ := h.root_red
  have hstop : ¬ (rootId t ≠ map.root ∧ n.red = false) := by
    rintro ⟨hne, hr⟩
    rcases ht with ht | rfl
    · rw [hred, ht] at hr; cases hr
    · exact hne h.root.symm
  have hrun : deleteRebalance (fuel + 1) map (rootId t) parent = map.write (rootId t) (.setRed false) := by
    rw [deleteRebalance, hn]
    simp only [Option.bind_eq_bind, Option.bind_some, if_neg hstop]
  rw [hrun]
  exact h.blacken

/-- A red sibling: it takes the place of the parent, which becomes red. -/
theorem redSibling_red (h : Rep map (plug t (⟨s, c, a, branch s true y b z⟩ :: path))) :
    ∃ map', map.redSibling s a.id = some (map', rootId y) ∧
      Rep map' (plug t (⟨s, true, a, y⟩ :: ⟨s, false, b, z⟩ :: path)) ∧ map'.Keeps map := by
  have hp := h.top
  rw [plug_swap] at h
  have hn := h.node
  obtain ⟨map₁, hrun₁, h₁, hkeeps₁⟩ := Rep.setRed h false
  rw [← plug_swap, plug_cons] at h₁
  obtain ⟨map₂, hrun₂, h₂, hkeeps₂⟩ := Rep.setRed h₁ true
  obtain ⟨map₃, hrun₃, h₃, hkeeps₃⟩ := h₂.rotate
  have h₄ : Rep map₃ (plug t (⟨s, true, a, y⟩ :: ⟨s, false, b, z⟩ :: path)) := h₃
  have hp₄ := h₄.top
  refine ⟨map₃, ?_, h₄, hkeeps₃.trans (hkeeps₂.trans hkeeps₁)⟩
  rw [redSibling, hp]
  simp [hn, hrun₁, hrun₂, hrun₃, hp₄]

theorem redSibling_black (h : Rep map (plug t (⟨s, c, a, w⟩ :: path))) (hw : w.isRed = false) :
    map.redSibling s a.id = some (map, rootId w) := by
  have hp := h.top
  rw [plug_swap] at h
  obtain ⟨n, hn, hred⟩ := h.root_red
  rw [hw] at hred
  rw [redSibling, hp]
  simp [hn, hred]

/-- The near child of the sibling is red: it takes the place of the sibling. -/
theorem nearChild_near
    (h : Rep map (plug t (⟨s, c, a, branch s false (branch s true x d y) b z⟩ :: path)))
    (hz : z.isRed = false) :
    ∃ map', map.nearChild s a.id b.id = some (map', d.id) ∧
      Rep map' (plug t (⟨s, c, a, branch s false x d (branch s true y b z)⟩ :: path)) ∧
      map'.Keeps map := by
  rw [plug_swap] at h
  have hn := h.node
  -- the far child
  have hfar : Rep map (plug z (⟨s.other, false, b, branch s true x d y⟩ ::
      ⟨s.other, c, a, t⟩ :: path)) := by
    rw [← plug_swap]; exact h
  obtain ⟨m, hm, hred⟩ := hfar.root_red
  rw [hz] at hred
  -- the near child
  have hnear : Rep map (plug (branch s true x d y) (⟨s, false, b, z⟩ :: ⟨s.other, c, a, t⟩ :: path)) := h
  obtain ⟨map₁, hrun₁, h₁, hkeeps₁⟩ := Rep.setRed hnear false
  rw [plug_cons] at h₁
  obtain ⟨map₂, hrun₂, h₂, hkeeps₂⟩ := Rep.setRed h₁ true
  have htree : branch s true (branch s false x d y) b z =
      branch s.other true z b (branch s.other false y d x) := by
    rw [branch_other, branch_other]
  rw [htree] at h₂
  obtain ⟨map₃, hrun₃, h₃, hkeeps₃⟩ := h₂.rotate
  rw [branch_other, branch_other, ← plug_swap] at h₃
  have hp₃ := h₃.top
  rw [rootId_branch] at hp₃
  refine ⟨map₃, ?_, h₃, hkeeps₃.trans (hkeeps₂.trans hkeeps₁)⟩
  rw [nearChild, hn]
  simp [hm, hred, hrun₁, hrun₂, hrun₃, hp₃]

theorem nearChild_far (h : Rep map (plug t (⟨s, c, a, branch s r y b z⟩ :: path))) (hz : z.isRed = true) :
    map.nearChild s a.id b.id = some (map, b.id) := by
  rw [plug_swap] at h
  have hn := h.node
  have hfar : Rep map (plug z (⟨s.other, r, b, y⟩ :: ⟨s.other, c, a, t⟩ :: path)) := by
    rw [← plug_swap]; exact h
  obtain ⟨m, hm, hred⟩ := hfar.root_red
  rw [hz] at hred
  rw [nearChild, hn]
  simp [hm, hred]

/-- The far child of the sibling is red: the sibling takes the place of the parent. -/
theorem farChild_spec (h : Rep map (plug t (⟨s, c, a, branch s r y b z⟩ :: path))) :
    Becomes (map.farChild s a.id b.id) (plug (branch s c (branch s false t a y) b z.blacken) path)
      map := by
  have hp := h.top
  rw [plug_swap] at h
  obtain ⟨map₁, hrun₁, h₁, hkeeps₁⟩ := Rep.setRed h c
  rw [← plug_swap, plug_cons] at h₁
  obtain ⟨map₂, hrun₂, h₂, hkeeps₂⟩ := Rep.setRed h₁ false
  have hsib : Rep map₂ (plug (branch s c y b z) (⟨s.other, false, a, t⟩ :: path)) := by
    rw [← plug_swap]; exact h₂
  have hn := hsib.node
  have hfar : Rep map₂ (plug z (⟨s.other, c, b, y⟩ :: ⟨s.other, false, a, t⟩ :: path)) := by
    rw [← plug_swap]; exact hsib
  obtain ⟨map₃, hrun₃, h₃, hkeeps₃⟩ := hfar.blacken
  rw [← plug_swap, plug_cons, Frame.fill, ← plug_swap, plug_cons] at h₃
  obtain ⟨map₄, hrun₄, h₄, hkeeps₄⟩ := Rep.rotate h₃
  refine ⟨map₄, ?_, h₄, hkeeps₄.trans (hkeeps₃.trans (hkeeps₂.trans hkeeps₁))⟩
  rw [farChild, hp]
  simp [hrun₁, hrun₂, hn, hrun₃, hrun₄]

theorem blackSibling_eq (h : Rep map (plug t (⟨s, c, a, branch s r y b z⟩ :: path))) :
    map.blackSibling s a.id b.id =
      (if y.isRed = false ∧ z.isRed = false then do
        let map ← map.write b.id (.setRed true)
        let p ← map.nodes.cells a.id
        some (map, a.id, p.parent)
      else do
        let (map, sibling) ← map.nearChild s a.id b.id
        let map ← map.farChild s a.id sibling
        some (map, map.root, a.id)) := by
  rw [plug_swap] at h
  have hn := h.node
  have hnear : Rep map (plug y (⟨s, r, b, z⟩ :: ⟨s.other, c, a, t⟩ :: path)) := h
  have hfar : Rep map (plug z (⟨s.other, r, b, y⟩ :: ⟨s.other, c, a, t⟩ :: path)) := by
    rw [← plug_swap]; exact h
  obtain ⟨l, hl, hlred⟩ := hnear.root_red
  obtain ⟨m, hm, hmred⟩ := hfar.root_red
  rw [blackSibling, hn, ← hlred, ← hmred]
  cases s <;> simp [nodeOf, hl, hm, and_comm]

theorem blackSibling_up (h : Rep map (plug t (⟨s, c, a, branch s false y b z⟩ :: path)))
    (hy : y.isRed = false) (hz : z.isRed = false) :
    ∃ map', map.blackSibling s a.id b.id = some (map', a.id, topId path) ∧
      Rep map' (plug (branch s c t a (branch s true y b z)) path) ∧ map'.Keeps map := by
  rw [blackSibling_eq h, if_pos ⟨hy, hz⟩]
  rw [plug_swap] at h
  obtain ⟨map₁, hrun₁, h₁, hkeeps₁⟩ := Rep.setRed h true
  rw [← plug_swap, plug_cons] at h₁
  have hp := Rep.node h₁
  exact ⟨map₁, by simp [hrun₁, hp], h₁, hkeeps₁⟩

theorem blackSibling_done (h : Rep map (plug t (⟨s, c, a, branch s false y b z⟩ :: path)))
    (ht : t.isRed = false) (hyz : ¬ (y.isRed = false ∧ z.isRed = false)) :
    ∃ map' T, map.blackSibling s a.id b.id = some (map', map'.root, a.id) ∧ Rep map' T ∧
      map'.Keeps map ∧ DeleteFix t (⟨s, c, a, branch s false y b z⟩ :: path) T.blacken := by
  rw [blackSibling_eq h, if_neg hyz]
  cases hz : z.isRed with
  | true =>
    have hnear := nearChild_far h hz
    obtain ⟨map', hrun, h', hkeeps⟩ := farChild_spec h
    exact ⟨map', _, by simp [hnear, hrun], h', hkeeps, .far ht hz⟩
  | false =>
    obtain rfl | ⟨r, x, d, y, rfl⟩ := y.eq_leaf_or_branch s
    · exact absurd ⟨rfl, hz⟩ hyz
    obtain rfl : r = true := by simpa [hz] using hyz
    obtain ⟨map₁, hnear, h₁, hkeeps₁⟩ := nearChild_near h hz
    obtain ⟨map', hrun, h', hkeeps⟩ := farChild_spec h₁
    rw [blacken_branch] at h'
    exact ⟨map', _, by simp [hnear, hrun], h', hkeeps.trans hkeeps₁, .near ht hz⟩

/-- The rest of a turn, and of the loop, once the sibling is black. -/
theorem deleteRebalance_turn {fuel : Nat} (ih : ∀ {map : TMap κ ν} {t : RBTree (TMapItem κ ν)}
      {path : Path (TMapItem κ ν)} {n : Nat}, Rep map (plug t path) → Short t path n →
      (t.isRed = true ∨ path.length < fuel) → ∃ t', DeleteFix t path t' ∧
        Becomes (deleteRebalance fuel map (rootId t) (topId path)) t' map)
    (hf : 0 < fuel)
    (h : Rep map (plug t (⟨s, c, a, w⟩ :: path))) (hshort : Short t (⟨s, c, a, w⟩ :: path) n)
    (ht : t.isRed = false) (hw : w.isRed = false) (hpath : c = true ∨ path.length < fuel) :
    ∃ t', DeleteFix t (⟨s, c, a, w⟩ :: path) t' ∧
      Becomes (do
        let (map, i, parent) ← map.blackSibling s a.id (rootId w)
        deleteRebalance fuel map i parent) t' map := by
  obtain ⟨r, y, b, z, rfl⟩ : ∃ r y b z, w = branch s r y b z := hshort.exists_sibling
  obtain rfl : r = false := isRed_branch.symm.trans hw
  rw [rootId_branch]
  by_cases hyz : y.isRed = false ∧ z.isRed = false
  · obtain ⟨map₁, hrun₁, h₁, hkeeps₁⟩ := blackSibling_up h hyz.1 hyz.2
    obtain ⟨t', hfix, map₂, hrun₂, h₂, hkeeps₂⟩ := ih h₁ (hshort.up ht hyz.1 hyz.2)
      (by rwa [isRed_branch])
    rw [rootId_branch] at hrun₂
    exact ⟨t', .up ht hyz.1 hyz.2 hfix, map₂, by simp [hrun₁, hrun₂], h₂, hkeeps₂.trans hkeeps₁⟩
  · obtain ⟨map₁, T, hrun₁, h₁, hkeeps₁, hfix⟩ := blackSibling_done h ht hyz
    obtain ⟨fuel, rfl⟩ := Nat.exists_eq_succ_of_ne_zero (Nat.ne_of_gt hf)
    have h₁' : Rep map₁ (plug T []) := h₁
    obtain ⟨map₂, hrun₂, h₂, hkeeps₂⟩ := deleteRebalance_stop h₁' (.inr rfl) fuel a.id
    rw [← h₁.root] at hrun₂
    exact ⟨_, hfix, map₂, by simp [hrun₁, hrun₂], h₂, hkeeps₂.trans hkeeps₁⟩

theorem deleteRebalance_spec {fuel : Nat} (h : Rep map (plug t path)) (hshort : Short t path n)
    (hf : 0 < fuel) (hpath : t.isRed = true ∨ path.length < fuel) :
    ∃ t', DeleteFix t path t' ∧
      Becomes (deleteRebalance fuel map (rootId t) (topId path)) t' map := by
  induction fuel generalizing map t path n with
  | zero => cases hf
  | succ fuel ih =>
    obtain _ | ⟨⟨s, c, a, w⟩, path⟩ := path
    · exact ⟨_, .root, deleteRebalance_stop h (.inr rfl) fuel _⟩
    cases ht : t.isRed with
    | true => exact ⟨_, .red ht, deleteRebalance_stop h (.inl ht) fuel _⟩
    | false =>
      have hlen : path.length < fuel := by
        simpa [ht, List.length_cons] using hpath
      have hf : 0 < fuel := Nat.lt_of_le_of_lt (Nat.zero_le _) hlen
      obtain ⟨m, hm, hred⟩ := h.root_red
      rw [ht] at hred
      have hp := h.top
      obtain ⟨r, y, b, z, rfl⟩ : ∃ r y b z, w = branch s r y b z := hshort.exists_sibling
      have hside : rootId t ≠ rootId (branch s r y b z) := h.sibling_ne (.inr (by
        rw [plug_swap] at h
        exact h.rootId_ne_nil))
      have hbody : deleteRebalance (fuel + 1) map (rootId t) a.id = (do
          let (map, sibling) ← map.redSibling s a.id
          let (map, i, parent) ← map.blackSibling s a.id sibling
          deleteRebalance fuel map i parent) := by
        rw [deleteRebalance, hm]
        simp only [Option.bind_eq_bind, Option.bind_some]
        rw [if_pos ⟨h.root_ne, hred⟩, hp]
        simp only [Option.bind_some, side_eq hside]
      show ∃ t', _ ∧ Becomes (deleteRebalance (fuel + 1) map (rootId t) a.id) t' map
      rw [hbody]
      cases r with
      | true =>
        obtain ⟨hy, hshort₁⟩ := hshort.sibling
        obtain ⟨map₁, hrun₁, h₁, hkeeps₁⟩ := redSibling_red h
        obtain ⟨t', hfix, map₂, hrun₂, h₂, hkeeps₂⟩ := deleteRebalance_turn
          (fun h hshort hpath => ih h hshort hf hpath) hf h₁ hshort₁ ht hy (.inl rfl)
        exact ⟨t', .sibling ht hfix, map₂, by simpa [hrun₁] using hrun₂, h₂, hkeeps₂.trans hkeeps₁⟩
      | false =>
        have hrun₁ := redSibling_black h isRed_branch
        obtain ⟨t', hfix, map₂, hrun₂, h₂, hkeeps₂⟩ := deleteRebalance_turn
          (fun h hshort hpath => ih h hshort hf hpath) hf h hshort ht isRed_branch (.inr hlen)
        exact ⟨t', hfix, map₂, by rw [hrun₁]; exact hrun₂, h₂, hkeeps₂⟩

end Renameutils.TMap
