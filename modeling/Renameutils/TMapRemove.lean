import Renameutils.TMapDelete

/-!
# Removing a node

`tmap_remove_node` takes the node, or its predecessor in its place, out of the tree.
-/

namespace Renameutils.TMap

open RBTree

variable {κ ν : Type} {map map' : TMap κ ν} {t l r T : RBTree (TMapItem κ ν)}
variable {path : Path (TMapItem κ ν)} {a b : TMapItem κ ν} {s : Side} {c : Bool} {i : Nat}

theorem Rep.free (h : Rep map T) (hi : (map.nodes.cells i).isSome) (hnil : i ≠ nil) (hT : i ∉ ids T) :
    ∃ map', map.freeNode i = some map' ∧ Rep map' T ∧ map'.size = map.size := by
  obtain ⟨n, hn⟩ := Option.isSome_iff_exists.mp hi
  have hcells : ∀ j, j ≠ i → (map.nodes.erase i).cells j = map.nodes.cells j := fun j hj =>
    Arena.erase_cells_ne hj
  refine ⟨{ map with nodes := map.nodes.erase i }, by rw [freeNode, Arena.free_eq hn]; rfl, ?_, rfl⟩
  exact ⟨h.tree.congr fun j hj => hcells j fun heq => hT (heq ▸ hj), h.root, h.nodup, h.nonnil,
    (hcells nil hnil.symm).trans h.nilNode⟩

theorem Rep.adopt (h : Rep map (plug (branch s c t a leaf) path)) :
    ∃ map₁ map₂, map.setParent (rootId t) (topId path) = some map₁ ∧
      map₁.replaceChild .left (topId path) a.id (rootId t) = some map₂ ∧ Rep map₂ (plug t path) ∧
      map₂.Keeps map := by
  have hat := rep_plug.mp h
  obtain ⟨-, ht, -⟩ := isTree_branch.mp hat.tree
  have habove := hat.above
  rw [rootId_branch] at habove
  have hnd := hat.nodup_branch
  simp only [ids_leaf, List.nil_append, List.nodup_cons, List.mem_append, not_or] at hnd
  obtain ⟨⟨hat', hap⟩, hndtp⟩ := hnd
  obtain ⟨hndt, hndp, hdis⟩ := List.nodup_append.mp hndtp
  have hnonnil : nil ∉ ids t ++ pathIds path := by
    have := hat.nonnil
    simp only [List.mem_append, mem_ids_branch] at this ⊢
    tauto
  obtain ⟨hnilt, hnilp⟩ := not_or.mp (mt List.mem_append.mpr hnonnil)
  obtain ⟨map₁, hrun₁, ht₁, hroot₁, hout₁⟩ := setParent_spec (i := topId path) ht hndt hnilt
  have hp₁ : IsPath map₁ path a.id := habove.congr hroot₁ fun i hi =>
    hout₁.cells i fun hit => hdis i hit i hi rfl
  obtain ⟨map₂, hrun₂, hp₂, hout₂⟩ := replaceChild_spec (s := .left) hp₁ hndp hnilp h.id_ne_nil hap
    (rootId t)
  refine ⟨map₁, map₂, hrun₁, hrun₂, rep_plug.mpr ⟨?_, hp₂, hndtp, hnonnil, ?_⟩,
    hout₂.keeps.trans hout₁.keeps⟩
  · exact hout₂.tree ht₁ fun i hi hip => hdis i hi i hip rfl
  · rw [hout₂.cells _ hnilp, hout₁.cells _ hnilt]
    exact hat.nilNode

theorem spliceOut_spec (h : Rep map (plug (branch s c t a leaf) path))
    (hb : (plug (branch s c t a leaf) path).Balanced) (hn : (plug (branch s c t a leaf) path).NoRedRed) :
    ∃ map' T, map.spliceOut a.id (rootId t) = some map' ∧ Rep map' T ∧ map'.size = map.size ∧
      T.toList = (plug t path).toList ∧ T.Balanced ∧ T.NoRedRed := by
  have hcell := h.node
  obtain ⟨map₁, map₂, hrun₁, hrun₂, h₂, hkeeps⟩ := h.adopt
  have hsome : (map₂.nodes.cells a.id).isSome := by rw [hkeeps.isSome, hcell]; rfl
  have hnotMem : a.id ∉ ids (plug t path) := by
    have hnd := (rep_plug.mp h).nodup_branch
    rw [ids_plug_perm.mem_iff]
    exact (List.nodup_cons.mp hnd).1
  have hrun : map.spliceOut a.id (rootId t) =
      if topId path ≠ nil ∧ c = false then do
        let map ← deleteRebalance map₂.fuel map₂ (rootId t) (topId path)
        map.freeNode a.id
      else map₂.freeNode a.id := by
    rw [spliceOut, hcell]
    simp [hrun₁, hrun₂]
  rw [hrun]
  by_cases hfix : topId path ≠ nil ∧ c = false
  · obtain ⟨hpath, rfl⟩ := hfix
    obtain ⟨n, hshort⟩ := short_splice_black hb hn
    obtain ⟨T, hdel, map₃, hrun₃, h₃, hkeeps₃⟩ := deleteRebalance_spec h₂ hshort map₂.fuel_pos
      (.inr h₂.path_lt_fuel)
    have hlist := hdel.toList
    obtain ⟨map₄, hrun₄, h₄, hsize₄⟩ := h₃.free (i := a.id) (by rw [hkeeps₃.isSome]; exact hsome)
      h.id_ne_nil (by rw [ids, hlist]; exact hnotMem)
    exact ⟨map₄, T, by rw [if_pos ⟨hpath, rfl⟩, hrun₃]; exact hrun₄, h₄,
      hsize₄.trans (hkeeps₃.size.trans hkeeps.size), hlist, hdel.redBlack hshort⟩
  · obtain ⟨map₄, hrun₄, h₄, hsize₄⟩ := h₂.free hsome h.id_ne_nil hnotMem
    refine ⟨map₄, _, by rw [if_neg hfix]; exact hrun₄, h₄, hsize₄.trans hkeeps.size, rfl, ?_⟩
    cases c with
    | true => exact redBlack_splice_red hb hn
    | false =>
      cases path with
      | nil => exact redBlack_splice_root hb hn
      | cons f path => exact absurd ⟨h₂.top_ne_nil, rfl⟩ hfix

/-- The last node of a tree: its predecessor's place in `tmap_remove_node`. -/
theorem lastLoop_spec {fuel : Nat} (h : Rep map (plug t path)) (ht : t ≠ leaf)
    (hf : (ids t).length < fuel) :
    ∃ c l, ∃ b : TMapItem κ ν, ∃ ext, t = plug (node c l b leaf) ext ∧ Path.after ext = [] ∧
      map.lastLoop fuel (rootId t) = some b.id := by
  induction t generalizing path fuel with
  | leaf => exact absurd rfl ht
  | node c l a r _ ih =>
    obtain _ | fuel := fuel
    · cases hf
    have hn := Rep.node (s := .left) h
    have hrun : map.lastLoop (fuel + 1) a.id =
        if rootId r ≠ nil then map.lastLoop fuel (rootId r) else some a.id := by
      rw [lastLoop, hn]; rfl
    show ∃ c' l', ∃ b : TMapItem κ ν, ∃ ext, _ ∧ _ ∧ map.lastLoop (fuel + 1) a.id = some b.id
    have hr : Rep map (plug r (⟨.right, c, a, l⟩ :: path)) := h
    by_cases hleaf : r = leaf
    · subst hleaf
      exact ⟨c, l, a, [], rfl, rfl, hrun⟩
    · have hlen : (ids r).length < fuel := by
        simp only [ids, toList, List.map_append, List.map_cons, List.length_append, List.length_cons] at hf ⊢
        omega
      obtain ⟨c', l', b, ext, rfl, hafter, hlast⟩ := ih hr hleaf hlen
      have hne : rootId (plug (node c' l' b leaf) ext) ≠ nil := fun hnil => hleaf (hr.eq_leaf hnil)
      refine ⟨c', l', b, ext ++ [⟨.right, c, a, l⟩], ?_, ?_, by rw [hrun, if_pos hne, hlast]⟩
      · rw [plug_append]; rfl
      · rw [Path.after_append, hafter]; rfl

/-- `tmap_remove_node` takes the key and the value at the node out of the tree. -/
theorem removeNode_spec (h : Rep map (plug (node c l a r) path))
    (hb : (plug (node c l a r) path).Balanced) (hn : (plug (node c l a r) path).NoRedRed) :
    ∃ map' T, map.removeNode a.id = some map' ∧ Rep map' T ∧ map'.size = map.size - 1 ∧
      T.toList.map (fun b => (b.key, b.value)) =
        (Path.before path ++ l.toList ++ (r.toList ++ Path.after path)).map (fun b => (b.key, b.value)) ∧
      T.Balanced ∧ T.NoRedRed := by
  let map₀ : TMap κ ν := { map with size := map.size - 1 }
  have h₀ : Rep map₀ (plug (node c l a r) path) := ⟨h.tree, h.root, h.nodup, h.nonnil, h.nilNode⟩
  have hcell := Rep.node (s := .left) h₀
  have hl : Rep map₀ (plug l (⟨.left, c, a, r⟩ :: path)) := h₀
  have hr : Rep map₀ (plug r (⟨.right, c, a, l⟩ :: path)) := h₀
  have hrun : map.removeNode a.id =
      (if rootId l = nil then map₀.spliceOut a.id (rootId r)
      else if rootId r = nil then map₀.spliceOut a.id (rootId l)
      else do
        let splice ← map₀.lastLoop map₀.fuel (rootId l)
        let m ← map₀.nodes.cells splice
        let map ← map₀.write a.id fun n => { n with key := m.key, value := m.value }
        map.spliceOut splice m.left) := by
    rw [removeNode, hcell]; rfl
  rw [hrun]
  by_cases hlnil : rootId l = nil
  · obtain rfl := hl.eq_leaf hlnil
    obtain ⟨map', T, hrun', h', hsize, hlist, hrb⟩ := spliceOut_spec (s := .right) h₀ hb hn
    exact ⟨map', T, by rw [if_pos hlnil]; exact hrun', h', hsize,
      by rw [hlist, toList_plug]; simp [toList], hrb⟩
  by_cases hrnil : rootId r = nil
  · obtain rfl := hr.eq_leaf hrnil
    obtain ⟨map', T, hrun', h', hsize, hlist, hrb⟩ := spliceOut_spec (s := .left) h₀ hb hn
    exact ⟨map', T, by rw [if_neg hlnil, if_pos hrnil]; exact hrun', h', hsize,
      by rw [hlist, toList_plug]; simp [toList], hrb⟩
  · -- the predecessor gives its key and value to the node
    have hlen : (ids l).length < map₀.fuel := by
      refine Nat.lt_of_le_of_lt ?_ hl.length_lt_fuel
      rw [ids_plug_perm.length_eq, List.length_append]
      omega
    obtain ⟨c', l', b, ext, rfl, hafter, hlast⟩ := lastLoop_spec hl (fun heq => hlnil (heq ▸ rfl)) hlen
    have hb' : Rep map₀ (plug (branch .left c' l' b leaf) (ext ++ ⟨.left, c, a, r⟩ :: path)) := by
      rw [plug_append]; exact hl
    have hbcell := hb'.node
    let a' : TMapItem κ ν := { a with key := b.key, value := b.value }
    obtain ⟨map₁, hrun₁, h₁, hkeeps⟩ := Rep.update (s := .left) (b := a') h₀
      (fun n => { n with key := some b.key, value := b.value }) rfl fun _ _ _ => rfl
    have hsplit : plug (branch .left c (plug (node c' l' b leaf) ext) a' r) path =
        plug (branch .left c' l' b leaf) (ext ++ ⟨.left, c, a', r⟩ :: path) := by
      rw [plug_append]; rfl
    obtain ⟨hb₁, hn₁⟩ := redBlack_replace (s := .left) (b := a') hb hn
    rw [hsplit] at h₁ hb₁ hn₁
    obtain ⟨map', T, hrun', h', hsize, hlist, hrb⟩ := spliceOut_spec h₁ hb₁ hn₁
    refine ⟨map', T, ?_, h', hsize.trans hkeeps.size, ?_, hrb⟩
    · rw [if_neg hlnil, if_neg hrnil, hlast]
      simp only [Option.bind_eq_bind, Option.bind_some, hbcell, nodeOf_key, nodeOf_value, hrun₁]
      exact hrun'
    · rw [hlist, toList_plug, toList_plug, Path.before_append, Path.after_append, hafter]
      simp [Path.before, Path.after, toList, a']

end Renameutils.TMap
