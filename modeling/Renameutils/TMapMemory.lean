import Renameutils.TMapRefines

/-!
# The memory of the red-black map

Whatever calls make a map, the nodes that are allocated are those of its tree and `nil`: a call leaks no node, and
`tmap_clear` and `tmap_free` free them all (`calls_noLeak`). Assignments and rotations allocate and free nothing, so
the nodes can be counted: `tmap_put` allocates one where the size grows, and `tmap_remove` frees one where it shrinks.
-/

namespace Renameutils.TMap

variable {κ ν : Type}

/-- `tmap_free`, up to the map itself. -/
def freeMap (map : TMap κ ν) : Option (Arena (TMapNode κ ν)) :=
  unlessNil (clearNodes map.fuel) map.nodes map.root

section
variable {map map' : TMap κ ν} {node parent child sibling uncle fuel i j : Nat} {s : Side}
  {f : TMapNode κ ν → TMapNode κ ν}

/-- The same nodes are allocated, and counted. -/
structure Same (map map' : TMap κ ν) : Prop where
  live : map'.nodes.live = map.nodes.live
  size : map'.size = map.size

theorem Same.refl (map : TMap κ ν) : Same map map := ⟨rfl, rfl⟩

theorem Same.trans {map'' : TMap κ ν} (h : Same map map') (h' : Same map' map'') : Same map map'' :=
  ⟨h'.live.trans h.live, h'.size.trans h.size⟩

theorem write_same (h : map.write i f = some map') : Same map map' := by
  obtain ⟨nodes, hnodes, h⟩ := Option.bind_eq_some_iff.mp h
  cases h
  exact ⟨Arena.live_write hnodes, rfl⟩

theorem setParent_same (h : map.setParent child parent = some map') : Same map map' := by
  unfold setParent at h
  split at h
  · exact write_same h
  · cases h
    exact .refl map

theorem replaceChild_same (h : map.replaceChild s parent node child = some map') : Same map map' := by
  unfold replaceChild at h
  split at h
  · obtain ⟨p, _, h⟩ := Option.bind_eq_some_iff.mp h
    split at h
    · exact write_same h
    · exact write_same h
  · cases h
    exact ⟨rfl, rfl⟩

theorem rotate_same (h : map.rotate s node = some map') : Same map map' := by
  simp only [rotate, Option.bind_eq_bind, Option.bind_eq_some_iff] at h
  obtain ⟨n, _, c, _, map₁, h₁, map₂, h₂, map₃, h₃, map₄, h₄, map₅, h₅, h₆⟩ := h
  exact (write_same h₁).trans ((setParent_same h₂).trans ((write_same h₃).trans
    ((replaceChild_same h₄).trans ((write_same h₅).trans (write_same h₆)))))

/-! ### `tmap_remove` -/

theorem redSibling_same (h : map.redSibling s parent = some (map', j)) : Same map map' := by
  simp only [redSibling, Option.bind_eq_bind, Option.bind_eq_some_iff] at h
  obtain ⟨p, _, n, _, h⟩ := h
  split at h
  · simp only [Option.bind_eq_some_iff] at h
    obtain ⟨map₁, h₁, map₂, h₂, map₃, h₃, q, _, h⟩ := h
    cases h
    exact (write_same h₁).trans ((write_same h₂).trans (rotate_same h₃))
  · cases h
    exact .refl map

theorem nearChild_same (h : map.nearChild s parent sibling = some (map', j)) : Same map map' := by
  simp only [nearChild, Option.bind_eq_bind, Option.bind_eq_some_iff] at h
  obtain ⟨n, _, far, _, h⟩ := h
  split at h
  · simp only [Option.bind_eq_some_iff] at h
    obtain ⟨map₁, h₁, map₂, h₂, map₃, h₃, q, _, h⟩ := h
    cases h
    exact (write_same h₁).trans ((write_same h₂).trans (rotate_same h₃))
  · cases h
    exact .refl map

theorem farChild_same (h : map.farChild s parent sibling = some map') : Same map map' := by
  simp only [farChild, Option.bind_eq_bind, Option.bind_eq_some_iff] at h
  obtain ⟨p, _, map₁, h₁, map₂, h₂, n, _, map₃, h₃, h₄⟩ := h
  exact (write_same h₁).trans ((write_same h₂).trans ((write_same h₃).trans (rotate_same h₄)))

theorem blackSibling_same (h : map.blackSibling s parent sibling = some (map', i, j)) : Same map map' := by
  simp only [blackSibling, Option.bind_eq_bind, Option.bind_eq_some_iff] at h
  obtain ⟨n, _, l, _, r, _, h⟩ := h
  split at h
  · simp only [Option.bind_eq_some_iff] at h
    obtain ⟨map₁, h₁, p, _, h⟩ := h
    cases h
    exact write_same h₁
  · simp only [Option.bind_eq_some_iff] at h
    obtain ⟨⟨map₁, k⟩, h₁, map₂, h₂, h⟩ := h
    cases h
    exact (nearChild_same h₁).trans (farChild_same h₂)

theorem deleteRebalance_same (h : deleteRebalance fuel map node parent = some map') : Same map map' := by
  induction fuel generalizing map node parent with
  | zero => cases h
  | succ fuel ih =>
    simp only [deleteRebalance, Option.bind_eq_bind, Option.bind_eq_some_iff] at h
    obtain ⟨n, _, h⟩ := h
    split at h
    · simp only [Option.bind_eq_some_iff] at h
      obtain ⟨p, _, ⟨map₁, k⟩, h₁, ⟨map₂, i, j⟩, h₂, h⟩ := h
      exact (redSibling_same h₁).trans ((blackSibling_same h₂).trans (ih h))
    · exact write_same h

/-- One node less is allocated. -/
structure OneLess (map map' : TMap κ ν) : Prop where
  live : map'.nodes.live.card + 1 = map.nodes.live.card
  size : map'.size = map.size

theorem Same.oneLess {map'' : TMap κ ν} (h : Same map map') (h' : OneLess map' map'') : OneLess map map'' :=
  ⟨h.live ▸ h'.live, h'.size.trans h.size⟩

theorem freeNode_oneLess (h : map.freeNode node = some map') : OneLess map map' := by
  obtain ⟨nodes, hnodes, h⟩ := Option.bind_eq_some_iff.mp h
  cases h
  obtain ⟨hmem, hlive⟩ := Arena.live_free hnodes
  exact ⟨by rw [hlive, Finset.card_erase_add_one hmem], rfl⟩

theorem spliceOut_oneLess (h : map.spliceOut node child = some map') : OneLess map map' := by
  simp only [spliceOut, Option.bind_eq_bind, Option.bind_eq_some_iff] at h
  obtain ⟨n, _, map₁, h₁, map₂, h₂, h⟩ := h
  have hsame := (setParent_same h₁).trans (replaceChild_same h₂)
  split at h
  · obtain ⟨map₃, h₃, h⟩ := Option.bind_eq_some_iff.mp h
    exact (hsame.trans (deleteRebalance_same h₃)).oneLess (freeNode_oneLess h)
  · exact hsame.oneLess (freeNode_oneLess h)

theorem removeNode_oneLess (h : map.removeNode node = some map') :
    OneLess { map with size := map.size - 1 } map' := by
  simp only [removeNode, Option.bind_eq_bind, Option.bind_eq_some_iff] at h
  obtain ⟨n, _, h⟩ := h
  split at h
  · exact spliceOut_oneLess h
  · split at h
    · exact spliceOut_oneLess h
    · simp only [Option.bind_eq_some_iff] at h
      obtain ⟨splice, _, m, _, map₁, h₁, h⟩ := h
      exact (write_same h₁).oneLess (spliceOut_oneLess h)

/-! ### `tmap_put` -/

theorem redUncle_same (h : map.redUncle node uncle = some (map', j)) : Same map map' := by
  simp only [redUncle, Option.bind_eq_bind, Option.bind_eq_some_iff] at h
  obtain ⟨n, _, map₁, h₁, map₂, h₂, u, _, map₃, h₃, h⟩ := h
  cases h
  exact (write_same h₁).trans ((write_same h₂).trans (write_same h₃))

theorem innerChild_same (h : map.innerChild s node = some (map', j)) : Same map map' := by
  simp only [innerChild, Option.bind_eq_bind, Option.bind_eq_some_iff] at h
  obtain ⟨n, _, p, _, h⟩ := h
  split at h
  · obtain ⟨map₁, h₁, h⟩ := Option.bind_eq_some_iff.mp h
    cases h
    exact rotate_same h₁
  · cases h
    exact .refl map

theorem outerChild_same (h : map.outerChild s node = some map') : Same map map' := by
  simp only [outerChild, Option.bind_eq_bind, Option.bind_eq_some_iff] at h
  obtain ⟨n, _, map₁, h₁, p, _, map₂, h₂, h₃⟩ := h
  exact (write_same h₁).trans ((write_same h₂).trans (rotate_same h₃))

theorem insertRebalance_same (h : insertRebalance fuel map node = some map') : Same map map' := by
  induction fuel generalizing map node with
  | zero => cases h
  | succ fuel ih =>
    simp only [insertRebalance, Option.bind_eq_bind, Option.bind_eq_some_iff] at h
    obtain ⟨n, _, p, _, h⟩ := h
    split at h
    · simp only [Option.bind_eq_some_iff] at h
      obtain ⟨g, _, u, _, h⟩ := h
      split at h
      · simp only [Option.bind_eq_some_iff] at h
        obtain ⟨⟨map₁, k⟩, h₁, h⟩ := h
        exact (redUncle_same h₁).trans (ih h)
      · simp only [Option.bind_eq_some_iff] at h
        obtain ⟨⟨map₁, k⟩, h₁, map₂, h₂, h⟩ := h
        exact (innerChild_same h₁).trans ((outerChild_same h₂).trans (ih h))
    · exact write_same h

/-! ### Calls -/

/-- The nodes that are allocated are `nil` and one for each entry. -/
def NoLeak (map : TMap κ ν) : Prop := map.nodes.live.card = map.size + 1

variable {compare : κ → κ → Int} {key : κ} {value old : Option ν}

theorem put_noLeak (hmap : NoLeak map) (h : map.put compare key value = some (map', old)) : NoLeak map' := by
  unfold NoLeak at hmap ⊢
  simp only [put, Option.bind_eq_bind, Option.bind_eq_some_iff] at h
  obtain ⟨⟨node, parent, c⟩, _, h⟩ := h
  split at h
  · simp only [Option.bind_eq_some_iff] at h
    obtain ⟨n, _, map₁, h₁, h⟩ := h
    cases h
    have hsame := write_same h₁
    rw [hsame.live, hsame.size, hmap]
  · -- the nodes with the new one
    have hcard (n : TMapNode κ ν) : (map.nodes.alloc n).1.live.card = map.size + 1 + 1 := by
      rw [Arena.live_alloc, Finset.card_insert_of_notMem (Arena.fresh_notMem_live _), hmap]
    split at h
    · simp only [Option.bind_eq_some_iff] at h
      obtain ⟨map₁, h₁, h⟩ := h
      cases h
      have hsame := write_same h₁
      rw [hsame.live, hsame.size]
      exact hcard _
    · simp only [Option.bind_eq_some_iff] at h
      obtain ⟨map₁, h₁, map₂, h₂, h⟩ := h
      cases h
      have hsame := (write_same h₁).trans (insertRebalance_same h₂)
      rw [hsame.live, hsame.size]
      exact hcard _

theorem remove_noLeak (hmap : NoLeak map) (hnil : nil ∈ map'.nodes.live)
    (h : map.remove compare key = some (map', old)) : NoLeak map' := by
  unfold NoLeak at hmap ⊢
  simp only [remove, Option.bind_eq_bind, Option.bind_eq_some_iff] at h
  obtain ⟨node, _, h⟩ := h
  split at h
  · simp only [Option.bind_eq_some_iff] at h
    obtain ⟨n, _, map₁, h₁, h⟩ := h
    cases h
    obtain ⟨hlive, hsize⟩ := removeNode_oneLess h₁
    have hpos : 0 < map'.nodes.live.card := Finset.card_pos.mpr ⟨nil, hnil⟩
    simp only at hlive hsize
    omega
  · cases h
    exact hmap

end

section Clear
open RBTree

variable {map map' : TMap κ ν} {T u : RBTree (TMapItem κ ν)} {parent fuel : Nat}

theorem clearNodes_card {nodes nodes' : Arena (TMapNode κ ν)} {u : RBTree (TMapItem κ ν)}
    (h : IsTree nodes parent u) (hnd : (ids u).Nodup) (hnil : nil ∉ ids u) (hf : (ids u).length < fuel)
    (hrun : unlessNil (clearNodes fuel) nodes (rootId u) = some nodes') :
    nodes'.live.card + (ids u).length = nodes.live.card := by
  induction u generalizing nodes nodes' parent fuel with
  | leaf =>
    cases hrun
    rfl
  | node red l a r ihl ihr =>
    obtain _ | fuel := fuel
    · cases hf
    obtain ⟨hn, hl, hr⟩ := h
    have hperm : (ids (node red l a r)).Perm (a.id :: (ids l ++ ids r)) := ids_branch_perm (s := .left)
    obtain ⟨ha, hndlr⟩ := List.nodup_cons.mp (hperm.nodup_iff.mp hnd)
    obtain ⟨hndl, hndr, hdis⟩ := List.nodup_append.mp hndlr
    rw [hperm.mem_iff] at hnil
    rw [hperm.length_eq] at hf ⊢
    simp only [List.mem_cons, List.mem_append, not_or, List.length_cons, List.length_append] at ha hnil hf ⊢
    have hfl : (ids l).length < fuel := by omega
    have hfr : (ids r).length < fuel := by omega
    -- the left subtree goes first, and the right one stays what it is
    obtain ⟨nodes₁, hrun₁, hcells₁⟩ := clearNodes_spec hl hndl hnil.2.1 hfl
    have hr₁ := hr.congr fun i hi => hcells₁ i fun hil => hdis i hil i hi rfl
    obtain ⟨nodes₂, hrun₂, -⟩ := clearNodes_spec hr₁ hndr hnil.2.2 hfr
    have hcardl := ihl hl hndl hnil.2.1 hfl hrun₁
    have hcardr := ihr hr₁ hndr hnil.2.2 hfr hrun₂
    have hn₁ := (hcells₁ _ ha.1).trans hn
    rw [unlessNil, if_pos (show rootId (node red l a r) ≠ nil from Ne.symm hnil.1), rootId, clearNodes, hn] at hrun
    simp only [Option.bind_eq_bind, Option.bind_some] at hrun
    change ((unlessNil (clearNodes fuel) nodes (rootId l)).bind _) = _ at hrun
    rw [hrun₁] at hrun
    simp only [Option.bind_some, hn₁] at hrun
    change ((unlessNil (clearNodes fuel) nodes₁ (rootId r)).bind _) = _ at hrun
    rw [hrun₂] at hrun
    obtain ⟨hmem, hlive⟩ := Arena.live_free hrun
    have hcard := Finset.card_erase_add_one hmem
    rw [← hlive] at hcard
    omega

theorem Rep.freeMap (h : Rep map T) (hsize : map.size = T.toList.length) (hmap : NoLeak map) :
    ∃ nodes, map.freeMap = some nodes ∧ nodes.live = {nil} ∧ nodes.cells nil = some .nilNode := by
  obtain ⟨nodes, hrun, hcells⟩ := clearNodes_spec h.tree h.nodup h.nonnil h.length_lt_fuel
  have hcard := clearNodes_card h.tree h.nodup h.nonnil h.length_lt_fuel hrun
  have hnil := (hcells _ h.nonnil).trans h.nilNode
  rw [← h.root] at hrun
  refine ⟨nodes, hrun, ?_, hnil⟩
  have hids : (ids T).length = T.toList.length := List.length_map _
  unfold NoLeak at hmap
  obtain ⟨i, hi⟩ := Finset.card_eq_one.mp (show nodes.live.card = 1 by omega)
  have hmem : nil ∈ nodes.live := by rw [Arena.mem_live, hnil]; rfl
  rw [hi, Finset.mem_singleton] at hmem
  rw [hi, ← hmem]

/-- `tmap_clear` is `tmap_free` of the nodes, with the fields set anew. -/
theorem clear_eq_freeMap (map : TMap κ ν) :
    map.clear = map.freeMap.map fun nodes => { nodes := nodes, root := nil, size := 0 } := by
  unfold clear freeMap unlessNil
  split
  · cases clearNodes map.fuel map.nodes map.root <;> rfl
  · rename_i hroot
    rw [not_not] at hroot
    rw [Option.map_some, ← hroot]

end Clear

section Calls
variable [LinearOrder κ] {compare : κ → κ → Int} {map map' : TMap κ ν} {T : RBTree (TMapItem κ ν)}
  {t : Table κ (Option ν)}

theorem Holds.nil_mem_live (h : Holds map T t) : nil ∈ map.nodes.live := by
  rw [Arena.mem_live, h.rep.nilNode]
  rfl

theorem Holds.step_noLeak (hcmp : IsComparator compare) (h : Holds map T t) (hmap : NoLeak map)
    (op : MapOp κ (Option ν)) : ∃ map', map.step compare op = some (map', (spec t op).2) ∧
      (∃ T', Holds map' T' (spec t op).1) ∧ NoLeak map' := by
  obtain ⟨map', hrun, T', h'⟩ := h.step hcmp op
  refine ⟨map', hrun, ⟨T', h'⟩, ?_⟩
  cases op with
  | put key value =>
    obtain ⟨⟨map₁, old⟩, h₁, heq⟩ := Option.bind_eq_some_iff.mp hrun
    cases heq
    exact put_noLeak hmap h₁
  | remove key =>
    obtain ⟨⟨map₁, old⟩, h₁, heq⟩ := Option.bind_eq_some_iff.mp hrun
    cases heq
    exact remove_noLeak hmap h'.nil_mem_live h₁
  | get key =>
    obtain ⟨value, _, heq⟩ := Option.bind_eq_some_iff.mp hrun
    cases heq
    exact hmap
  | containsKey key =>
    obtain ⟨b, _, heq⟩ := Option.bind_eq_some_iff.mp hrun
    cases heq
    exact hmap
  | clear =>
    obtain ⟨map₁, h₁, heq⟩ := Option.bind_eq_some_iff.mp hrun
    cases heq
    obtain ⟨nodes, hfree, hlive, -⟩ := h.rep.freeMap h.size hmap
    rw [clear_eq_freeMap, hfree] at h₁
    cases h₁
    rw [NoLeak, hlive, Finset.card_singleton]
  | size =>
    obtain rfl : map = map' := congrArg Prod.fst (Option.some.inj hrun)
    exact hmap

/-- Whatever calls have made the map, the nodes that are allocated are `nil` and one for each entry, and `tmap_free`
leaves `nil` alone. -/
theorem calls_noLeak (hcmp : IsComparator compare) (ops : List (MapOp κ (Option ν))) :
    ∃ map nodes, runSteps (TMap.step compare) (TMap.new : TMap κ ν) ops =
        some (map, (specSteps spec Table.empty ops).2) ∧
      map.nodes.live.card = (specSteps spec Table.empty ops).1.size + 1 ∧
      map.freeMap = some nodes ∧ nodes.live = {nil} := by
  obtain ⟨map, hrun, ⟨T, h⟩, hmap⟩ := run_refines
    (R := fun (map : TMap κ ν) t => (∃ T, Holds map T t) ∧ NoLeak map)
    (fun _ _ op ⟨⟨_, h⟩, hmap⟩ => h.step_noLeak hcmp hmap op) ops ⟨⟨.leaf, .new⟩, rfl⟩
  obtain ⟨nodes, hfree, hlive, -⟩ := h.rep.freeMap h.size hmap
  exact ⟨map, nodes, hrun, h.size_eq ▸ hmap, hfree, hlive⟩

theorem calls_noLeak_sub :
    let ops : List (MapOp Int (Option Nat)) := [.put 2 (some 20), .put 1 (some 10), .remove 2, .clear, .put 3 none]
    ∃ map nodes, runSteps (TMap.step fun a b => a - b) (TMap.new : TMap Int Nat) ops =
        some (map, (specSteps spec Table.empty ops).2) ∧
      map.nodes.live.card = (specSteps spec Table.empty ops).1.size + 1 ∧
      map.freeMap = some nodes ∧ nodes.live = {nil} :=
  calls_noLeak ⟨fun a b => Int.sub_pos, fun a b => by omega⟩ _

end Calls

end Renameutils.TMap
