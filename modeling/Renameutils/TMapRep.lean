import Renameutils.TMap

/-!
# The tree in the nodes

`Rep map T`: the nodes of the map are those of the tree `T`, with the pointers that the tree gives them: each
node points to the roots of its subtrees and to its parent. `IsTree` says so of a subtree, `IsPath` of the
rest of the tree.
-/

namespace Renameutils

open RBTree

/-- What a node of the tree is: its address and what it holds. -/
structure TMapItem (κ ν : Type) where
  id : Nat
  key : κ
  value : Option ν

namespace TMap

variable {κ ν : Type}

/-- A node with the child `near` on the side `s` and the child `far` on the other. -/
def nodeOf (s : Side) (red : Bool) (near : Nat) (a : TMapItem κ ν) (far parent : Nat) : TMapNode κ ν :=
  match s with
  | .left => { key := a.key, value := a.value, red := red, left := near, right := far, parent := parent }
  | .right => { key := a.key, value := a.value, red := red, left := far, right := near, parent := parent }

def rootId : RBTree (TMapItem κ ν) → Nat
  | .leaf => nil
  | .node _ _ a _ => a.id

def topId : Path (TMapItem κ ν) → Nat
  | [] => nil
  | f :: _ => f.a.id

def IsTree (nodes : Arena (TMapNode κ ν)) (parent : Nat) : RBTree (TMapItem κ ν) → Prop
  | .leaf => True
  | .node red l a r => nodes.cells a.id = some (nodeOf .left red (rootId l) a (rootId r) parent) ∧
    IsTree nodes a.id l ∧ IsTree nodes a.id r

/-- `child` is what hangs at the place that the path leads to. -/
def IsPath (map : TMap κ ν) : Path (TMapItem κ ν) → Nat → Prop
  | [], child => map.root = child
  | f :: path, child =>
    map.nodes.cells f.a.id = some (nodeOf f.side f.red child f.a (rootId f.sibling) (topId path)) ∧
    IsTree map.nodes f.a.id f.sibling ∧ IsPath map path f.a.id

def ids (t : RBTree (TMapItem κ ν)) : List Nat := t.toList.map TMapItem.id

def pathIds : Path (TMapItem κ ν) → List Nat
  | [] => []
  | f :: path => f.a.id :: (ids f.sibling ++ pathIds path)

structure Rep (map : TMap κ ν) (T : RBTree (TMapItem κ ν)) : Prop where
  tree : IsTree map.nodes nil T
  root : map.root = rootId T
  nodup : (ids T).Nodup
  nonnil : nil ∉ ids T
  /-- `nil` is as it was made. -/
  nilNode : map.nodes.cells nil = some .nilNode

section NodeOf
variable {s : Side} {red : Bool} {near far parent i : Nat} {a : TMapItem κ ν}

@[simp] theorem nodeOf_child : (nodeOf s red near a far parent).child s = near := by cases s <;> rfl
@[simp] theorem nodeOf_child_other : (nodeOf s red near a far parent).child s.other = far := by
  cases s <;> rfl
@[simp] theorem nodeOf_parent : (nodeOf s red near a far parent).parent = parent := by cases s <;> rfl
@[simp] theorem nodeOf_red : (nodeOf s red near a far parent).red = red := by cases s <;> rfl
@[simp] theorem nodeOf_key : (nodeOf s red near a far parent).key = some a.key := by cases s <;> rfl
@[simp] theorem nodeOf_value : (nodeOf s red near a far parent).value = a.value := by cases s <;> rfl
@[simp] theorem setChild_nodeOf :
    (nodeOf s red near a far parent).setChild s i = nodeOf s red i a far parent := by cases s <;> rfl
@[simp] theorem setChild_other_nodeOf :
    (nodeOf s red near a far parent).setChild s.other i = nodeOf s red near a i parent := by
  cases s <;> rfl
@[simp] theorem setParent_nodeOf :
    (nodeOf s red near a far parent).setParent i = nodeOf s red near a far i := by cases s <;> rfl
@[simp] theorem setRed_nodeOf {red' : Bool} :
    (nodeOf s red near a far parent).setRed red' = nodeOf s red' near a far parent := by cases s <;> rfl

theorem nodeOf_other : nodeOf s.other red near a far parent = nodeOf s red far a near parent := by
  cases s <;> rfl

end NodeOf

variable {map map' : TMap κ ν} {nodes nodes' : Arena (TMapNode κ ν)} {t x y : RBTree (TMapItem κ ν)}
variable {path : Path (TMapItem κ ν)} {f : Frame (TMapItem κ ν)} {a : TMapItem κ ν} {s : Side} {red : Bool}
variable {i j parent child : Nat} {n : TMapNode κ ν}

@[simp] theorem rootId_leaf : rootId (leaf : RBTree (TMapItem κ ν)) = nil := rfl

@[simp] theorem rootId_branch : rootId (branch s red x a y) = a.id := by cases s <;> rfl

@[simp] theorem ids_leaf : ids (leaf : RBTree (TMapItem κ ν)) = [] := rfl

theorem mem_ids_branch : i ∈ ids (branch s red x a y) ↔ i = a.id ∨ i ∈ ids x ∨ i ∈ ids y := by
  cases s <;> simp [ids, branch, toList] <;> grind

theorem isTree_branch : IsTree nodes parent (branch s red x a y) ↔
    nodes.cells a.id = some (nodeOf s red (rootId x) a (rootId y) parent) ∧ IsTree nodes a.id x ∧
      IsTree nodes a.id y := by
  cases s
  · rfl
  · exact and_congr_right fun _ => and_comm

theorem isTree_plug :
    (IsTree map.nodes nil (plug t path) ∧ map.root = rootId (plug t path)) ↔
      IsTree map.nodes (topId path) t ∧ IsPath map path (rootId t) := by
  induction path generalizing t with
  | nil => rfl
  | cons f path ih =>
    rw [plug_cons, ih, Frame.fill, isTree_branch, rootId_branch]
    show _ ↔ _ ∧ _ ∧ _ ∧ _
    tauto

theorem ids_plug_perm : (ids (plug t path)).Perm (ids t ++ pathIds path) := by
  induction path generalizing t with
  | nil => simp [pathIds]
  | cons f path ih =>
    have hfill : (ids (f.fill t)).Perm (ids t ++ f.a.id :: ids f.sibling) := by
      cases hs : f.side
      · simp [ids, Frame.fill, hs, branch, toList]
      · simp only [ids, Frame.fill, hs, branch, toList, List.map_append, List.map_cons]
        exact List.perm_append_comm.trans List.perm_middle.symm
    refine ih.trans ((hfill.append_right _).trans ?_)
    simp [pathIds]

theorem IsTree.congr (h : IsTree nodes parent t) (hn : ∀ i ∈ ids t, nodes'.cells i = nodes.cells i) :
    IsTree nodes' parent t := by
  induction t generalizing parent with
  | leaf => trivial
  | node red l a r ihl ihr =>
    have hmem : ∀ i, i ∈ ids (node red l a r) ↔ i = a.id ∨ i ∈ ids l ∨ i ∈ ids r := fun i =>
      mem_ids_branch (s := .left)
    obtain ⟨ha, hl, hr⟩ := h
    exact ⟨(hn _ ((hmem _).mpr (.inl rfl))).trans ha,
      ihl hl fun i hi => hn i ((hmem i).mpr (.inr (.inl hi))),
      ihr hr fun i hi => hn i ((hmem i).mpr (.inr (.inr hi)))⟩

theorem IsPath.congr (h : IsPath map path child) (hroot : map'.root = map.root)
    (hn : ∀ i ∈ pathIds path, map'.nodes.cells i = map.nodes.cells i) : IsPath map' path child := by
  induction path generalizing child with
  | nil => exact hroot.trans h
  | cons f path ih =>
    obtain ⟨hf, hsib, hp⟩ := h
    exact ⟨(hn _ (by simp [pathIds])).trans hf, hsib.congr fun i hi => hn i (by simp [pathIds, hi]),
      ih hp fun i hi => hn i (by simp [pathIds, hi])⟩

theorem rootId_mem (h : rootId t ≠ nil) : rootId t ∈ ids t := by
  cases t with
  | leaf => exact absurd rfl h
  | node red l a r => exact mem_ids_branch (s := .left) |>.mpr (.inl rfl)

/-- The nodes of a tree in two parts. -/
structure At (map : TMap κ ν) (t : RBTree (TMapItem κ ν)) (path : Path (TMapItem κ ν)) : Prop where
  tree : IsTree map.nodes (topId path) t
  above : IsPath map path (rootId t)
  nodup : (ids t ++ pathIds path).Nodup
  nonnil : nil ∉ ids t ++ pathIds path
  nilNode : map.nodes.cells nil = some .nilNode

theorem rep_plug : Rep map (plug t path) ↔ At map t path := by
  have hperm : (ids (plug t path)).Perm (ids t ++ pathIds path) := ids_plug_perm
  constructor
  · intro h
    obtain ⟨ht, hp⟩ := isTree_plug.mp ⟨h.tree, h.root⟩
    exact ⟨ht, hp, hperm.nodup_iff.mp h.nodup, fun hi => h.nonnil (hperm.mem_iff.mpr hi), h.nilNode⟩
  · intro h
    obtain ⟨ht, hp⟩ := isTree_plug.mpr ⟨h.tree, h.above⟩
    exact ⟨ht, hp, hperm.nodup_iff.mpr h.nodup, fun hi => h.nonnil (hperm.mem_iff.mp hi), h.nilNode⟩

theorem Rep.node (h : Rep map (plug (branch s red x a y) path)) :
    map.nodes.cells a.id = some (nodeOf s red (rootId x) a (rootId y) (topId path)) :=
  (isTree_branch.mp (rep_plug.mp h).tree).1

theorem Rep.top (h : Rep map (plug t (f :: path))) :
    map.nodes.cells f.a.id = some (nodeOf f.side f.red (rootId t) f.a (rootId f.sibling) (topId path)) :=
  (rep_plug.mp h).above.1

theorem Rep.root_red (h : Rep map (plug t path)) :
    ∃ n, map.nodes.cells (rootId t) = some n ∧ n.red = t.isRed := by
  cases t with
  | leaf => exact ⟨_, h.nilNode, rfl⟩
  | node red l a r => exact ⟨_, Rep.node (s := .left) h, nodeOf_red⟩

theorem Rep.id_ne_nil (h : Rep map (plug (branch s red x a y) path)) : a.id ≠ nil := by
  rintro heq
  refine (rep_plug.mp h).nonnil (List.mem_append_left _ (mem_ids_branch.mpr (.inl heq.symm)))

theorem Rep.top_ne_nil (h : Rep map (plug t (f :: path))) : f.a.id ≠ nil := by
  have h' : Rep map (plug (branch f.side f.red t f.a f.sibling) path) := h
  exact h'.id_ne_nil

theorem Rep.rootId_ne_nil (h : Rep map (plug (branch s red x a y) path)) :
    rootId (branch s red x a y) ≠ nil := rootId_branch.symm ▸ h.id_ne_nil

theorem Rep.eq_leaf (h : Rep map (plug t path)) (ht : rootId t = nil) : t = leaf := by
  obtain rfl | ⟨red, x, a, y, rfl⟩ := t.eq_leaf_or_branch .left
  · rfl
  · exact absurd ht h.rootId_ne_nil

theorem Rep.root_parent (h : Rep map (plug t path)) (ht : rootId t ≠ nil) :
    ∃ n, map.nodes.cells (rootId t) = some n ∧ n.parent = topId path := by
  cases t with
  | leaf => exact absurd rfl ht
  | node red l a r => exact ⟨_, Rep.node (s := .left) h, nodeOf_parent⟩

theorem Rep.above (h : Rep map (plug t path)) : ∃ p, map.nodes.cells (topId path) = some p ∧
    p.red = Path.isRed path ∧ p.parent = topId path.tail := by
  cases path with
  | nil => exact ⟨_, h.nilNode, rfl, rfl⟩
  | cons f path => exact ⟨_, h.top, nodeOf_red, nodeOf_parent⟩

/-- Two subtrees of a node have different roots, unless both are empty. -/
theorem Rep.sibling_ne (h : Rep map (plug t (f :: path))) (hnil : rootId t ≠ nil ∨ rootId f.sibling ≠ nil) :
    rootId t ≠ rootId f.sibling := by
  intro heq
  have ht : rootId t ≠ nil := hnil.elim id fun hs => heq ▸ hs
  have hmem := rootId_mem ht
  have hsib : rootId t ∈ ids f.sibling := heq ▸ rootId_mem (heq ▸ ht)
  exact (List.nodup_append.mp (rep_plug.mp h).nodup).2.2 _ hmem _ (by simp [pathIds, hsib]) rfl

theorem IsTree.cells_ne_none (h : IsTree nodes parent t) (hi : i ∈ ids t) : nodes.cells i ≠ none := by
  induction t generalizing parent with
  | leaf => cases hi
  | node red l a r ihl ihr =>
    obtain ⟨ha, hl, hr⟩ := h
    rcases (mem_ids_branch (s := .left)).mp hi with rfl | hi | hi
    · rw [ha]; exact Option.some_ne_none _
    · exact ihl hl hi
    · exact ihr hr hi

theorem Rep.length_lt_fuel {T : RBTree (TMapItem κ ν)} (h : Rep map T) : (ids T).length < map.fuel :=
  Nat.lt_succ_of_le (Arena.length_le_fresh h.nodup fun _ hi => h.tree.cells_ne_none hi)

theorem fuel_pos (map : TMap κ ν) : 0 < map.fuel := Nat.succ_pos _

theorem length_le_pathIds (path : Path (TMapItem κ ν)) : path.length ≤ (pathIds path).length := by
  induction path with
  | nil => exact Nat.le_refl _
  | cons f path ih =>
    simp only [pathIds, List.length_cons, List.length_append]
    omega

theorem Rep.path_lt_fuel (h : Rep map (plug t path)) : path.length < map.fuel := by
  refine Nat.lt_of_le_of_lt (length_le_pathIds path) (Nat.lt_of_le_of_lt ?_ h.length_lt_fuel)
  rw [ids_plug_perm.length_eq, List.length_append]
  omega

theorem side_eq (h : i ≠ j) :
    (if i = (nodeOf s red i a j parent).left then Side.left else .right) = s := by
  cases s
  · exact if_pos rfl
  · exact if_neg h

end TMap

end Renameutils
