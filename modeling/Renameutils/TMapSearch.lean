import Renameutils.TMapInsert
import Mathlib.Order.Defs.LinearOrder

/-!
# Searching and inserting

The loops of `tmap_get_node` and `tmap_put` go down to the node with a key, or to the place where a node with
the key belongs.
-/

namespace Renameutils.TMap

open RBTree

variable {κ ν : Type} {compare : κ → κ → Int} {map map' : TMap κ ν} {t T : RBTree (TMapItem κ ν)}
variable {path : Path (TMapItem κ ν)} {a b : TMapItem κ ν} {s : Side} {key : κ} {value : Option ν}

/-- `compare` is the three-way comparison of the order of the keys. -/
structure IsComparator [LinearOrder κ] (compare : κ → κ → Int) : Prop where
  pos_iff : ∀ a b, 0 < compare a b ↔ b < a
  neg_iff : ∀ a b, compare a b < 0 ↔ a < b

/-- What the tree maps to what, in the order of the nodes. -/
def entries (l : List (TMapItem κ ν)) : List (κ × Option ν) := l.map fun a => (a.key, a.value)

/-- The keys ascend from left to right. -/
def Ascending [LT κ] (l : List (TMapItem κ ν)) : Prop := (l.map TMapItem.key).Pairwise (· < ·)

/-- `tmap_put` and `tmap_get_node` go the same way. -/
theorem getNodeLoop_eq (compare : κ → κ → Int) (map : TMap κ ν) (key : κ) (fuel i parent : Nat) (c : Int) :
    map.getNodeLoop compare key fuel i = (map.putLoop compare key fuel i parent c).map (·.1) := by
  induction fuel generalizing i parent c with
  | zero => rfl
  | succ fuel ih =>
    rw [getNodeLoop, putLoop]
    by_cases hi : i = nil
    · simp [hi]
    · rw [if_neg hi, if_neg hi]
      cases hn : map.nodes.cells i with
      | none => rfl
      | some n =>
        simp only [Option.bind_eq_bind, Option.bind_some]
        cases n.key with
        | none => rfl
        | some k =>
          simp only [Option.bind_some]
          split
          · exact ih ..
          · split
            · exact ih ..
            · rfl

variable [LinearOrder κ]

/-- A place for the key. -/
def Between (key : κ) (path : Path (TMapItem κ ν)) : Prop :=
  (∀ a ∈ Path.before path, a.key < key) ∧ ∀ a ∈ Path.after path, key < a.key

/-- The last comparison says on which side of the node above the place is. -/
def LastTurn (c : Int) (path : Path (TMapItem κ ν)) : Prop :=
  ∀ f ∈ path.head?, f.side = if 0 < c then Side.right else .left

theorem Ascending.split {l r : RBTree (TMapItem κ ν)} {red : Bool}
    (h : Ascending (plug (node red l a r) path).toList) :
    (∀ b ∈ l.toList, b.key < a.key) ∧ ∀ b ∈ r.toList, a.key < b.key := by
  rw [Ascending, toList_plug, List.map_append, List.map_append] at h
  have hmid := (List.pairwise_append.mp (List.pairwise_append.mp h).1).2.1
  simp only [toList, List.map_append, List.map_cons, List.pairwise_append, List.pairwise_cons] at hmid
  obtain ⟨-, ⟨hr, -⟩, hl⟩ := hmid
  exact ⟨fun b hb => hl _ (List.mem_map_of_mem hb) _ List.mem_cons_self, fun b hb => hr _ (List.mem_map_of_mem hb)⟩

/-- Where the search for a key ends. -/
theorem putLoop_spec (hcmp : IsComparator compare) {fuel : Nat} {c : Int} (h : Rep map (plug t path))
    (hasc : Ascending (plug t path).toList) (hkey : Between key path) (hc : LastTurn c path)
    (hf : (ids t).length < fuel) :
    (∃ r l a r' path' c', plug t path = plug (node r l a r') path' ∧ a.key = key ∧
      map.putLoop compare key fuel (rootId t) (topId path) c = some (a.id, a.id, c')) ∨
    ∃ path' c', plug t path = plug leaf path' ∧ Between key path' ∧ LastTurn c' path' ∧
      map.putLoop compare key fuel (rootId t) (topId path) c = some (nil, topId path', c') := by
  induction t generalizing path fuel c with
  | leaf =>
    obtain _ | fuel := fuel
    · cases hf
    · exact .inr ⟨path, c, rfl, hkey, hc, rfl⟩
  | node red l a r ihl ihr =>
    obtain _ | fuel := fuel
    · cases hf
    have hn := Rep.node (s := .left) h
    have hne : a.id ≠ nil := Rep.id_ne_nil (s := .left) h
    have hrun : map.putLoop compare key (fuel + 1) a.id (topId path) c =
        if 0 < compare key a.key then map.putLoop compare key fuel (rootId r) a.id (compare key a.key)
        else if compare key a.key < 0 then map.putLoop compare key fuel (rootId l) a.id (compare key a.key)
        else some (a.id, a.id, compare key a.key) := by
      rw [putLoop, if_neg hne, hn]; rfl
    have hlen : (ids l).length + (ids r).length < fuel := by
      simp only [ids, toList, List.map_append, List.map_cons, List.length_append, List.length_cons] at hf ⊢
      omega
    obtain ⟨hl, hr⟩ := hasc.split
    show (∃ r' l' b r'' path' c', _ ∧ _ ∧ map.putLoop compare key (fuel + 1) a.id (topId path) c = _) ∨
      ∃ path' c', _ ∧ _ ∧ _ ∧ map.putLoop compare key (fuel + 1) a.id (topId path) c = _
    rw [hrun]
    rcases lt_trichotomy a.key key with hlt | heq | hgt
    · have hpos := (hcmp.pos_iff key a.key).mpr hlt
      rw [if_pos hpos]
      have h' : Rep map (plug r (⟨.right, red, a, l⟩ :: path)) := h
      refine ihr h' hasc ⟨fun b hb => ?_, fun b hb => ?_⟩ ?_ (by omega)
      · simp only [Path.before, List.mem_append, List.mem_singleton] at hb
        rcases hb with hb | hb | rfl
        · exact hkey.1 b hb
        · exact (hl b hb).trans hlt
        · exact hlt
      · exact hkey.2 b (by simpa [Path.after] using hb)
      · rintro f ⟨⟩
        exact (if_pos hpos).symm
    · have hnpos : ¬ 0 < compare key a.key := fun hp => absurd ((hcmp.pos_iff ..).mp hp) (heq ▸ lt_irrefl _)
      have hnneg : ¬ compare key a.key < 0 := fun hp => absurd ((hcmp.neg_iff ..).mp hp) (heq ▸ lt_irrefl _)
      rw [if_neg hnpos, if_neg hnneg]
      exact .inl ⟨red, l, a, r, path, _, rfl, heq, rfl⟩
    · have hneg := (hcmp.neg_iff key a.key).mpr hgt
      have hnpos : ¬ 0 < compare key a.key := by omega
      rw [if_neg hnpos, if_pos hneg]
      have h' : Rep map (plug l (⟨.left, red, a, r⟩ :: path)) := h
      refine ihl h' hasc ⟨fun b hb => ?_, fun b hb => ?_⟩ ?_ (by omega)
      · exact hkey.1 b (by simpa [Path.before] using hb)
      · simp only [Path.after, List.cons_append, List.mem_cons, List.mem_append] at hb
        rcases hb with rfl | hb | hb
        · exact hgt
        · exact hgt.trans (hr b hb)
        · exact hkey.2 b hb
      · rintro f ⟨⟩
        exact (if_neg hnpos).symm

theorem getNode_spec (hcmp : IsComparator compare) (h : Rep map T) (hasc : Ascending T.toList) (key : κ) :
    (∃ r l a r' path c, T = plug (node r l a r') path ∧ a.key = key ∧
      map.putLoop compare key map.fuel map.root nil 0 = some (a.id, a.id, c) ∧
      map.getNode compare key = some a.id) ∨
    ∃ path c, T = plug leaf path ∧ Between key path ∧ LastTurn c path ∧
      map.putLoop compare key map.fuel map.root nil 0 = some (nil, topId path, c) ∧
      map.getNode compare key = some nil := by
  have h' : Rep map (plug T []) := h
  have hget := getNodeLoop_eq compare map key map.fuel map.root nil 0
  rw [h.root] at hget ⊢
  have hempty : Between key ([] : Path (TMapItem κ ν)) := ⟨by simp [Path.before], by simp [Path.after]⟩
  rcases putLoop_spec hcmp h' hasc hempty (by rintro f ⟨⟩) h.length_lt_fuel with
    ⟨r, l, a, r', path, c, hT, hkey, hrun⟩ | ⟨path, c, hT, hbetween, hturn, hrun⟩
  · refine .inl ⟨r, l, a, r', path, c, hT, hkey, hrun, ?_⟩
    rw [getNode, h.root, hget]
    exact congrArg (Option.map _) hrun
  · refine .inr ⟨path, c, hT, hbetween, hturn, hrun, ?_⟩
    rw [getNode, h.root, hget]
    exact congrArg (Option.map _) hrun

omit [LinearOrder κ] in
theorem link_spec {f : Frame (TMapItem κ ν)} (h : Rep map (plug leaf (f :: path))) (key : κ)
    (value : Option ν) :
    let item : TMapItem κ ν := ⟨map.nodes.fresh, key, value⟩
    let nodes := (map.nodes.alloc ⟨some key, value, true, nil, nil, f.a.id⟩).1
    ∃ map', TMap.write { map with nodes := nodes, size := map.size + 1 } f.a.id
        (.setChild f.side map.nodes.fresh) = some map' ∧
      Rep map' (plug (node true leaf item leaf) (f :: path)) ∧ map'.size = map.size + 1 := by
  intro item nodes
  have hat := rep_plug.mp h
  let map₁ : TMap κ ν := { map with nodes := nodes, size := map.size + 1 }
  have hold : ∀ {i : Nat} {n : TMapNode κ ν}, map.nodes.cells i = some n → nodes.cells i = some n :=
    fun hi => Arena.alloc_cells_of_some _ hi
  have hfresh : map.nodes.fresh ∉ pathIds (f :: path) := by
    intro hmem
    refine h.tree.cells_ne_none (ids_plug_perm.mem_iff.mpr (List.mem_append_right _ hmem)) ?_
    exact Arena.cells_fresh _
  have hcell : nodes.cells map.nodes.fresh = some ⟨some key, value, true, nil, nil, f.a.id⟩ :=
    Arena.alloc_cells_fresh ..
  have hnil : nil ≠ map.nodes.fresh := Nat.ne_of_lt (Arena.lt_fresh h.nilNode)
  have hpath : IsPath map₁ (f :: path) nil := hat.above.congr rfl fun i hi =>
    Arena.alloc_cells_ne _ fun heq => hfresh (heq ▸ hi)
  have hnd : (pathIds (f :: path)).Nodup := hat.nodup
  have hnonnil : nil ∉ pathIds (f :: path) := hat.nonnil
  obtain ⟨map', hrun, hpath', hout⟩ := setChild_spec hpath hnd map.nodes.fresh
  have hids : ids (node true leaf item leaf) = [map.nodes.fresh] := rfl
  refine ⟨map', hrun, rep_plug.mpr ⟨⟨?_, trivial, trivial⟩, hpath', ?_, ?_, ?_⟩, hout.keeps.size⟩
  · rw [show item.id = map.nodes.fresh from rfl, hout.cells _ hfresh]
    exact hcell
  · rw [hids]
    exact List.nodup_cons.mpr ⟨hfresh, hnd⟩
  · rw [hids]
    simpa [hnil] using hnonnil
  · rw [hout.cells _ hnonnil]
    exact hold h.nilNode

end Renameutils.TMap
