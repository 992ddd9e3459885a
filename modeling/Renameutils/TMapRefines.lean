import Renameutils.TMapSearch
import Renameutils.TMapRemove
import Renameutils.Lib.MapOps

/-!
# The red-black map is a finite map

`Holds map T t`: the nodes of the map make the red-black tree `T`, and its entries are those of the table
`t`. Each call keeps this and gives the answer of the table.
-/

namespace Renameutils.TMap

open RBTree

variable {κ ν : Type}

def step (compare : κ → κ → Int) (map : TMap κ ν) : MapOp κ (Option ν) → Option (TMap κ ν × MapAnswer ν)
  | .put key value => do
    let (map, old) ← map.put compare key value
    some (map, .value old)
  | .remove key => do
    let (map, old) ← map.remove compare key
    some (map, .value old)
  | .get key => do
    let value ← map.get compare key
    some (map, .value value)
  | .containsKey key => do
    let b ← map.containsKey compare key
    some (map, .member b)
  | .clear => do
    let map ← map.clear
    some (map, .done)
  | .size => some (map, .size map.size)

/-- What the calls mean for a table. -/
noncomputable def spec [DecidableEq κ] (t : Table κ (Option ν)) (op : MapOp κ (Option ν)) :
    Table κ (Option ν) × MapAnswer ν := ((t.step op).1, (t.step op).2.join)

/-- The nodes of the map are a red-black search tree. -/
structure IsRedBlack (compare : κ → κ → Int) (map : TMap κ ν) (T : RBTree (TMapItem κ ν)) : Prop where
  rep : Rep map T
  search : T.toList.Pairwise fun a b => compare a.key b.key < 0
  noRedRed : T.NoRedRed
  balanced : T.Balanced
  size : map.size = T.toList.length

structure Holds [LT κ] (map : TMap κ ν) (T : RBTree (TMapItem κ ν)) (t : Table κ (Option ν)) : Prop where
  rep : Rep map T
  ascending : Ascending T.toList
  noRedRed : T.NoRedRed
  balanced : T.Balanced
  size : map.size = T.toList.length
  listing : t.Listing (entries T.toList)

variable {compare : κ → κ → Int} {map map' : TMap κ ν} {T : RBTree (TMapItem κ ν)}
variable {t : Table κ (Option ν)} {key : κ} {a : TMapItem κ ν} {path : Path (TMapItem κ ν)}

theorem clearNodes_spec {nodes : Arena (TMapNode κ ν)} {u : RBTree (TMapItem κ ν)} {parent fuel : Nat}
    (h : IsTree nodes parent u) (hnd : (ids u).Nodup) (hnil : nil ∉ ids u) (hf : (ids u).length < fuel) :
    ∃ nodes', unlessNil (clearNodes fuel) nodes (rootId u) = some nodes' ∧
      ∀ i, i ∉ ids u → nodes'.cells i = nodes.cells i := by
  induction u generalizing nodes parent fuel with
  | leaf => exact ⟨nodes, rfl, fun _ _ => rfl⟩
  | node red l a r ihl ihr =>
    obtain _ | fuel := fuel
    · cases hf
    obtain ⟨hn, hl, hr⟩ := h
    have hperm : (ids (node red l a r)).Perm (a.id :: (ids l ++ ids r)) := ids_branch_perm (s := .left)
    obtain ⟨ha, hndlr⟩ := List.nodup_cons.mp (hperm.nodup_iff.mp hnd)
    obtain ⟨hndl, hndr, hdis⟩ := List.nodup_append.mp hndlr
    rw [hperm.mem_iff] at hnil
    rw [hperm.length_eq] at hf
    simp only [List.mem_cons, List.mem_append, not_or, List.length_cons, List.length_append] at ha hnil hf
    obtain ⟨nodes₁, hrun₁, hcells₁⟩ := ihl hl hndl hnil.2.1
      (show (ids l).length < fuel by omega)
    have hn₁ := (hcells₁ _ ha.1).trans hn
    obtain ⟨nodes₂, hrun₂, hcells₂⟩ := ihr
      (hr.congr fun i hi => hcells₁ i fun hil => hdis i hil i hi rfl) hndr hnil.2.2
      (show (ids r).length < fuel by omega)
    have hn₂ := (hcells₂ _ ha.2).trans hn₁
    refine ⟨nodes₂.erase a.id, ?_, fun i hi => ?_⟩
    · rw [unlessNil, if_pos (show rootId (node red l a r) ≠ nil from Ne.symm hnil.1), rootId, clearNodes, hn]
      simp only [Option.bind_eq_bind, Option.bind_some]
      show ((unlessNil (clearNodes fuel) nodes (rootId l)).bind _) = _
      rw [hrun₁]
      simp only [Option.bind_some, hn₁]
      show ((unlessNil (clearNodes fuel) nodes₁ (rootId r)).bind _) = _
      rw [hrun₂]
      exact Arena.free_eq hn₂
    · rw [hperm.mem_iff, List.mem_cons, List.mem_append, not_or, not_or] at hi
      rw [Arena.erase_cells_ne hi.1, hcells₂ i hi.2.2, hcells₁ i hi.2.1]

theorem Rep.clear (h : Rep map T) : ∃ map', map.clear = some map' ∧ Rep map' leaf ∧ map'.size = 0 := by
  obtain ⟨nodes', hrun, hcells⟩ := clearNodes_spec h.tree h.nodup h.nonnil h.length_lt_fuel
  have hnilNode := (hcells _ h.nonnil).trans h.nilNode
  rw [← h.root, unlessNil] at hrun
  rw [TMap.clear]
  by_cases hroot : map.root ≠ nil
  · rw [if_pos hroot] at hrun ⊢
    exact ⟨_, by rw [hrun]; rfl, ⟨trivial, rfl, List.nodup_nil, List.not_mem_nil, hnilNode⟩, rfl⟩
  · rw [if_neg hroot]
    exact ⟨_, rfl, ⟨trivial, not_not.mp hroot, List.nodup_nil, List.not_mem_nil, h.nilNode⟩, rfl⟩

theorem entries_plug {u : RBTree (TMapItem κ ν)} :
    entries (plug u path).toList = entries (Path.before path) ++ entries u.toList ++
      entries (Path.after path) := by
  rw [toList_plug, entries, List.map_append, List.map_append]; rfl

theorem map_fst_entries (l : List (TMapItem κ ν)) : (entries l).map Prod.fst = l.map TMapItem.key := by
  rw [entries, List.map_map]; rfl

theorem length_entries (l : List (TMapItem κ ν)) : (entries l).length = l.length := List.length_map _

variable [LinearOrder κ]

namespace Holds

theorem new : Holds (TMap.new : TMap κ ν) leaf Table.empty where
  rep := ⟨trivial, rfl, List.nodup_nil, List.not_mem_nil, rfl⟩
  ascending := .nil
  noRedRed := trivial
  balanced := ⟨0, rfl⟩
  size := rfl
  listing := ⟨.nil, by simp [Table.empty, entries, RBTree.toList]⟩

theorem isRedBlack (hcmp : IsComparator compare) (h : Holds map T t) : IsRedBlack compare map T := by
  refine ⟨h.rep, ?_, h.noRedRed, h.balanced, h.size⟩
  exact (List.pairwise_map.mp h.ascending).imp fun hab => (hcmp.neg_iff ..).mpr hab

theorem size_eq (h : Holds map T t) : map.size = t.size := by
  rw [h.size, h.listing.size, entries, List.length_map]

theorem apply_found {r : Bool} {l r' : RBTree (TMapItem κ ν)} (h : Holds map (plug (node r l a r') path) t) :
    t a.key = some a.value :=
  h.listing.apply (by rw [entries_plug]; simp [entries, toList])

theorem apply_absent (h : Holds map (plug leaf path) t) (hkey : Between key path) : t key = none := by
  refine h.listing.apply_none fun x hx => ?_
  rw [entries_plug] at hx
  simp only [entries, toList, List.map_nil, List.append_nil, List.mem_append, List.mem_map] at hx
  rcases hx with ⟨b, hb, rfl⟩ | ⟨b, hb, rfl⟩
  · exact ne_of_lt (hkey.1 b hb)
  · exact ne_of_gt (hkey.2 b hb)

theorem get (hcmp : IsComparator compare) (h : Holds map T t) (key : κ) :
    map.get compare key = some (t key).join ∧ map.containsKey compare key = some (t key).isSome := by
  rcases getNode_spec hcmp h.rep h.ascending key with
    ⟨r, l, a, r', path, c, rfl, rfl, -, hget⟩ | ⟨path, c, rfl, hkey, -, -, hget⟩
  · have hn := Rep.node (s := .left) h.rep
    have hne := Rep.id_ne_nil (s := .left) h.rep
    rw [TMap.get, containsKey, hget, h.apply_found]
    simp [hn, hne]
  · rw [TMap.get, containsKey, hget, h.apply_absent hkey]
    simp [h.rep.nilNode, TMapNode.nilNode]

theorem of_entries {l : List (κ × Option ν)} (hrep : Rep map T) (hred : T.NoRedRed) (hbal : T.Balanced)
    (hl : entries T.toList = l) (hasc : (l.map Prod.fst).Pairwise (· < ·)) (hsize : map.size = l.length)
    (hlist : t.Listing l) : Holds map T t := by
  subst hl
  rw [map_fst_entries] at hasc
  rw [length_entries] at hsize
  exact ⟨hrep, hasc, hred, hbal, hsize, hlist⟩

theorem put_found {r : Bool} {l r' : RBTree (TMapItem κ ν)} {c : Int} (value : Option ν)
    (h : Holds map (plug (node r l a r') path) t)
    (hrun : map.putLoop compare a.key map.fuel map.root nil 0 = some (a.id, a.id, c)) :
    ∃ map' T', map.put compare a.key value = some (map', a.value) ∧ Holds map' T' (t.put a.key value) := by
  have hn := Rep.node (s := .left) h.rep
  have hne := Rep.id_ne_nil (s := .left) h.rep
  let b : TMapItem κ ν := { a with value := value }
  obtain ⟨map', hwrite, hrep, hkeeps⟩ := Rep.update (s := .left) (b := b) h.rep
    (fun n => { n with value := value }) rfl fun _ _ _ => rfl
  obtain ⟨hbal, hred⟩ := redBlack_replace (s := .left) (b := b) h.balanced h.noRedRed
  have hl : entries (plug (node r l a r') path).toList = (entries (Path.before path) ++ entries l.toList) ++
      (a.key, a.value) :: (entries r'.toList ++ entries (Path.after path)) := by
    rw [entries_plug]; simp [entries, toList]
  have hlist := h.listing
  have hasc := h.ascending
  rw [Ascending, ← map_fst_entries] at hasc
  rw [hl] at hlist hasc
  refine ⟨map', _, ?_, of_entries hrep hred hbal ?_ ?_ ?_ (hlist.replace value)⟩
  · rw [TMap.put, hrun]
    simp [hne, hn, hwrite]
  · rw [entries_plug]; simp [entries, toList, branch, b]
  · simpa using hasc
  · rw [hkeeps.size, h.size, ← length_entries, hl]
    simp

theorem insert_spec (id : Nat) (value : Option ν) (h : Holds map (plug leaf path) t) (hkey : Between key path)
    {T' : RBTree (TMapItem κ ν)} (hrep : Rep map' T') (hred : T'.NoRedRed) (hbal : T'.Balanced)
    (hl : T'.toList = (plug (node true leaf ⟨id, key, value⟩ leaf) path).toList)
    (hsize : map'.size = map.size + 1) : Holds map' T' (t.put key value) := by
  have hold : entries (plug leaf path).toList = entries (Path.before path) ++ entries (Path.after path) := by
    rw [entries_plug]; simp [entries, toList]
  have hlist := h.listing
  have hasc := h.ascending
  rw [Ascending, ← map_fst_entries] at hasc
  rw [hold] at hlist hasc
  have hne : ∀ x ∈ entries (Path.before path) ++ entries (Path.after path), x.1 ≠ key := by
    intro x hx
    simp only [entries, List.mem_append, List.mem_map] at hx
    rcases hx with ⟨b, hb, rfl⟩ | ⟨b, hb, rfl⟩
    · exact ne_of_lt (hkey.1 b hb)
    · exact ne_of_gt (hkey.2 b hb)
  refine of_entries hrep hred hbal ?_ ?_ ?_ (hlist.insert hne value)
  · rw [hl, entries_plug]; simp [entries, toList]
  · rw [List.map_append, List.pairwise_append] at hasc
    obtain ⟨hb, ha, hba⟩ := hasc
    rw [List.map_append, List.map_cons, List.pairwise_append, List.pairwise_cons]
    refine ⟨hb, ⟨fun k hk => ?_, ha⟩, fun k hk k' hk' => ?_⟩
    · rw [map_fst_entries] at hk
      obtain ⟨b, hb, rfl⟩ := List.mem_map.mp hk
      exact hkey.2 b hb
    · rcases List.mem_cons.mp hk' with rfl | hk'
      · rw [map_fst_entries] at hk
        obtain ⟨b, hb, rfl⟩ := List.mem_map.mp hk
        exact hkey.1 b hb
      · exact hba k hk k' hk'
  · rw [hsize, h.size, ← length_entries, hold]
    simp; omega

theorem put_absent {c : Int} (value : Option ν) (h : Holds map (plug leaf path) t) (hkey : Between key path)
    (hturn : LastTurn c path)
    (hrun : map.putLoop compare key map.fuel map.root nil 0 = some (nil, topId path, c)) :
    ∃ map' T', map.put compare key value = some (map', none) ∧ Holds map' T' (t.put key value) := by
  cases path with
  | nil =>
    let item : TMapItem κ ν := ⟨map.nodes.fresh, key, value⟩
    let nodes := (map.nodes.alloc ⟨some key, value, true, nil, nil, nil⟩).1
    let map₁ : TMap κ ν := { nodes := nodes, root := map.nodes.fresh, size := map.size + 1 }
    have hcell : map₁.nodes.cells map.nodes.fresh = some ⟨some key, value, true, nil, nil, nil⟩ :=
      Arena.alloc_cells_fresh ..
    have hnil : nil ≠ map.nodes.fresh := Nat.ne_of_lt (Arena.lt_fresh h.rep.nilNode)
    obtain ⟨map', hwrite, hcell', hroot, hout⟩ := write_spec (.setRed false) hcell
    have hrep : Rep map' (node false leaf item leaf) := by
      refine ⟨⟨hcell', trivial, trivial⟩, hroot, by simp [ids, toList], by simp [ids, toList, item, hnil], ?_⟩
      rw [hout.cells _ (by simpa using hnil)]
      exact Arena.alloc_cells_of_some _ h.rep.nilNode
    refine ⟨map', _, ?_, insert_spec map.nodes.fresh value h hkey hrep (by simp [NoRedRed])
      ⟨1, 0, rfl, rfl, rfl⟩ rfl hout.keeps.size⟩
    simp only [map₁, nodes] at hwrite
    rw [TMap.put, hrun]
    simp [topId, hwrite]
  | cons f path =>
    obtain ⟨map₁, hwrite, hrep₁, hsize₁⟩ := link_spec h.rep key value
    have hne : f.a.id ≠ nil := h.rep.top_ne_nil
    obtain ⟨T', hfix, map', hrun', hrep', hkeeps⟩ := insertRebalance_spec hrep₁
      (Rep.rootId_ne_nil (s := .left) hrep₁) hrep₁.path_lt_fuel
    obtain ⟨n, hleaf, hpath⟩ := balanced_plug.mp h.balanced
    obtain rfl : n = 0 := hleaf
    obtain ⟨-, hpn, -⟩ := noRedRed_plug.mp h.noRedRed
    obtain ⟨hbal, hred⟩ := hfix.redBlack (n := 0) ⟨⟨0, rfl, rfl, rfl⟩, hpath, by simp [NoRedRed, RBTree.isRed], hpn⟩ rfl
    refine ⟨map', _, ?_, insert_spec map.nodes.fresh value h hkey hrep' hred hbal ?_
      (hkeeps.size.trans hsize₁)⟩
    · have hside := hturn f rfl
      have hrun₁ : insertRebalance map₁.fuel map₁ map.nodes.fresh = some map' := hrun'
      rw [TMap.put, hrun]
      simp [topId, hne, ← hside, hwrite, hrun₁]
    · rw [toList_blacken, hfix.toList]

theorem put (hcmp : IsComparator compare) (h : Holds map T t) (key : κ) (value : Option ν) :
    ∃ map' T', map.put compare key value = some (map', (t key).join) ∧ Holds map' T' (t.put key value) := by
  rcases getNode_spec hcmp h.rep h.ascending key with
    ⟨r, l, a, r', path, c, rfl, rfl, hrun, -⟩ | ⟨path, c, rfl, hkey, hturn, hrun, -⟩
  · rw [h.apply_found]
    exact h.put_found value hrun
  · rw [h.apply_absent hkey]
    exact h.put_absent value hkey hturn hrun

theorem remove (hcmp : IsComparator compare) (h : Holds map T t) (key : κ) :
    ∃ map' T', map.remove compare key = some (map', (t key).join) ∧ Holds map' T' (t.remove key) := by
  rcases getNode_spec hcmp h.rep h.ascending key with
    ⟨r, l, a, r', path, c, rfl, rfl, -, hget⟩ | ⟨path, c, rfl, hkey, -, -, hget⟩
  · have hn := Rep.node (s := .left) h.rep
    have hne := Rep.id_ne_nil (s := .left) h.rep
    obtain ⟨map', T', hrun, hrep, hsize, hentries, hbal, hred⟩ := removeNode_spec h.rep h.balanced h.noRedRed
    have hl : entries (plug (node r l a r') path).toList = (entries (Path.before path) ++ entries l.toList) ++
        (a.key, a.value) :: (entries r'.toList ++ entries (Path.after path)) := by
      rw [entries_plug]; simp [entries, toList]
    have hl' : entries T'.toList = (entries (Path.before path) ++ entries l.toList) ++
        (entries r'.toList ++ entries (Path.after path)) := by
      rw [entries, hentries]; simp [entries]
    have hlist := h.listing
    have hasc := h.ascending
    rw [Ascending, ← map_fst_entries] at hasc
    rw [hl] at hlist hasc
    refine ⟨map', T', ?_, of_entries hrep hred hbal hl' (hasc.sublist ?_) ?_ hlist.remove⟩
    · rw [TMap.remove, hget, h.apply_found]
      simp [hne, hn, hrun]
    · exact ((List.sublist_cons_self _ _).append_left _).map _
    · rw [hsize, h.size, ← length_entries, hl]
      simp only [List.length_append, List.length_cons]
      omega
  · refine ⟨map, plug leaf path, ?_, ?_⟩
    · rw [TMap.remove, hget, h.apply_absent hkey]
      simp
    · rwa [show t.remove key = t from Function.update_eq_self_iff.mpr (h.apply_absent hkey).symm]

theorem clear (h : Holds map T t) : ∃ map', map.clear = some map' ∧ Holds map' leaf Table.empty := by
  obtain ⟨map', hrun, hrep, hsize⟩ := h.rep.clear
  exact ⟨map', hrun, hrep, .nil, trivial, ⟨0, rfl⟩, hsize, Holds.new.listing⟩

theorem step (hcmp : IsComparator compare) (h : Holds map T t) (op : MapOp κ (Option ν)) :
    ∃ map', map.step compare op = some (map', (spec t op).2) ∧ ∃ T', Holds map' T' (spec t op).1 := by
  cases op with
  | put key value =>
    obtain ⟨map', T', hrun, h'⟩ := h.put hcmp key value
    exact ⟨map', by rw [TMap.step, hrun]; rfl, T', h'⟩
  | remove key =>
    obtain ⟨map', T', hrun, h'⟩ := h.remove hcmp key
    exact ⟨map', by rw [TMap.step, hrun]; rfl, T', h'⟩
  | get key => exact ⟨map, by rw [TMap.step, (h.get hcmp key).1]; rfl, T, h⟩
  | containsKey key => exact ⟨map, by rw [TMap.step, (h.get hcmp key).2]; rfl, T, h⟩
  | clear =>
    obtain ⟨map', hrun, h'⟩ := h.clear
    exact ⟨map', by rw [TMap.step, hrun]; rfl, leaf, h'⟩
  | size => exact ⟨map, by rw [TMap.step, h.size_eq]; rfl, T, h⟩

end Holds

/-- Whatever the calls are, the nodes make a red-black search tree, and the answers are those of a finite
map. -/
theorem calls_redBlack (hcmp : IsComparator compare) (ops : List (MapOp κ (Option ν))) :
    ∃ map T, runSteps (TMap.step compare) (TMap.new : TMap κ ν) ops =
        some (map, (specSteps spec Table.empty ops).2) ∧ IsRedBlack compare map T := by
  obtain ⟨map, hrun, T, h⟩ := run_refines (R := fun map t => ∃ T, Holds map T t)
    (fun _ _ op ⟨_, h⟩ => h.step hcmp op) ops ⟨leaf, .new⟩
  exact ⟨map, T, hrun, h.isRedBlack hcmp⟩

theorem calls_redBlack_sub :
    ∃ map T, runSteps (TMap.step fun a b => a - b) (TMap.new : TMap Int Nat)
        [.put 2 (some 20), .put 1 (some 10), .put 3 none, .remove 2, .get 3, .size] =
        some (map, (specSteps spec (Table.empty : Table Int (Option Nat))
          [.put 2 (some 20), .put 1 (some 10), .put 3 none, .remove 2, .get 3, .size]).2) ∧
      IsRedBlack (fun a b => a - b) map T :=
  calls_redBlack ⟨fun a b => Int.sub_pos, fun a b => by omega⟩
    [.put 2 (some 20), .put 1 (some 10), .put 3 none, .remove 2, .get 3, .size]

end Renameutils.TMap
