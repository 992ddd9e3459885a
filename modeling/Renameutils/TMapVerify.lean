import Renameutils.TMapIterate

/-!
# What the red-black map checks and visits (`tmap_verify`, `tmap_foreach_key`, `tmap_first_key`)

`tmap_verify` compares the black nodes above the nodes without children, and looks for a red node with a red child.
It is true of every map that calls can make (`calls_verify`). The `foreach` functions visit the nodes after their
children, so each of them once but not in order; the first and the last node are those with the least and the
greatest key (`calls_foreach`).
-/

namespace Renameutils.TMap

variable {κ ν β : Type}

/-! ### The functions -/

/-- `for (x = node; x != &nil; x = x->parent)`: the black nodes. -/
def blackLoop (map : TMap κ ν) : Nat → Nat → Nat → Option Nat
  | 0, _, _ => none
  | fuel + 1, x, count =>
    if x = nil then some count
    else do
      let n ← map.nodes.cells x
      blackLoop map fuel n.parent (if !n.red then count + 1 else count)

/-- Whether a child of a red node is red. -/
def redChild (map : TMap κ ν) (n : TMapNode κ ν) : Option Bool :=
  if n.red then do
    let l ← map.nodes.cells n.left
    if l.red then some true
    else do
      let r ← map.nodes.cells n.right
      some r.red
  else some false

/-- `*expect` is set to the count of the first node without children. -/
def checkCount (map : TMap κ ν) (node : Nat) (n : TMapNode κ ν) (expect : Option Nat) : Option (Bool × Option Nat) :=
  if n.left = nil ∧ n.right = nil then do
    let count ← map.blackLoop map.fuel node 0
    match expect with
    | none => some (true, some count)
    | some e => some (count = e, expect)
  else some (true, expect)

/-- `tmap_node_verify`, with `*expect`; `none` there is -1. -/
def nodeVerify (map : TMap κ ν) : Nat → Nat → Option Nat → Option (Bool × Option Nat)
  | 0, _, _ => none
  | fuel + 1, node, expect =>
    if node = nil then some (true, expect)
    else do
      let n ← map.nodes.cells node
      if ← map.redChild n then some (false, expect)
      else do
        let (same, expect) ← map.checkCount node n expect
        if !same then some (false, expect)
        else do
          let (ok, expect) ← nodeVerify map fuel n.left expect
          if ok then nodeVerify map fuel n.right expect else some (false, expect)

def verify (map : TMap κ ν) : Option Bool := do
  let (ok, _) ← map.nodeVerify map.fuel map.root none
  some ok

/-- `if (node != &nil) f(node);`, with what is visited. -/
def visit (f : Nat → Option (List β)) (node : Nat) : Option (List β) := if node ≠ nil then f node else some []

/-- `tmap_foreach_nodes_key` and `tmap_foreach_nodes_value`: what `iterator` is called with. -/
def foreachNodes (map : TMap κ ν) (field : TMapNode κ ν → β) : Nat → Nat → Option (List β)
  | 0, _ => none
  | fuel + 1, node => do
    let n ← map.nodes.cells node
    let left ← visit (foreachNodes map field fuel) n.left
    let right ← visit (foreachNodes map field fuel) n.right
    some (left ++ right ++ [field n])

def foreachField (field : TMapNode κ ν → β) (map : TMap κ ν) : Option (List β) :=
  visit (map.foreachNodes field map.fuel) map.root

def foreachKey (map : TMap κ ν) : Option (List (Option κ)) := map.foreachField TMapNode.key

def foreachValue (map : TMap κ ν) : Option (List (Option ν)) := map.foreachField TMapNode.value

def lastNode (map : TMap κ ν) : Option Nat := map.lastLoop map.fuel map.root

def firstKey (map : TMap κ ν) : Option (Option κ) := do
  let node ← map.firstNode
  let n ← map.nodes.cells node
  some n.key

def lastKey (map : TMap κ ν) : Option (Option κ) := do
  let node ← map.lastNode
  let n ← map.nodes.cells node
  some n.key

def firstValue (map : TMap κ ν) : Option (Option ν) := do
  let node ← map.firstNode
  let n ← map.nodes.cells node
  some n.value

def lastValue (map : TMap κ ν) : Option (Option ν) := do
  let node ← map.lastNode
  let n ← map.nodes.cells node
  some n.value

/-! ### Counting black nodes -/

open RBTree

section
variable {map : TMap κ ν} {T t x y : RBTree (TMapItem κ ν)} {path : Path (TMapItem κ ν)} {a : TMapItem κ ν}
  {s : Side} {red : Bool} {fuel k e : Nat} {expect : Option Nat}

/-- The black nodes of a path. -/
def blacks : Path (TMapItem κ ν) → Nat
  | [] => 0
  | f :: path => (!f.red).toNat + blacks path

theorem blackLoop_spec (h : Rep map (plug (branch s red x a y) path)) (hf : path.length + 1 < fuel) (count : Nat) :
    map.blackLoop fuel a.id count = some (count + (!red).toNat + blacks path) := by
  induction path generalizing s red x a y fuel count with
  | nil =>
    obtain ⟨fuel, rfl⟩ : ∃ n, fuel = n + 2 := ⟨fuel - 2, by simp at hf; omega⟩
    rw [blackLoop, if_neg h.id_ne_nil, h.node]
    cases red <;> simp [blackLoop, topId, blacks]
  | cons f path ih =>
    obtain ⟨fuel, rfl⟩ : ∃ n, fuel = n + 1 := ⟨fuel - 1, by omega⟩
    have hnext : Rep map (plug (branch f.side f.red (branch s red x a y) f.a f.sibling) path) := h
    rw [blackLoop, if_neg h.id_ne_nil, h.node]
    simp only [Option.bind_eq_bind, Option.bind_some, nodeOf_parent, nodeOf_red, topId]
    rw [ih hnext (by simp at hf; omega) _, blacks]
    cases red <;> simp <;> omega

theorem redChild_spec (h : Rep map (plug (node red x a y) path)) (hred : (node red x a y).NoRedRed) :
    map.redChild (nodeOf .left red (rootId x) a (rootId y) (topId path)) = some false := by
  have hx : Rep map (plug x (⟨.left, red, a, y⟩ :: path)) := h
  have hy : Rep map (plug y (⟨.right, red, a, x⟩ :: path)) := h
  obtain ⟨l, hl, hlred⟩ := hx.root_red
  obtain ⟨r, hr, hrred⟩ := hy.root_red
  unfold redChild
  cases red with
  | false => rfl
  | true =>
    obtain ⟨hxred, hyred⟩ := hred.1 rfl
    simp [nodeOf, hl, hr, hlred, hrred, hxred, hyred]

/-- The count at a node without children is the black height of the tree. -/
theorem checkCount_spec {n : TMapNode κ ν} (hn : n = nodeOf .left red (rootId x) a (rootId y) (topId path))
    (h : Rep map (plug (node red x a y) path)) (hheight : (node red x a y).Height k)
    (he : k + blacks path = e) (hexpect : expect = none ∨ expect = some e) :
    ∃ expect', map.checkCount a.id n expect = some (true, expect') ∧ (expect' = none ∨ expect' = some e) := by
  have hx : Rep map (plug x (⟨.left, red, a, y⟩ :: path)) := h
  have hy : Rep map (plug y (⟨.right, red, a, x⟩ :: path)) := h
  have hlength : path.length + 1 < map.fuel := hx.path_lt_fuel
  have hleft : n.left = rootId x := hn ▸ rfl
  have hright : n.right = rootId y := hn ▸ rfl
  unfold checkCount
  by_cases hleaf : n.left = nil ∧ n.right = nil
  · obtain rfl := hx.eq_leaf (hleft.symm.trans hleaf.1)
    obtain rfl := hy.eq_leaf (hright.symm.trans hleaf.2)
    obtain ⟨m, hm, _, rfl⟩ := hheight
    obtain rfl : m = 0 := hm
    have hcount := blackLoop_spec (s := .left) h hlength 0
    rw [if_pos hleaf, hcount]
    rcases hexpect with rfl | rfl
    · exact ⟨_, rfl, Or.inr (by rw [← he])⟩
    · exact ⟨some e, by simp [← he], Or.inr rfl⟩
  · rw [if_neg hleaf]
    exact ⟨expect, rfl, hexpect⟩

theorem nodeVerify_spec (h : Rep map (plug t path)) (hred : t.NoRedRed) (hheight : t.Height k)
    (he : k + blacks path = e) (hexpect : expect = none ∨ expect = some e) (hf : (ids t).length < fuel) :
    ∃ expect', map.nodeVerify fuel (rootId t) expect = some (true, expect') ∧ (expect' = none ∨ expect' = some e) := by
  induction t generalizing path fuel k expect with
  | leaf =>
    obtain ⟨fuel, rfl⟩ : ∃ n, fuel = n + 1 := ⟨fuel - 1, by simp at hf; omega⟩
    exact ⟨expect, rfl, hexpect⟩
  | node red l a r ihl ihr =>
    obtain ⟨fuel, rfl⟩ : ∃ n, fuel = n + 1 := ⟨fuel - 1, by omega⟩
    have hl : Rep map (plug l (⟨.left, red, a, r⟩ :: path)) := h
    have hr : Rep map (plug r (⟨.right, red, a, l⟩ :: path)) := h
    obtain ⟨hfl, hfr⟩ := length_ids_branch (s := .left) hf
    obtain ⟨expect₁, hcheck, hexpect₁⟩ := checkCount_spec rfl h hheight he hexpect
    obtain ⟨m, hlm, hrm, rfl⟩ := hheight
    have he' : m + ((!red).toNat + blacks path) = e := by omega
    obtain ⟨expect₂, hleft, hexpect₂⟩ := ihl hl hred.2.1 hlm he' hexpect₁ hfl
    obtain ⟨expect₃, hright, hexpect₃⟩ := ihr hr hred.2.2 hrm he' hexpect₂ hfr
    refine ⟨expect₃, ?_, hexpect₃⟩
    have hne : a.id ≠ nil := Rep.id_ne_nil (s := .left) h
    have hchild := redChild_spec h hred
    rw [rootId, nodeVerify, if_neg hne, Rep.node (s := .left) h, Option.bind_eq_bind, Option.bind_some, hchild,
      Option.bind_eq_bind, Option.bind_some, if_neg Bool.false_ne_true, hcheck]
    exact (congrArg (Option.bind · _) hleft).trans hright

theorem verify_spec (h : Rep map T) (hred : T.NoRedRed) (hbal : T.Balanced) : map.verify = some true := by
  obtain ⟨k, hk⟩ := hbal
  have hplug : Rep map (plug T []) := h
  obtain ⟨expect, hrun, _⟩ := nodeVerify_spec (e := k) hplug hred hk rfl (Or.inl rfl) h.length_lt_fuel
  rw [verify, h.root, hrun]
  rfl

/-! ### Visiting the nodes -/

theorem foreachNodes_spec {field : TMapNode κ ν → β} {g : TMapItem κ ν → β}
    (hfield : ∀ red l a r parent, field (nodeOf .left red l a r parent) = g a) (h : Rep map (plug t path))
    (hf : (ids t).length < fuel) : visit (map.foreachNodes field fuel) (rootId t) = some (t.postorder.map g) := by
  induction t generalizing path fuel with
  | leaf => rfl
  | node red l a r ihl ihr =>
    obtain ⟨fuel, rfl⟩ : ∃ n, fuel = n + 1 := ⟨fuel - 1, by omega⟩
    have hl : Rep map (plug l (⟨.left, red, a, r⟩ :: path)) := h
    have hr : Rep map (plug r (⟨.right, red, a, l⟩ :: path)) := h
    have hne : a.id ≠ nil := Rep.id_ne_nil (s := .left) h
    obtain ⟨hfl, hfr⟩ := length_ids_branch (s := .left) hf
    obtain ⟨n, hn, hnl, hnr, hng⟩ : ∃ n, map.nodes.cells a.id = some n ∧ n.left = rootId l ∧ n.right = rootId r ∧
        field n = g a := ⟨_, Rep.node (s := .left) h, rfl, rfl, hfield ..⟩
    rw [rootId, visit, if_pos hne, foreachNodes, hn]
    simp only [Option.bind_eq_bind, Option.bind_some, hnl, hnr, hng, ihl hl hfl, ihr hr hfr, postorder,
      List.map_append, List.map_cons, List.map_nil]

theorem foreachField_spec {field : TMapNode κ ν → β} {g : TMapItem κ ν → β}
    (hfield : ∀ red l a r parent, field (nodeOf .left red l a r parent) = g a) (h : Rep map T) :
    map.foreachField field = some (T.postorder.map g) := by
  have hplug : Rep map (plug T []) := h
  unfold foreachField
  rw [h.root, foreachNodes_spec hfield hplug h.length_lt_fuel]

theorem Rep.item (h : Rep map T) (ha : a ∈ T.toList) :
    ∃ n, map.nodes.cells a.id = some n ∧ n.key = some a.key ∧ n.value = a.value := by
  obtain ⟨before, after, hT⟩ := List.append_of_mem ha
  obtain ⟨red, l, r, path, rfl, _⟩ := exists_plug hT
  exact ⟨_, Rep.node (s := .left) h, rfl, rfl⟩

theorem firstNode_spec (h : Rep map T) : ∃ node n, map.firstNode = some node ∧ map.nodes.cells node = some n ∧
    n.key = T.toList.head?.map TMapItem.key ∧ n.value = T.toList.head?.bind TMapItem.value := by
  have hfirst := firstLoop_spec (show Rep map (plug T []) from h) h.length_lt_fuel
  rw [← h.root] at hfirst
  cases hT : T.toList with
  | nil =>
    rw [hT] at hfirst
    exact ⟨nil, .nilNode, hfirst, h.nilNode, rfl, rfl⟩
  | cons a items =>
    rw [hT] at hfirst
    obtain ⟨n, hn, hkey, hvalue⟩ := h.item (a := a) (hT ▸ List.mem_cons_self)
    exact ⟨a.id, n, hfirst, hn, hkey, hvalue⟩

theorem lastNode_spec (h : Rep map T) : ∃ node n, map.lastNode = some node ∧ map.nodes.cells node = some n ∧
    n.key = T.toList.getLast?.map TMapItem.key ∧ n.value = T.toList.getLast?.bind TMapItem.value := by
  unfold lastNode
  rw [h.root]
  by_cases hleaf : T = leaf
  · subst hleaf
    refine ⟨nil, .nilNode, ?_, h.nilNode, rfl, rfl⟩
    obtain ⟨fuel, hfuel⟩ : ∃ n, map.fuel = n + 1 := ⟨_, rfl⟩
    rw [hfuel, rootId_leaf, lastLoop, h.nilNode]
    rfl
  · have hplug : Rep map (plug T []) := h
    obtain ⟨c, l, b, ext, rfl, hafter, hlast⟩ := lastLoop_spec hplug hleaf h.length_lt_fuel
    have hlist : (plug (node c l b leaf) ext).toList = Path.before ext ++ l.toList ++ [b] := by
      rw [toList_plug, hafter]
      simp [toList]
    obtain ⟨n, hn, hkey, hvalue⟩ := h.item (a := b) (by rw [hlist]; simp)
    refine ⟨b.id, n, hlast, hn, ?_, ?_⟩
    · rw [hkey, hlist, List.getLast?_concat]
      rfl
    · rw [hvalue, hlist, List.getLast?_concat]
      rfl

end

variable [LinearOrder κ] {compare : κ → κ → Int}

/-- Whatever calls have made the map, `tmap_verify` finds nothing wrong. -/
theorem calls_verify (hcmp : IsComparator compare) (ops : List (MapOp κ (Option ν))) :
    ∃ map, runSteps (TMap.step compare) (TMap.new : TMap κ ν) ops = some (map, (specSteps spec Table.empty ops).2) ∧
      map.verify = some true := by
  obtain ⟨map, hrun, T, h⟩ := run_refines (R := fun map t => ∃ T, Holds map T t)
    (fun _ _ op ⟨_, h⟩ => h.step hcmp op) ops ⟨leaf, .new⟩
  exact ⟨map, hrun, verify_spec h.rep h.noRedRed h.balanced⟩

theorem calls_verify_sub :
    ∃ map, runSteps (TMap.step fun a b => a - b) (TMap.new : TMap Int Nat)
        [.put 2 (some 20), .put 1 (some 10), .put 3 none, .remove 2] =
        some (map, (specSteps spec (Table.empty : Table Int (Option Nat))
          [.put 2 (some 20), .put 1 (some 10), .put 3 none, .remove 2]).2) ∧ map.verify = some true :=
  calls_verify ⟨fun a b => Int.sub_pos, fun a b => by omega⟩
    [.put 2 (some 20), .put 1 (some 10), .put 3 none, .remove 2]

/-- Whatever calls have made the map, the `foreach` functions visit each entry once, and the first and the last node
are those with the least and the greatest key; without entries their keys and values are `NULL`. -/
theorem calls_foreach (hcmp : IsComparator compare) (ops : List (MapOp κ (Option ν))) :
    ∃ map l, runSteps (TMap.step compare) (TMap.new : TMap κ ν) ops =
        some (map, (specSteps spec Table.empty ops).2) ∧
      (specSteps spec Table.empty ops).1.Listing l ∧ (l.map Prod.fst).Pairwise (· < ·) ∧
      (∃ visited : List (κ × Option ν), visited.Perm l ∧ map.foreachKey = some (visited.map fun x => some x.1) ∧
        map.foreachValue = some (visited.map Prod.snd)) ∧
      map.firstKey = some (l.head?.map Prod.fst) ∧ map.firstValue = some (l.head?.bind Prod.snd) ∧
      map.lastKey = some (l.getLast?.map Prod.fst) ∧ map.lastValue = some (l.getLast?.bind Prod.snd) := by
  obtain ⟨map, hrun, T, h⟩ := run_refines (R := fun map t => ∃ T, Holds map T t)
    (fun _ _ op ⟨_, h⟩ => h.step hcmp op) ops ⟨leaf, .new⟩
  obtain ⟨first, n, hfirst, hn, hkey, hvalue⟩ := firstNode_spec h.rep
  obtain ⟨last, m, hlast, hm, hkey', hvalue'⟩ := lastNode_spec h.rep
  refine ⟨map, entries T.toList, hrun, h.listing, map_fst_entries _ ▸ h.ascending, ?_, ?_, ?_, ?_, ?_⟩
  · refine ⟨entries T.postorder, T.postorder_perm.map _, ?_, ?_⟩
    · rw [foreachKey, foreachField_spec (g := fun a => some a.key) (fun _ _ _ _ _ => rfl) h.rep, entries, List.map_map]
      rfl
    · rw [foreachValue, foreachField_spec (g := TMapItem.value) (fun _ _ _ _ _ => rfl) h.rep, entries, List.map_map]
      rfl
  · simp only [firstKey, hfirst, hn, hkey, entries, List.head?_map, Option.bind_eq_bind, Option.bind_some]
    cases T.toList.head? <;> rfl
  · simp only [firstValue, hfirst, hn, hvalue, entries, List.head?_map, Option.bind_eq_bind, Option.bind_some]
    cases T.toList.head? <;> rfl
  · simp only [lastKey, hlast, hm, hkey', entries, List.getLast?_map, Option.bind_eq_bind, Option.bind_some]
    cases T.toList.getLast? <;> rfl
  · simp only [lastValue, hlast, hm, hvalue', entries, List.getLast?_map, Option.bind_eq_bind, Option.bind_some]
    cases T.toList.getLast? <;> rfl

theorem calls_foreach_sub :
    let ops : List (MapOp Int (Option Nat)) := [.put 2 (some 20), .put 1 (some 10), .put 3 none, .remove 2]
    ∃ map l, runSteps (TMap.step fun a b => a - b) (TMap.new : TMap Int Nat) ops =
        some (map, (specSteps spec Table.empty ops).2) ∧
      (specSteps spec Table.empty ops).1.Listing l ∧ (l.map Prod.fst).Pairwise (· < ·) ∧
      (∃ visited : List (Int × Option Nat), visited.Perm l ∧ map.foreachKey = some (visited.map fun x => some x.1) ∧
        map.foreachValue = some (visited.map Prod.snd)) ∧
      map.firstKey = some (l.head?.map Prod.fst) ∧ map.firstValue = some (l.head?.bind Prod.snd) ∧
      map.lastKey = some (l.getLast?.map Prod.fst) ∧ map.lastValue = some (l.getLast?.bind Prod.snd) :=
  calls_foreach ⟨fun a b => Int.sub_pos, fun a b => by omega⟩ _

end Renameutils.TMap
