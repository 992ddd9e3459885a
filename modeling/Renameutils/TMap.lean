import Renameutils.Lib.Arena
import Renameutils.Lib.RedBlack

/-!
# The red-black map

`common/tmap.c`. The nodes are on a heap; a pointer to a node is an address, and the address of the static
node `nil` is 0. Keys are of a type `κ` (only `nil` has none), values are pointers of a type `ν` or `NULL`;
`compare` is the comparison function that has been set.

Every function gives `none` where the C code has no defined meaning: when it reads or writes a node that is
not there, or never leaves a loop. What the source has in a left and a right version is one definition with a
`Side`. The functions have their names in the source, without `tmap_`.
-/

namespace Renameutils

structure TMapNode (κ ν : Type) where
  key : Option κ
  value : Option ν
  red : Bool
  left : Nat
  right : Nat
  parent : Nat

/-- The address of `nil`. -/
abbrev nil : Nat := 0

namespace TMapNode
variable {κ ν : Type}

def nilNode : TMapNode κ ν :=
  { key := none, value := none, red := false, left := nil, right := nil, parent := nil }

def child (node : TMapNode κ ν) : Side → Nat
  | .left => node.left
  | .right => node.right

def setChild (s : Side) (i : Nat) (node : TMapNode κ ν) : TMapNode κ ν :=
  match s with
  | .left => { node with left := i }
  | .right => { node with right := i }

def setParent (i : Nat) (node : TMapNode κ ν) : TMapNode κ ν := { node with parent := i }

def setRed (red : Bool) (node : TMapNode κ ν) : TMapNode κ ν := { node with red := red }

end TMapNode

structure TMap (κ ν : Type) where
  nodes : Arena (TMapNode κ ν)
  root : Nat
  size : Nat

namespace TMap

variable {κ ν : Type} (compare : κ → κ → Int)

/-- `tmap_new`, and the static node. -/
def new : TMap κ ν := { nodes := (Arena.empty.alloc .nilNode).1, root := nil, size := 0 }

/-- No loop up or down the tree takes more steps than there are nodes, unless it never ends. -/
def fuel (map : TMap κ ν) : Nat := map.nodes.fresh + 1

/-- An assignment to fields of the node at `i`. -/
def write (map : TMap κ ν) (i : Nat) (f : TMapNode κ ν → TMapNode κ ν) : Option (TMap κ ν) := do
  let nodes ← map.nodes.write i f
  some { map with nodes := nodes }

/-- The loop of `tmap_get_node`. -/
def getNodeLoop (map : TMap κ ν) (key : κ) : Nat → Nat → Option Nat
  | 0, _ => none
  | fuel + 1, node =>
    if node = nil then some node
    else do
      let n ← map.nodes.cells node
      let k ← n.key
      if 0 < compare key k then getNodeLoop map key fuel n.right
      else if compare key k < 0 then getNodeLoop map key fuel n.left
      else some node

def getNode (map : TMap κ ν) (key : κ) : Option Nat := map.getNodeLoop compare key map.fuel map.root

def containsKey (map : TMap κ ν) (key : κ) : Option Bool := do
  let node ← map.getNode compare key
  some (node != nil)

def get (map : TMap κ ν) (key : κ) : Option (Option ν) := do
  let node ← map.getNode compare key
  let n ← map.nodes.cells node
  some n.value

/-- `if (child != &nil) f(child);`. -/
def unlessNil (f : Arena (TMapNode κ ν) → Nat → Option (Arena (TMapNode κ ν))) (nodes : Arena (TMapNode κ ν))
    (child : Nat) : Option (Arena (TMapNode κ ν)) :=
  if child ≠ nil then f nodes child else some nodes

def clearNodes : Nat → Arena (TMapNode κ ν) → Nat → Option (Arena (TMapNode κ ν))
  | 0, _, _ => none
  | fuel + 1, nodes, node => do
    let n ← nodes.cells node
    let nodes ← unlessNil (clearNodes fuel) nodes n.left
    let n ← nodes.cells node
    let nodes ← unlessNil (clearNodes fuel) nodes n.right
    nodes.free node

def clear (map : TMap κ ν) : Option (TMap κ ν) :=
  if map.root ≠ nil then do
    let nodes ← clearNodes map.fuel map.nodes map.root
    some { map with nodes := nodes, root := nil, size := 0 }
  else some { map with size := 0 }

/-- `if (child != &nil) child->parent = parent;`. -/
def setParent (map : TMap κ ν) (child parent : Nat) : Option (TMap κ ν) :=
  if child ≠ nil then map.write child (.setParent parent) else some map

section Rotate

/-- `child` takes the place of `node` below the parent of `node`: the child on the side `s` is looked at
first. -/
def replaceChild (s : Side) (map : TMap κ ν) (parent node child : Nat) : Option (TMap κ ν) :=
  if parent ≠ nil then do
    let p ← map.nodes.cells parent
    if node = p.child s then map.write parent (.setChild s child)
    else map.write parent (.setChild s.other child)
  else some { map with root := child }

def rotate (s : Side) (map : TMap κ ν) (node : Nat) : Option (TMap κ ν) := do
  let n ← map.nodes.cells node
  let child := n.child s.other
  let c ← map.nodes.cells child
  let map ← map.write node (.setChild s.other (c.child s))
  let map ← map.setParent (c.child s) node
  let map ← map.write child (.setParent n.parent)
  let map ← map.replaceChild s n.parent node child
  let map ← map.write child (.setChild s node)
  map.write node (.setParent child)

def rotateLeft (map : TMap κ ν) (node : Nat) : Option (TMap κ ν) := map.rotate .left node

def rotateRight (map : TMap κ ν) (node : Nat) : Option (TMap κ ν) := map.rotate .right node

end Rotate

section Delete

/-- The first part of a turn of `tmap_delete_rebalance`, for a node on the side `s`: a red sibling. Also gives
the sibling. -/
def redSibling (s : Side) (map : TMap κ ν) (parent : Nat) : Option (TMap κ ν × Nat) := do
  let p ← map.nodes.cells parent
  let sibling := p.child s.other
  let n ← map.nodes.cells sibling
  if n.red then do
    let map ← map.write sibling (.setRed false)
    let map ← map.write parent (.setRed true)
    let map ← map.rotate s parent
    let p ← map.nodes.cells parent
    some (map, p.child s.other)
  else some (map, sibling)

/-- A black far child of the sibling. Also gives the sibling. -/
def nearChild (s : Side) (map : TMap κ ν) (parent sibling : Nat) : Option (TMap κ ν × Nat) := do
  let n ← map.nodes.cells sibling
  let far ← map.nodes.cells (n.child s.other)
  if !far.red then do
    let map ← map.write (n.child s) (.setRed false)
    let map ← map.write sibling (.setRed true)
    let map ← map.rotate s.other sibling
    let p ← map.nodes.cells parent
    some (map, p.child s.other)
  else some (map, sibling)

/-- A red far child of the sibling. -/
def farChild (s : Side) (map : TMap κ ν) (parent sibling : Nat) : Option (TMap κ ν) := do
  let p ← map.nodes.cells parent
  let map ← map.write sibling (.setRed p.red)
  let map ← map.write parent (.setRed false)
  let n ← map.nodes.cells sibling
  let map ← map.write (n.child s.other) (.setRed false)
  map.rotate s parent

/-- The second part of a turn of `tmap_delete_rebalance`. Also gives the next `node` and `parent`. -/
def blackSibling (s : Side) (map : TMap κ ν) (parent sibling : Nat) : Option (TMap κ ν × Nat × Nat) := do
  let n ← map.nodes.cells sibling
  let l ← map.nodes.cells n.left
  let r ← map.nodes.cells n.right
  if !l.red && !r.red then do
    let map ← map.write sibling (.setRed true)
    let p ← map.nodes.cells parent
    some (map, parent, p.parent)
  else do
    let (map, sibling) ← map.nearChild s parent sibling
    let map ← map.farChild s parent sibling
    some (map, map.root, parent)

def deleteRebalance : Nat → TMap κ ν → Nat → Nat → Option (TMap κ ν)
  | 0, _, _, _ => none
  | fuel + 1, map, node, parent => do
    let n ← map.nodes.cells node
    if node ≠ map.root ∧ n.red = false then do
      let p ← map.nodes.cells parent
      let s := if node = p.left then Side.left else .right
      let (map, sibling) ← map.redSibling s parent
      let (map, node, parent) ← map.blackSibling s parent sibling
      deleteRebalance fuel map node parent
    else map.write node (.setRed false)

/-- `while (splice->right != &nil) splice = splice->right;`. -/
def lastLoop (map : TMap κ ν) : Nat → Nat → Option Nat
  | 0, _ => none
  | fuel + 1, splice => do
    let n ← map.nodes.cells splice
    if n.right ≠ nil then lastLoop map fuel n.right else some splice

def freeNode (map : TMap κ ν) (node : Nat) : Option (TMap κ ν) := do
  let nodes ← map.nodes.free node
  some { map with nodes := nodes }

/-- The end of `tmap_remove_node`: `splice`, which has no other child than `child`, leaves the tree. -/
def spliceOut (map : TMap κ ν) (splice child : Nat) : Option (TMap κ ν) := do
  let n ← map.nodes.cells splice
  let parent := n.parent
  let map ← map.setParent child parent
  let map ← map.replaceChild .left parent splice child
  if parent ≠ nil ∧ n.red = false then do
    let map ← deleteRebalance map.fuel map child parent
    map.freeNode splice
  else map.freeNode splice

def removeNode (map : TMap κ ν) (node : Nat) : Option (TMap κ ν) := do
  let map := { map with size := map.size - 1 }
  let n ← map.nodes.cells node
  if n.left = nil then map.spliceOut node n.right
  else if n.right = nil then map.spliceOut node n.left
  else do
    let splice ← map.lastLoop map.fuel n.left
    let m ← map.nodes.cells splice
    let map ← map.write node fun n => { n with key := m.key, value := m.value }
    map.spliceOut splice m.left

def remove (map : TMap κ ν) (key : κ) : Option (TMap κ ν × Option ν) := do
  let node ← map.getNode compare key
  if node ≠ nil then do
    let n ← map.nodes.cells node
    let map ← map.removeNode node
    some (map, n.value)
  else some (map, none)

end Delete

section Insert

/-- A red uncle. Also gives the next `node`. -/
def redUncle (map : TMap κ ν) (node uncle : Nat) : Option (TMap κ ν × Nat) := do
  let n ← map.nodes.cells node
  let map ← map.write n.parent (.setRed false)
  let map ← map.write uncle (.setRed false)
  let u ← map.nodes.cells uncle
  let map ← map.write u.parent (.setRed true)
  some (map, u.parent)

/-- `node` is the child of its parent that is not on the side `s`. Also gives the next `node`. -/
def innerChild (s : Side) (map : TMap κ ν) (node : Nat) : Option (TMap κ ν × Nat) := do
  let n ← map.nodes.cells node
  let p ← map.nodes.cells n.parent
  if node = p.child s.other then do
    let map ← map.rotate s n.parent
    some (map, n.parent)
  else some (map, node)

def outerChild (s : Side) (map : TMap κ ν) (node : Nat) : Option (TMap κ ν) := do
  let n ← map.nodes.cells node
  let map ← map.write n.parent (.setRed false)
  let p ← map.nodes.cells n.parent
  let map ← map.write p.parent (.setRed true)
  map.rotate s.other p.parent

/-- `tmap_insert_rebalance`; `s` is the side of the grandparent that the parent is on. -/
def insertRebalance : Nat → TMap κ ν → Nat → Option (TMap κ ν)
  | 0, _, _ => none
  | fuel + 1, map, node => do
    let n ← map.nodes.cells node
    let p ← map.nodes.cells n.parent
    if p.red ∧ p.parent ≠ nil then do
      let g ← map.nodes.cells p.parent
      let s := if n.parent = g.left then Side.left else .right
      let uncle := g.child s.other
      let u ← map.nodes.cells uncle
      if u.red then do
        let (map, node) ← map.redUncle node uncle
        insertRebalance fuel map node
      else do
        let (map, node) ← map.innerChild s node
        let map ← map.outerChild s node
        insertRebalance fuel map node
    else map.write map.root (.setRed false)

/-- The loop of `tmap_put`: `node`, `parent` and `compare` when it ends. -/
def putLoop (map : TMap κ ν) (key : κ) : Nat → Nat → Nat → Int → Option (Nat × Nat × Int)
  | 0, _, _, _ => none
  | fuel + 1, node, parent, c =>
    if node = nil then some (node, parent, c)
    else do
      let n ← map.nodes.cells node
      let k ← n.key
      if 0 < compare key k then putLoop map key fuel n.right node (compare key k)
      else if compare key k < 0 then putLoop map key fuel n.left node (compare key k)
      else some (node, node, compare key k)

def put (map : TMap κ ν) (key : κ) (value : Option ν) : Option (TMap κ ν × Option ν) := do
  let (node, parent, c) ← map.putLoop compare key map.fuel map.root nil 0
  if node ≠ nil then do
    let n ← map.nodes.cells node
    let map ← map.write node fun n => { n with value := value }
    some (map, n.value)
  else
    let (nodes, node) := map.nodes.alloc
      { key := key, value := value, red := true, left := nil, right := nil, parent := parent }
    let map := { map with nodes := nodes, size := map.size + 1 }
    if parent = nil then do
      let map := { map with root := node }
      let map ← map.write node (.setRed false)
      some (map, none)
    else do
      let map ← map.write parent (.setChild (if 0 < c then .right else .left) node)
      let map ← insertRebalance map.fuel map node
      some (map, none)

end Insert

section Iterator

/-- `while (node->left != &nil) node = node->left;`. -/
def firstLoop (map : TMap κ ν) : Nat → Nat → Option Nat
  | 0, _ => none
  | fuel + 1, node => do
    let n ← map.nodes.cells node
    if n.left ≠ nil then firstLoop map fuel n.left else some node

def firstNode (map : TMap κ ν) : Option Nat := map.firstLoop map.fuel map.root

/-- The second loop of `successor`. -/
def upLoop (map : TMap κ ν) : Nat → Nat → Nat → Option Nat
  | 0, _, _ => none
  | fuel + 1, node, parent => do
    let p ← map.nodes.cells parent
    if node = p.right then upLoop map fuel parent p.parent else some parent

def successor (map : TMap κ ν) (node : Nat) : Option Nat := do
  let n ← map.nodes.cells node
  if n.right ≠ nil then map.firstLoop map.fuel n.right else map.upLoop map.fuel node n.parent

/-- The first and the last node that are still to come; `n1` is `nil` if all are. -/
structure TMapIterator where
  n0 : Nat
  n1 : Nat

namespace TMapIterator

/-- `tmap_iterator_has_next`. -/
def hasNext (it : TMapIterator) : Bool := it.n0 != nil

/-- `tmap_iterator_next`. A value may be `NULL`, and so is the result after the last value; here that is
`none`. -/
def next (map : TMap κ ν) (it : TMapIterator) : Option (Option (Option ν) × TMapIterator) :=
  if it.n0 = nil then some (none, it)
  else do
    let n ← map.nodes.cells it.n0
    let n0 ← if it.n0 = it.n1 then some nil else map.successor it.n0
    some (some n.value, { it with n0 := n0 })

end TMapIterator

def iterator (map : TMap κ ν) : Option TMapIterator := do
  let n0 ← map.firstNode
  some { n0 := n0, n1 := nil }

variable {μ : Type} (comparator : μ → κ → Int) (pattern : μ)

/-- The outer loop of `tmap_iterator_partial`: a node that matches, or `nil`. -/
def matchLoop (map : TMap κ ν) : Nat → Nat → Option Nat
  | 0, _ => none
  | fuel + 1, node =>
    if node = nil then some nil
    else do
      let n ← map.nodes.cells node
      let k ← n.key
      if 0 < comparator pattern k then matchLoop map fuel n.right
      else if comparator pattern k < 0 then matchLoop map fuel n.left
      else some node

/-- An inner loop, to the match that is the furthest on the side `s`. -/
def edgeLoop (s : Side) (map : TMap κ ν) : Nat → Nat → Nat → Option Nat
  | 0, _, _ => none
  | fuel + 1, nx, node =>
    if node = nil then some nx
    else do
      let n ← map.nodes.cells node
      let k ← n.key
      if comparator pattern k = 0 then edgeLoop s map fuel node (n.child s)
      else edgeLoop s map fuel nx (n.child s.other)

/-- `tmap_iterator_partial`, for the match `pattern`. -/
def iteratorPartial (map : TMap κ ν) : Option (Bool × TMapIterator) := do
  let node ← map.matchLoop comparator pattern map.fuel map.root
  if node = nil then some (false, { n0 := nil, n1 := nil })
  else do
    let n ← map.nodes.cells node
    let n0 ← map.edgeLoop comparator pattern .left map.fuel node n.left
    let n1 ← map.edgeLoop comparator pattern .right map.fuel node n.right
    some (true, { n0 := n0, n1 := n1 })

end Iterator

end TMap

end Renameutils
