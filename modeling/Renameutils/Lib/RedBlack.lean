import Mathlib.Data.List.Basic

/-!
# Red-black trees

Trees whose nodes are red or black, and paths in them: a `Path` leads from a place in the tree up to the
root, and `plug t path` is the tree with `t` at that place. What has a left and a right version is said once,
with a `Side`: the tree `branch s red x a y` has `x` on the side `s`.
-/

inductive Side where
  | left
  | right
  deriving DecidableEq

def Side.other : Side → Side
  | .left => .right
  | .right => .left

@[simp] theorem Side.other_other (s : Side) : s.other.other = s := by cases s <;> rfl

theorem Side.eq_or_eq_other (s s' : Side) : s' = s ∨ s' = s.other := by cases s <;> cases s' <;> decide

inductive RBTree (α : Type) where
  | leaf
  | node (red : Bool) (l : RBTree α) (a : α) (r : RBTree α)

namespace RBTree

variable {α : Type}

def isRed : RBTree α → Bool
  | leaf => false
  | node red _ _ _ => red

/-- The tree with a black root. -/
def blacken : RBTree α → RBTree α
  | leaf => leaf
  | node _ l a r => node false l a r

def toList : RBTree α → List α
  | leaf => []
  | node _ l a r => l.toList ++ a :: r.toList

def branch (s : Side) (red : Bool) (x : RBTree α) (a : α) (y : RBTree α) : RBTree α :=
  match s with
  | .left => node red x a y
  | .right => node red y a x

/-- The number of black nodes on each way from the root to a leaf is `n`. -/
def Height : RBTree α → Nat → Prop
  | leaf, n => n = 0
  | node red l _ r, n => ∃ m, Height l m ∧ Height r m ∧ n = m + (!red).toNat

def Balanced (t : RBTree α) : Prop := ∃ n, t.Height n

/-- No red node has a red child. -/
def NoRedRed : RBTree α → Prop
  | leaf => True
  | node red l _ r => (red = true → l.isRed = false ∧ r.isRed = false) ∧ NoRedRed l ∧ NoRedRed r

variable {s : Side} {red : Bool} {x y t : RBTree α} {a : α} {n : Nat}

theorem branch_other (s : Side) (red : Bool) (x : RBTree α) (a : α) (y : RBTree α) :
    branch s.other red x a y = branch s red y a x := by cases s <;> rfl

theorem eq_leaf_or_branch (s : Side) (t : RBTree α) :
    t = leaf ∨ ∃ red x a y, t = branch s red x a y := by
  cases t with
  | leaf => exact .inl rfl
  | node red l a r =>
    cases s
    · exact .inr ⟨red, l, a, r, rfl⟩
    · exact .inr ⟨red, r, a, l, rfl⟩

@[simp] theorem isRed_branch : (branch s red x a y).isRed = red := by cases s <;> rfl

@[simp] theorem blacken_branch : (branch s red x a y).blacken = branch s false x a y := by
  cases s <;> rfl

@[simp] theorem isRed_blacken (t : RBTree α) : t.blacken.isRed = false := by cases t <;> rfl

@[simp] theorem toList_blacken (t : RBTree α) : t.blacken.toList = t.toList := by cases t <;> rfl

theorem blacken_of_black (h : t.isRed = false) : t.blacken = t := by
  cases t with
  | leaf => rfl
  | node red l a r => cases h; rfl

theorem height_branch :
    (branch s red x a y).Height n ↔ ∃ m, x.Height m ∧ y.Height m ∧ n = m + (!red).toNat := by
  cases s
  · rfl
  · exact exists_congr fun m => and_left_comm

theorem noRedRed_branch : (branch s red x a y).NoRedRed ↔
    (red = true → x.isRed = false ∧ y.isRed = false) ∧ x.NoRedRed ∧ y.NoRedRed := by
  cases s
  · rfl
  · exact and_congr (imp_congr_right fun _ => and_comm) and_comm

theorem height_red : (branch s true x a y).Height n ↔ x.Height n ∧ y.Height n := by
  simp [height_branch]

theorem height_black : (branch s false x a y).Height (n + 1) ↔ x.Height n ∧ y.Height n := by
  simp only [height_branch, Bool.not_false, Bool.toNat_true]
  constructor
  · rintro ⟨m, hx, hy, h⟩
    obtain rfl : n = m := Nat.succ.inj h
    exact ⟨hx, hy⟩
  · exact fun ⟨hx, hy⟩ => ⟨n, hx, hy, rfl⟩

theorem noRedRed_red : (branch s true x a y).NoRedRed ↔
    (x.isRed = false ∧ y.isRed = false) ∧ x.NoRedRed ∧ y.NoRedRed := by
  simp [noRedRed_branch]

theorem noRedRed_black : (branch s false x a y).NoRedRed ↔ x.NoRedRed ∧ y.NoRedRed := by
  simp [noRedRed_branch]

theorem Height.blacken (h : t.Height n) : t.blacken.Height (n + t.isRed.toNat) := by
  cases t with
  | leaf => exact h
  | node red l a r =>
    obtain ⟨m, hl, hr, rfl⟩ := h
    exact ⟨m, hl, hr, by cases red <;> rfl⟩

theorem Balanced.blacken (h : t.Balanced) : t.blacken.Balanced := h.imp' _ fun _ => Height.blacken

theorem NoRedRed.blacken (h : t.NoRedRed) : t.blacken.NoRedRed := by
  cases t with
  | leaf => exact h
  | node red l a r => exact ⟨by simp, h.2⟩

theorem exists_branch_of_height (s : Side) (h : t.Height (n + 1)) : ∃ red x a y, t = branch s red x a y := by
  rcases t.eq_leaf_or_branch s with rfl | ht
  · cases h
  · exact ht

/-- The node above a place, which is its child on the side `side`. -/
structure Frame (α : Type) where
  side : Side
  red : Bool
  a : α
  sibling : RBTree α

def Frame.fill (f : Frame α) (t : RBTree α) : RBTree α := branch f.side f.red t f.a f.sibling

/-- The nodes from a place to the root. -/
abbrev Path (α : Type) := List (Frame α)

def plug : RBTree α → Path α → RBTree α
  | t, [] => t
  | t, f :: path => plug (f.fill t) path

namespace Path

/-- Whether the node above the place is red. -/
def isRed : Path α → Bool
  | [] => false
  | f :: _ => f.red

/-- The ways through the place have as many black nodes as the other ways if a tree of this height is
there. -/
def Height : Path α → Nat → Prop
  | [], _ => True
  | f :: path, n => f.sibling.Height n ∧ Height path (n + (!f.red).toNat)

/-- No red node has a red child, apart from the place. -/
def NoRedRed : Path α → Prop
  | [] => True
  | f :: path => f.sibling.NoRedRed ∧ (f.red = true → f.sibling.isRed = false ∧ isRed path = false) ∧
    NoRedRed path

/-- What comes before the place, and what comes after it. -/
def before : Path α → List α
  | [] => []
  | f :: path => before path ++ match f.side with
    | .left => []
    | .right => f.sibling.toList ++ [f.a]

def after : Path α → List α
  | [] => []
  | f :: path => (match f.side with
    | .left => f.a :: f.sibling.toList
    | .right => []) ++ after path

theorem before_append (path path' : Path α) : before (path ++ path') = before path' ++ before path := by
  induction path with
  | nil => simp [before]
  | cons f path ih => simp [before, ih]

theorem after_append (path path' : Path α) : after (path ++ path') = after path ++ after path' := by
  induction path with
  | nil => simp [after]
  | cons f path ih => simp [after, ih]

end Path

@[simp] theorem plug_nil (t : RBTree α) : plug t [] = t := rfl

@[simp] theorem plug_cons (t : RBTree α) (f : Frame α) (path : Path α) :
    plug t (f :: path) = plug (f.fill t) path := rfl

theorem plug_append (t : RBTree α) (path path' : Path α) : plug t (path ++ path') = plug (plug t path) path' := by
  induction path generalizing t with
  | nil => rfl
  | cons f path ih => exact ih (f.fill t)

theorem plug_swap (s : Side) (red : Bool) (x : RBTree α) (a : α) (y : RBTree α) (path : Path α) :
    plug x (⟨s, red, a, y⟩ :: path) = plug y (⟨s.other, red, a, x⟩ :: path) := by
  rw [plug_cons, plug_cons, Frame.fill, Frame.fill, branch_other]

theorem toList_plug (t : RBTree α) (path : Path α) :
    (plug t path).toList = Path.before path ++ t.toList ++ Path.after path := by
  induction path generalizing t with
  | nil => simp [Path.before, Path.after]
  | cons f path ih =>
    rw [plug_cons, ih, Frame.fill, Path.before, Path.after]
    cases f.side <;> simp [branch, toList]

theorem balanced_plug {path : Path α} :
    (plug t path).Balanced ↔ ∃ n, t.Height n ∧ Path.Height path n := by
  induction path generalizing t with
  | nil => exact exists_congr fun n => (and_iff_left trivial).symm
  | cons f path ih =>
    rw [plug_cons, ih]
    constructor
    · rintro ⟨n, hf, hp⟩
      obtain ⟨m, ht, hs, rfl⟩ := height_branch.mp hf
      exact ⟨m, ht, hs, hp⟩
    · rintro ⟨m, ht, hs, hp⟩
      exact ⟨_, height_branch.mpr ⟨m, ht, hs, rfl⟩, hp⟩

theorem noRedRed_plug {path : Path α} :
    (plug t path).NoRedRed ↔
      t.NoRedRed ∧ Path.NoRedRed path ∧ (Path.isRed path = true → t.isRed = false) := by
  induction path generalizing t with
  | nil => simp [Path.NoRedRed, Path.isRed]
  | cons f path ih =>
    rw [plug_cons, ih, Frame.fill, noRedRed_branch, isRed_branch, Path.NoRedRed]
    show _ ↔ _ ∧ _ ∧ (f.red = true → _)
    cases Path.isRed path <;> cases f.red <;> simp <;> tauto

theorem redBlack_replace {path : Path α} {b : α} (hb : (plug (branch s red x a y) path).Balanced)
    (hn : (plug (branch s red x a y) path).NoRedRed) :
    (plug (branch s red x b y) path).Balanced ∧ (plug (branch s red x b y) path).NoRedRed := by
  obtain ⟨n, ht, hp⟩ := balanced_plug.mp hb
  obtain ⟨htn, hpn, hc⟩ := noRedRed_plug.mp hn
  rw [isRed_branch] at hc
  exact ⟨balanced_plug.mpr ⟨n, height_branch.mpr (height_branch.mp ht), hp⟩,
    noRedRed_plug.mpr ⟨noRedRed_branch.mpr (noRedRed_branch.mp htn), hpn, by rwa [isRed_branch]⟩⟩

/-! ### In order -/

/-- The nodes in order, from the side `s` on. -/
def walk (s : Side) (t : RBTree α) : List α :=
  match s with
  | .left => t.toList
  | .right => t.toList.reverse

@[simp] theorem walk_leaf (s : Side) : walk s (leaf : RBTree α) = [] := by cases s <;> rfl

theorem walk_branch (s : Side) (red : Bool) (x : RBTree α) (a : α) (y : RBTree α) :
    walk s (branch s red x a y) = walk s x ++ a :: walk s y := by
  cases s <;> simp [walk, branch, toList]

theorem branch_induction (s : Side) {P : RBTree α → Prop} (leaf : P leaf)
    (branch : ∀ red x a y, P x → P y → P (branch s red x a y)) (t : RBTree α) : P t := by
  induction t with
  | leaf => exact leaf
  | node red l a r ihl ihr =>
    cases s with
    | left => exact branch red l a r ihl ihr
    | right => exact branch red r a l ihr ihl

/-- The nodes, each after its children. -/
def postorder : RBTree α → List α
  | leaf => []
  | node _ l a r => postorder l ++ postorder r ++ [a]

theorem postorder_perm (t : RBTree α) : t.postorder.Perm t.toList := by
  induction t with
  | leaf => exact .refl _
  | node red l a r ihl ihr =>
    rw [postorder, toList, List.append_assoc]
    exact ihl.append (List.perm_append_comm.trans (ihr.cons a))

theorem exists_plug {T : RBTree α} {before after : List α} (h : T.toList = before ++ a :: after) :
    ∃ red l r path, T = plug (node red l a r) path ∧ after = r.toList ++ Path.after path := by
  induction T generalizing before after with
  | leaf => simp [toList] at h
  | node red l b r ihl ihr =>
    rcases List.append_eq_append_iff.mp (show l.toList ++ b :: r.toList = before ++ a :: after from h) with
      ⟨m, rfl, hm⟩ | ⟨m, hl, hm⟩
    · cases m with
      | nil =>
        obtain ⟨rfl, rfl⟩ := List.cons.inj (show b :: r.toList = a :: after from hm)
        exact ⟨red, l, r, [], rfl, (List.append_nil _).symm⟩
      | cons c m =>
        obtain ⟨rfl, hr⟩ := List.cons.inj hm
        obtain ⟨red', l', r', path, rfl, rfl⟩ := ihr hr
        refine ⟨red', l', r', path ++ [⟨.right, red, b, l⟩], ?_, ?_⟩
        · rw [plug_append]
          rfl
        · simp [Path.after_append, Path.after]
    · cases m with
      | nil =>
        obtain ⟨rfl, rfl⟩ := List.cons.inj (show a :: after = b :: r.toList from hm)
        exact ⟨red, l, r, [], rfl, (List.append_nil _).symm⟩
      | cons c m =>
        obtain ⟨rfl, rfl⟩ := List.cons.inj hm
        obtain ⟨red', l', r', path, rfl, rfl⟩ := ihl hl
        refine ⟨red', l', r', path ++ [⟨.left, red, b, r⟩], ?_, ?_⟩
        · rw [plug_append]
          rfl
        · simp [Path.after_append, Path.after]

end RBTree
