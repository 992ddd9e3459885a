import Renameutils.Lib.RedBlack

/-!
# Rebalancing

`InsertFix t path t'`: a red node has been put in at a place, with the tree `t` below, and may have a red
parent; recolouring and rotating on the way up makes `t'`, which is a red-black tree once its root is black.

`DeleteFix t path t'`: a black node is missing above `t`; the way up makes the red-black tree `t'`.
-/

namespace RBTree

variable {α : Type}

inductive InsertFix : RBTree α → Path α → RBTree α → Prop
  /-- the parent is black, or there is none -/
  | black {t path} : Path.isRed path = false → InsertFix t path (plug t path)
  /-- the parent is the root -/
  | root {t f} : InsertFix t [f] (plug t [f])
  /-- the uncle is red too -/
  | recolor {s s' c t a w b u path t'} : u.isRed = true →
      InsertFix (branch s true (branch s' false t a w) b u.blacken) path t' →
      InsertFix t (⟨s', true, a, w⟩ :: ⟨s, c, b, u⟩ :: path) t'
  /-- the uncle is black, and the new node is on the outside -/
  | outer {s c t a w b u path} : u.isRed = false →
      InsertFix t (⟨s, true, a, w⟩ :: ⟨s, c, b, u⟩ :: path)
        (plug (branch s false t a (branch s true w b u)) path)
  /-- the uncle is black, and the new node is on the inside -/
  | inner {s r c x d y a w b u path} : u.isRed = false →
      InsertFix (branch s r x d y) (⟨s.other, true, a, w⟩ :: ⟨s, c, b, u⟩ :: path)
        (plug (branch s false (branch s true w a x) d (branch s true y b u)) path)

inductive DeleteFix : RBTree α → Path α → RBTree α → Prop
  | root {t} : DeleteFix t [] t.blacken
  | red {t f path} : t.isRed = true → DeleteFix t (f :: path) (plug t.blacken (f :: path))
  /-- the sibling is red -/
  | sibling {s c t a y b z path t'} : t.isRed = false →
      DeleteFix t (⟨s, true, a, y⟩ :: ⟨s, false, b, z⟩ :: path) t' →
      DeleteFix t (⟨s, c, a, branch s true y b z⟩ :: path) t'
  /-- the sibling and both its children are black -/
  | up {s c t a y b z path t'} : t.isRed = false → y.isRed = false → z.isRed = false →
      DeleteFix (branch s c t a (branch s true y b z)) path t' →
      DeleteFix t (⟨s, c, a, branch s false y b z⟩ :: path) t'
  /-- the near child of the sibling is red -/
  | near {s c t a y b z d w path} : t.isRed = false → w.isRed = false →
      DeleteFix t (⟨s, c, a, branch s false (branch s true y b z) d w⟩ :: path)
        (plug (branch s c (branch s false t a y) b (branch s false z d w)) path).blacken
  /-- the far child of the sibling is red -/
  | far {s c t a y b z path} : t.isRed = false → z.isRed = true →
      DeleteFix t (⟨s, c, a, branch s false y b z⟩ :: path)
        (plug (branch s c (branch s false t a y) b z.blacken) path).blacken

variable {s : Side} {red : Bool} {x y t t' : RBTree α} {a b : α} {path : Path α} {n : Nat}

theorem toList_branch (s : Side) (red : Bool) (x : RBTree α) (a : α) (y : RBTree α) :
    (branch s red x a y).toList = match s with
      | .left => x.toList ++ a :: y.toList
      | .right => y.toList ++ a :: x.toList := by
  cases s <;> rfl

theorem toList_plug_congr (h : t.toList = t'.toList) : (plug t path).toList = (plug t' path).toList := by
  rw [toList_plug, toList_plug, h]

theorem InsertFix.toList (h : InsertFix t path t') : t'.toList = (plug t path).toList := by
  induction h with
  | black | root => rfl
  | recolor _ _ ih =>
    rw [ih]
    exact toList_plug_congr (by simp [Frame.fill, toList_branch])
  | @outer s =>
    exact toList_plug_congr (by cases s <;> simp [Frame.fill, toList_branch])
  | @inner s =>
    exact toList_plug_congr (by cases s <;> simp [Frame.fill, toList_branch, Side.other])

theorem DeleteFix.toList (h : DeleteFix t path t') : t'.toList = (plug t path).toList := by
  induction h with
  | root => exact toList_blacken _
  | red => exact toList_plug_congr (toList_blacken _)
  | @sibling s _ _ _ _ _ _ _ _ _ _ ih =>
    rw [ih, plug_cons, plug_cons, plug_cons]
    exact toList_plug_congr (by cases s <;> simp [Frame.fill, toList_branch])
  | @up s _ _ _ _ _ _ _ _ _ _ _ _ ih =>
    rw [ih]
    exact toList_plug_congr (by cases s <;> simp [Frame.fill, toList_branch])
  | @near s =>
    rw [toList_blacken]
    exact toList_plug_congr (by cases s <;> simp [Frame.fill, toList_branch])
  | @far s =>
    rw [toList_blacken]
    exact toList_plug_congr (by cases s <;> simp [Frame.fill, toList_branch])

/-- The tree and the place fit, apart from the colours of the root and of its parent. -/
structure Fits (t : RBTree α) (path : Path α) (n m : Nat) : Prop where
  height : t.Height n
  pathHeight : Path.Height path m
  noRedRed : t.NoRedRed
  pathNoRedRed : Path.NoRedRed path

namespace Fits

theorem plug {t : RBTree α} (h : Fits t path n n) (hc : Path.isRed path = true → t.isRed = false) :
    (plug t path).Balanced ∧ (RBTree.plug t path).NoRedRed :=
  ⟨balanced_plug.mpr ⟨n, h.height, h.pathHeight⟩, noRedRed_plug.mpr ⟨h.noRedRed, h.pathNoRedRed, hc⟩⟩

theorem blacken_plug {t : RBTree α} (h : Fits t path n n) (hc : Path.isRed path = true → t.isRed = false) :
    (RBTree.plug t path).blacken.Balanced ∧ (RBTree.plug t path).blacken.NoRedRed :=
  ⟨(h.plug hc).1.blacken, (h.plug hc).2.blacken⟩

end Fits

/-- Insertion makes a red-black tree. -/
theorem InsertFix.redBlack (h : InsertFix t path t') (hfit : Fits t path n n) (hred : t.isRed = true) :
    t'.blacken.Balanced ∧ t'.blacken.NoRedRed := by
  induction h generalizing n with
  | black hpath => exact hfit.blacken_plug fun h => by rw [hpath] at h; cases h
  | @root t f =>
    refine ⟨(balanced_plug.mpr ⟨n, hfit.height, hfit.pathHeight⟩).blacken, ?_⟩
    show (branch _ _ _ _ _).blacken.NoRedRed
    rw [blacken_branch, noRedRed_black]
    exact ⟨hfit.noRedRed, hfit.pathNoRedRed.1⟩
  | @recolor s s' c t a w b u path t' hu _ ih =>
    obtain ⟨hw, hu', hp⟩ := hfit.pathHeight
    obtain ⟨hwn, hwc, hun, hub, hpn⟩ := hfit.pathNoRedRed
    obtain rfl : c = false := (hwc rfl).2
    have hbu : u.blacken.Height (n + 1) := by
      have := hu'.blacken
      rwa [hu] at this
    refine ih ⟨height_red.mpr ⟨height_black.mpr ⟨hfit.height, hw⟩, hbu⟩, hp, ?_, hpn⟩ isRed_branch
    rw [noRedRed_red, noRedRed_black]
    exact ⟨⟨isRed_branch, isRed_blacken u⟩, ⟨hfit.noRedRed, hwn⟩, hun.blacken⟩
  | @outer s c t a w b u path hu =>
    obtain ⟨hw, hu', hp⟩ := hfit.pathHeight
    obtain ⟨hwn, hwc, hun, hub, hpn⟩ := hfit.pathNoRedRed
    obtain rfl : c = false := (hwc rfl).2
    refine Fits.blacken_plug
      ⟨height_black.mpr ⟨hfit.height, height_red.mpr ⟨hw, hu'⟩⟩, hp, ?_, hpn⟩ fun _ => isRed_branch
    rw [noRedRed_black, noRedRed_red]
    exact ⟨hfit.noRedRed, ⟨(hwc rfl).1, hu⟩, hwn, hun⟩
  | @inner s r c x d y a w b u path hu =>
    obtain rfl : r = true := isRed_branch.symm.trans hred
    obtain ⟨hw, hu', hp⟩ := hfit.pathHeight
    obtain ⟨hwn, hwc, hun, hub, hpn⟩ := hfit.pathNoRedRed
    obtain rfl : c = false := (hwc rfl).2
    obtain ⟨hx, hy⟩ := height_red.mp hfit.height
    obtain ⟨⟨hxc, hyc⟩, hxn, hyn⟩ := noRedRed_red.mp hfit.noRedRed
    refine Fits.blacken_plug
      ⟨height_black.mpr ⟨height_red.mpr ⟨hw, hx⟩, height_red.mpr ⟨hy, hu'⟩⟩, hp, ?_, hpn⟩
      fun _ => isRed_branch
    rw [noRedRed_black, noRedRed_red, noRedRed_red]
    exact ⟨⟨⟨(hwc rfl).1, hxc⟩, hwn, hxn⟩, ⟨hyc, hu⟩, hyn, hun⟩

/-- A black node is missing above `t`; the root of `t` and its parent may both be red. -/
structure Short (t : RBTree α) (path : Path α) (n : Nat) : Prop where
  height : t.Height n
  pathHeight : Path.Height path (n + 1)
  noRedRed : t.blacken.NoRedRed
  pathNoRedRed : Path.NoRedRed path

namespace Short
variable {c : Bool} {z : RBTree α} {f : Frame α}

/-- The sibling is higher, so that it is not a leaf. -/
theorem exists_sibling (h : Short t (f :: path) n) :
    ∃ r y b z, f.sibling = branch f.side r y b z := exists_branch_of_height _ h.pathHeight.1

theorem sibling (h : Short t (⟨s, c, a, branch s true y b z⟩ :: path) n) :
    y.isRed = false ∧ Short t (⟨s, true, a, y⟩ :: ⟨s, false, b, z⟩ :: path) n := by
  obtain ⟨hw, hp⟩ := h.pathHeight
  obtain ⟨hwn, hwc, hpn⟩ := h.pathNoRedRed
  obtain rfl : c = false := by
    cases c with
    | false => rfl
    | true => exact absurd (hwc rfl).1 (by rw [isRed_branch]; decide)
  obtain ⟨hy, hz⟩ := height_red.mp hw
  obtain ⟨⟨hyc, hzc⟩, hyn, hzn⟩ := noRedRed_red.mp hwn
  exact ⟨hyc, h.height, ⟨hy, hz, hp⟩, h.noRedRed, hyn, fun _ => ⟨hyc, rfl⟩, hzn, by simp, hpn⟩

theorem up (h : Short t (⟨s, c, a, branch s false y b z⟩ :: path) n) (ht : t.isRed = false)
    (hy : y.isRed = false) (hz : z.isRed = false) :
    Short (branch s c t a (branch s true y b z)) path (n + (!c).toNat) := by
  obtain ⟨hw, hp⟩ := h.pathHeight
  obtain ⟨hwn, -, hpn⟩ := h.pathNoRedRed
  obtain ⟨hyh, hzh⟩ := height_black.mp hw
  have htn := h.noRedRed
  rw [blacken_of_black ht] at htn
  refine ⟨height_branch.mpr ⟨n, h.height, height_red.mpr ⟨hyh, hzh⟩, rfl⟩, ?_, ?_, hpn⟩
  · rwa [Nat.add_right_comm] at hp
  · rw [blacken_branch, noRedRed_black, noRedRed_red]
    exact ⟨htn, ⟨hy, hz⟩, noRedRed_black.mp hwn⟩

end Short

theorem redBlack_splice_red (hb : (plug (branch s true t a leaf) path).Balanced)
    (hn : (plug (branch s true t a leaf) path).NoRedRed) :
    (plug t path).Balanced ∧ (plug t path).NoRedRed := by
  obtain ⟨n, ht, hp⟩ := balanced_plug.mp hb
  obtain ⟨htn, hpn, -⟩ := noRedRed_plug.mp hn
  obtain ⟨⟨hred, -⟩, htn, -⟩ := noRedRed_red.mp htn
  exact ⟨balanced_plug.mpr ⟨n, (height_red.mp ht).1, hp⟩, noRedRed_plug.mpr ⟨htn, hpn, fun _ => hred⟩⟩

/-- Without a black node with one child its place is short of a black node. -/
theorem short_splice_black (hb : (plug (branch s false t a leaf) path).Balanced)
    (hn : (plug (branch s false t a leaf) path).NoRedRed) : ∃ n, Short t path n := by
  obtain ⟨n, ht, hp⟩ := balanced_plug.mp hb
  obtain ⟨htn, hpn, -⟩ := noRedRed_plug.mp hn
  obtain ⟨m, htm, -, rfl⟩ := height_branch.mp ht
  exact ⟨m, htm, hp, (noRedRed_black.mp htn).1.blacken, hpn⟩

theorem redBlack_splice_root {r : Bool} (hb : (branch s r t a leaf).Balanced)
    (hn : (branch s r t a leaf).NoRedRed) : t.Balanced ∧ t.NoRedRed := by
  obtain ⟨n, hb⟩ := hb
  obtain ⟨m, ht, -, -⟩ := height_branch.mp hb
  exact ⟨⟨m, ht⟩, (noRedRed_branch.mp hn).2.1⟩

/-- Deletion makes a red-black tree. -/
theorem DeleteFix.redBlack (h : DeleteFix t path t') (hshort : Short t path n) :
    t'.Balanced ∧ t'.NoRedRed := by
  induction h generalizing n with
  | root => exact ⟨⟨_, hshort.height.blacken⟩, hshort.noRedRed⟩
  | @red t f path ht =>
    have hb := hshort.height.blacken
    rw [ht] at hb
    exact Fits.plug ⟨hb, hshort.pathHeight, hshort.noRedRed, hshort.pathNoRedRed⟩ fun _ => isRed_blacken t
  | sibling _ _ ih => exact ih hshort.sibling.2
  | up ht hy hz _ ih => exact ih (hshort.up ht hy hz)
  | @near s c t a y b z d w path ht hw =>
    obtain ⟨hsh, hp⟩ := hshort.pathHeight
    obtain ⟨hsn, hsc, hpn⟩ := hshort.pathNoRedRed
    obtain ⟨hbh, hwh⟩ := height_black.mp hsh
    obtain ⟨hyh, hzh⟩ := height_red.mp hbh
    obtain ⟨hbn, hwn⟩ := noRedRed_black.mp hsn
    obtain ⟨⟨hyc, hzc⟩, hyn, hzn⟩ := noRedRed_red.mp hbn
    have htn := hshort.noRedRed
    rw [blacken_of_black ht] at htn
    refine Fits.blacken_plug ⟨height_branch.mpr ⟨n + 1, height_black.mpr ⟨hshort.height, hyh⟩,
      height_black.mpr ⟨hzh, hwh⟩, rfl⟩, hp, ?_, hpn⟩ fun hc => ?_
    · rw [noRedRed_branch, noRedRed_black, noRedRed_black]
      exact ⟨fun _ => ⟨isRed_branch, isRed_branch⟩, ⟨htn, hyn⟩, hzn, hwn⟩
    · rw [isRed_branch]
      exact Bool.eq_false_iff.mpr fun h => by rw [(hsc h).2] at hc; cases hc
  | @far s c t a y b z path ht hz =>
    obtain ⟨hsh, hp⟩ := hshort.pathHeight
    obtain ⟨hsn, hsc, hpn⟩ := hshort.pathNoRedRed
    obtain ⟨hyh, hzh⟩ := height_black.mp hsh
    obtain ⟨hyn, hzn⟩ := noRedRed_black.mp hsn
    have htn := hshort.noRedRed
    rw [blacken_of_black ht] at htn
    have hzb : z.blacken.Height (n + 1) := by
      have := hzh.blacken
      rwa [hz] at this
    refine Fits.blacken_plug ⟨height_branch.mpr ⟨n + 1, height_black.mpr ⟨hshort.height, hyh⟩, hzb, rfl⟩,
      hp, ?_, hpn⟩ fun hc => ?_
    · rw [noRedRed_branch, noRedRed_black]
      exact ⟨fun _ => ⟨isRed_branch, isRed_blacken z⟩, ⟨htn, hyn⟩, hzn.blacken⟩
    · rw [isRed_branch]
      exact Bool.eq_false_iff.mpr fun h => by rw [(hsc h).2] at hc; cases hc

end RBTree
