import Renameutils.TMapRefines
import Renameutils.Lib.Yields

/-!
# Going through the map

`successor` gives the next node in the order of the tree (`successor_spec`), so that an iterator goes through
the nodes from `n0` to `n1`. `tmap_iterator_partial` finds the ends of the nodes that match.
-/

namespace Renameutils.TMap

open RBTree

variable {κ ν μ : Type} {map : TMap κ ν} {t T l r : RBTree (TMapItem κ ν)} {path : Path (TMapItem κ ν)}
variable {a : TMapItem κ ν} {before after items : List (TMapItem κ ν)} {fuel : Nat} {it : TMapIterator}

/-- The address of the first node, or `nil`. -/
def headId : List (TMapItem κ ν) → Nat
  | [] => nil
  | a :: _ => a.id

theorem headId_append (h : before ≠ []) : headId (before ++ after) = headId before := by
  obtain ⟨a, as, rfl⟩ := List.exists_cons_of_ne_nil h
  rfl

theorem toList_ne_nil (h : rootId t ≠ nil) : t.toList ≠ [] := by
  cases t with
  | leaf => exact absurd rfl h
  | node _ _ _ _ => simp [toList]

theorem length_ids_branch {s : Side} {c : Bool} {x y : RBTree (TMapItem κ ν)}
    (h : (ids (branch s c x a y)).length < fuel + 1) : (ids x).length < fuel ∧ (ids y).length < fuel := by
  rw [ids_branch_perm.length_eq, List.length_cons, List.length_append] at h
  omega

theorem Rep.subtree_lt_fuel (h : Rep map (plug t path)) : (ids t).length < map.fuel := by
  have := h.length_lt_fuel
  rw [ids_plug_perm.length_eq, List.length_append] at this
  omega

/-! ### The next node -/

theorem firstLoop_spec (h : Rep map (plug t path)) (hf : (ids t).length < fuel) :
    map.firstLoop fuel (rootId t) = some (headId t.toList) := by
  induction t generalizing path fuel with
  | leaf =>
    obtain _ | fuel := fuel
    · cases hf
    rw [rootId_leaf, firstLoop, h.nilNode]
    rfl
  | node c l a r ihl _ =>
    obtain _ | fuel := fuel
    · cases hf
    have hn := Rep.node (s := .left) h
    have hrun : map.firstLoop (fuel + 1) (rootId (node c l a r)) =
        if rootId l ≠ nil then map.firstLoop fuel (rootId l) else some a.id := by
      rw [firstLoop, show rootId (node c l a r) = a.id from rfl, hn]
      rfl
    have hl : Rep map (plug l (⟨.left, c, a, r⟩ :: path)) := h
    rw [hrun, toList]
    by_cases hleaf : rootId l = nil
    · rw [if_neg (not_not.mpr hleaf), hl.eq_leaf hleaf]
      rfl
    · rw [if_pos hleaf, ihl hl (length_ids_branch (s := .left) hf).1, headId_append (toList_ne_nil hleaf)]

theorem upLoop_spec (h : Rep map (plug t path)) (ht : rootId t ≠ nil) (hf : path.length < fuel) :
    map.upLoop fuel (rootId t) (topId path) = some (headId (Path.after path)) := by
  induction path generalizing t fuel with
  | nil =>
    obtain _ | fuel := fuel
    · cases hf
    rw [topId, upLoop, h.nilNode]
    exact if_neg ht
  | cons f path ih =>
    obtain _ | fuel := fuel
    · cases hf
    have htop := h.top
    have hrun : map.upLoop (fuel + 1) (rootId t) (topId (f :: path)) =
        if rootId t = (nodeOf f.side f.red (rootId t) f.a (rootId f.sibling) (topId path)).right then
          map.upLoop fuel f.a.id (topId path)
        else some f.a.id := by
      rw [topId, upLoop, htop]
      simp only [Option.bind_eq_bind, Option.bind_some, nodeOf_parent]
    rw [hrun]
    obtain ⟨side, red, b, sibling⟩ := f
    cases side with
    | left => exact if_neg (h.sibling_ne (.inl ht))
    | right =>
      have h' : Rep map (plug (branch .right red t b sibling) path) := h
      exact (if_pos rfl).trans (ih h' h'.rootId_ne_nil (Nat.lt_of_succ_lt_succ hf))

theorem successor_spec (h : Rep map T) (hT : T.toList = before ++ a :: after) :
    map.successor a.id = some (headId after) := by
  obtain ⟨c, l, r, path, rfl, rfl⟩ := exists_plug hT
  have hn := Rep.node (s := .left) h
  have hrun : map.successor a.id = if rootId r ≠ nil then map.firstLoop map.fuel (rootId r)
      else map.upLoop map.fuel a.id (topId path) := by
    rw [successor, hn]
    rfl
  have hr : Rep map (plug r (⟨.right, c, a, l⟩ :: path)) := h
  rw [hrun]
  by_cases hleaf : rootId r = nil
  · rw [if_neg (not_not.mpr hleaf), hr.eq_leaf hleaf]
    exact upLoop_spec (t := node c l a r) h (Rep.id_ne_nil (s := .left) h) h.path_lt_fuel
  · rw [if_pos hleaf, firstLoop_spec hr hr.subtree_lt_fuel, headId_append (toList_ne_nil hleaf)]

/-! ### Iterators -/

/-- `items` are the nodes that the iterator has not come to yet. -/
def Ahead (T : RBTree (TMapItem κ ν)) (it : TMapIterator) (items : List (TMapItem κ ν)) : Prop :=
  ∃ before after, T.toList = before ++ items ++ after ∧ it.n0 = headId items ∧
    (items ≠ [] → it.n1 = headId items.reverse ∨ it.n1 = nil ∧ after = [])

theorem Rep.ne_nil (h : Rep map T) (ha : a ∈ T.toList) : a.id ≠ nil := fun heq =>
  h.nonnil (heq ▸ List.mem_map_of_mem ha)

theorem Ahead.stop (h : Ahead T it []) : it.hasNext = false ∧ it.next map = some (none, it) := by
  obtain ⟨_, _, _, hn0, _⟩ := h
  have hnil : it.n0 = nil := hn0
  rw [TMapIterator.hasNext, TMapIterator.next, hnil]
  exact ⟨rfl, rfl⟩

theorem Ahead.next (hrep : Rep map T) (h : Ahead T it (a :: items)) :
    it.hasNext = true ∧ ∃ it', it.next map = some (some a.value, it') ∧ Ahead T it' items := by
  obtain ⟨before, after, hT, hn0, hn1⟩ := h
  have hT' : T.toList = before ++ a :: (items ++ after) := by simp [hT]
  have hid : it.n0 = a.id := hn0
  have hne : a.id ≠ nil := hrep.ne_nil (by simp [hT'])
  obtain ⟨c, l, r, path, rfl, _⟩ := exists_plug hT'
  have hn := Rep.node (s := .left) hrep
  have hrun : ∀ {n0}, (if a.id = it.n1 then some nil else map.successor a.id) = some n0 →
      it.next map = some (some a.value, { it with n0 := n0 }) := fun hn0' => by
    rw [TMapIterator.next, hid, if_neg hne, hn]
    simp only [Option.bind_eq_bind, Option.bind_some, nodeOf_value]
    by_cases hlast : a.id = it.n1
    · rw [if_pos hlast] at hn0' ⊢
      rw [Option.some.inj hn0']
    · rw [if_neg hlast] at hn0' ⊢
      rw [hn0']
      rfl
  refine ⟨by simp [TMapIterator.hasNext, hid, hne], ?_⟩
  have hrest : (plug (node c l a r) path).toList = (before ++ [a]) ++ items ++ after := by simp [hT]
  by_cases hlast : a.id = it.n1
  · -- then no other node is ahead: the addresses of the nodes differ
    refine ⟨_, hrun (if_pos hlast), ?_⟩
    have hnil : items = [] := by
      rcases hn1 (List.cons_ne_nil a items) with hn1 | ⟨hn1, _⟩
      · by_contra hitems
        have hnd := hrep.nodup
        rw [ids, hT', List.map_append, List.map_cons, List.map_append] at hnd
        have hnotMem := (List.nodup_cons.mp (List.nodup_append.mp hnd).2.1).1
        rw [List.reverse_cons, headId_append (by simpa using hitems)] at hn1
        refine hnotMem (List.mem_append_left _ (List.mem_map.mpr ?_))
        obtain ⟨b, bs, hbs⟩ := List.exists_cons_of_ne_nil (show items.reverse ≠ [] by simpa using hitems)
        rw [hbs] at hn1
        exact ⟨b, List.mem_reverse.mp (hbs ▸ List.mem_cons_self), (hlast.trans hn1).symm⟩
      · exact absurd (hlast.trans hn1) hne
    subst hnil
    exact ⟨before ++ [a], after, hrest, rfl, fun h => absurd rfl h⟩
  · refine ⟨_, hrun ((if_neg hlast).trans (successor_spec hrep hT')), before ++ [a], after, hrest, ?_, ?_⟩
    · rcases hn1 (List.cons_ne_nil a items) with hn1 | ⟨_, rfl⟩
      · have hitems : items ≠ [] := by
          rintro rfl
          exact hlast hn1.symm
        exact headId_append hitems
      · exact congrArg headId (List.append_nil items)
    · intro hitems
      refine (hn1 (List.cons_ne_nil a items)).imp_left fun hn1 => ?_
      rw [List.reverse_cons, headId_append (by simpa using hitems)] at hn1
      exact hn1

theorem Ahead.yields (hrep : Rep map T) (h : Ahead T it items) :
    Yields TMapIterator.hasNext (TMapIterator.next map) it (items.map TMapItem.value) :=
  Yields.of_ahead (Ahead T) (fun _ h => h.stop) (fun _ _ _ h => h.next hrep) h

theorem iterator_spec (h : Rep map T) : ∃ it, map.iterator = some it ∧ Ahead T it T.toList := by
  have hfirst := firstLoop_spec (show Rep map (plug T []) from h) h.length_lt_fuel
  refine ⟨⟨headId T.toList, nil⟩, ?_, [], [], by simp, rfl, fun _ => .inr ⟨rfl, rfl⟩⟩
  rw [iterator, firstNode, h.root, hfirst]
  rfl

/-! ### The nodes that match -/

/-- Along the keys, `f` is positive at first, then zero, then negative. -/
def Descending (f : κ → Int) (items : List (TMapItem κ ν)) : Prop :=
  items.Pairwise fun a b => (f a.key ≤ 0 → f b.key ≤ 0) ∧ (f a.key < 0 → f b.key < 0)

/-- The search has been led to the place. -/
def LedTo (f : κ → Int) (path : Path (TMapItem κ ν)) : Prop :=
  (∀ b ∈ Path.before path, 0 < f b.key) ∧ ∀ b ∈ Path.after path, f b.key < 0

/-- The nodes that match. -/
def matching (f : κ → Int) (items : List (TMapItem κ ν)) : List (TMapItem κ ν) :=
  items.filter fun a => f a.key = 0

section
variable {comparator : μ → κ → Int} {pattern : μ} {c : Bool} {x : TMapItem κ ν}

theorem matching_append (f : κ → Int) (xs ys : List (TMapItem κ ν)) :
    matching f (xs ++ ys) = matching f xs ++ matching f ys := List.filter_append ..

theorem matching_reverse (f : κ → Int) (xs : List (TMapItem κ ν)) :
    matching f xs.reverse = (matching f xs).reverse := List.filter_reverse ..

theorem matching_nil {f : κ → Int} {xs : List (TMapItem κ ν)} (h : ∀ a ∈ xs, f a.key ≠ 0) : matching f xs = [] :=
  List.filter_eq_nil_iff.mpr fun a ha => by simpa using h a ha

theorem Descending.plug_node {f : κ → Int} (h : Descending f (plug (node c l a r) path).toList) :
    Descending f (l.toList ++ a :: r.toList) := by
  rw [Descending, toList_plug] at h
  exact (List.pairwise_append.mp (List.pairwise_append.mp h).1).2.1

theorem Descending.split {f : κ → Int} (h : Descending f (plug (node c l a r) path).toList) :
    (∀ b ∈ l.toList, 0 < f a.key → 0 < f b.key) ∧ ∀ b ∈ r.toList, f a.key < 0 → f b.key < 0 := by
  obtain ⟨-, hr, hl⟩ := List.pairwise_append.mp h.plug_node
  refine ⟨fun b hb hpos => ?_, fun b hb => ((List.pairwise_cons.mp hr).1 b hb).2⟩
  by_contra hneg
  have := (hl b hb a List.mem_cons_self).1 (by omega)
  omega

theorem matchLoop_spec (h : Rep map (plug t path)) (hdesc : Descending (comparator pattern) (plug t path).toList)
    (hout : LedTo (comparator pattern) path) (hf : (ids t).length < fuel) :
    (∃ c l, ∃ a : TMapItem κ ν, ∃ r path', plug t path = plug (node c l a r) path' ∧ comparator pattern a.key = 0 ∧
      LedTo (comparator pattern) path' ∧ map.matchLoop comparator pattern fuel (rootId t) = some a.id) ∨
    (∀ b ∈ (plug t path).toList, comparator pattern b.key ≠ 0) ∧
      map.matchLoop comparator pattern fuel (rootId t) = some nil := by
  induction t generalizing path fuel with
  | leaf =>
    obtain _ | fuel := fuel
    · cases hf
    refine .inr ⟨fun b hb => ?_, if_pos rfl⟩
    rw [toList_plug, toList, List.append_nil] at hb
    rcases List.mem_append.mp hb with hb | hb
    · exact Int.ne_of_gt (hout.1 b hb)
    · exact Int.ne_of_lt (hout.2 b hb)
  | node c l a r ihl ihr =>
    obtain _ | fuel := fuel
    · cases hf
    have hn := Rep.node (s := .left) h
    have hne : a.id ≠ nil := Rep.id_ne_nil (s := .left) h
    obtain ⟨hfl, hfr⟩ := length_ids_branch (s := .left) hf
    obtain ⟨hl, hr⟩ := hdesc.split
    have hrun : map.matchLoop comparator pattern (fuel + 1) (rootId (node c l a r)) =
        if 0 < comparator pattern a.key then map.matchLoop comparator pattern fuel (rootId r)
        else if comparator pattern a.key < 0 then map.matchLoop comparator pattern fuel (rootId l)
        else some a.id := by
      rw [show rootId (node c l a r) = a.id from rfl, matchLoop, if_neg hne, hn]
      rfl
    rw [hrun]
    by_cases hpos : 0 < comparator pattern a.key
    · rw [if_pos hpos]
      refine ihr (show Rep map (plug r (⟨.right, c, a, l⟩ :: path)) from h) hdesc ⟨fun b hb => ?_, fun b hb => ?_⟩ hfr
      · simp only [Path.before, List.mem_append, List.mem_singleton] at hb
        rcases hb with hb | hb | rfl
        · exact hout.1 b hb
        · exact hl b hb hpos
        · exact hpos
      · exact hout.2 b (by simpa [Path.after] using hb)
    rw [if_neg hpos]
    by_cases hneg : comparator pattern a.key < 0
    · rw [if_pos hneg]
      refine ihl (show Rep map (plug l (⟨.left, c, a, r⟩ :: path)) from h) hdesc ⟨fun b hb => ?_, fun b hb => ?_⟩ hfl
      · exact hout.1 b (by simpa [Path.before] using hb)
      · simp only [Path.after, List.cons_append, List.mem_cons, List.mem_append] at hb
        rcases hb with rfl | hb | hb
        · exact hneg
        · exact hr b hb hneg
        · exact hout.2 b hb
    · rw [if_neg hneg]
      exact .inl ⟨c, l, a, r, path, rfl, by omega, hout, rfl⟩

theorem headId_append_cons (xs ys : List (TMapItem κ ν)) : headId (xs ++ a :: ys) = headId (xs ++ [a]) := by
  cases xs <;> rfl

/-- The first node in `t` that matches, from the side `s` on, or else `x`. -/
theorem edgeLoop_spec (s : Side) (h : Rep map (plug t path))
    (hzero : (walk s t).Pairwise fun a b => comparator pattern a.key = 0 → comparator pattern b.key = 0)
    (hf : (ids t).length < fuel) : map.edgeLoop comparator pattern s fuel x.id (rootId t) =
      some (headId (matching (comparator pattern) (walk s t) ++ [x])) := by
  induction t using branch_induction s generalizing path fuel x with
  | leaf =>
    obtain _ | fuel := fuel
    · cases hf
    rw [walk_leaf]
    exact if_pos rfl
  | branch c y a z ihy ihz =>
    obtain _ | fuel := fuel
    · cases hf
    have hn := h.node
    have hne : a.id ≠ nil := h.id_ne_nil
    obtain ⟨hfy, hfz⟩ := length_ids_branch hf
    have hy : Rep map (plug y (⟨s, c, a, z⟩ :: path)) := h
    have hz : Rep map (plug z (⟨s.other, c, a, y⟩ :: path)) := by rwa [← plug_swap]
    have hrun : map.edgeLoop comparator pattern s (fuel + 1) x.id (rootId (branch s c y a z)) =
        if comparator pattern a.key = 0 then map.edgeLoop comparator pattern s fuel a.id (rootId y)
        else map.edgeLoop comparator pattern s fuel x.id (rootId z) := by
      rw [rootId_branch, edgeLoop, if_neg hne, hn]
      simp only [Option.bind_eq_bind, Option.bind_some, nodeOf_key, nodeOf_child, nodeOf_child_other]
    rw [walk_branch] at hzero ⊢
    obtain ⟨hzeroy, hzeroz, hbefore⟩ := List.pairwise_append.mp hzero
    rw [hrun, matching_append]
    by_cases ha : comparator pattern a.key = 0
    · have hmatch : matching (comparator pattern) (a :: walk s z) = a :: matching (comparator pattern) (walk s z) :=
        List.filter_cons_of_pos (by simpa using ha)
      rw [if_pos ha, ihy hy hzeroy hfy, hmatch, List.append_assoc, List.cons_append]
      exact congrArg some (headId_append_cons _ _).symm
    · have hmatch : matching (comparator pattern) (a :: walk s z) = matching (comparator pattern) (walk s z) :=
        List.filter_cons_of_neg (by simpa using ha)
      have hnone : matching (comparator pattern) (walk s y) = [] :=
        matching_nil fun b hb hb0 => ha (hbefore b hb a List.mem_cons_self hb0)
      rw [if_neg ha, ihz hz (List.pairwise_cons.mp hzeroz).2 hfz, hmatch, hnone, List.nil_append]

/-- The nodes that match are around the one where the search ends. -/
theorem matching_plug {f : κ → Int} (ha : f a.key = 0) (hled : LedTo f path) :
    matching f (plug (node c l a r) path).toList = matching f l.toList ++ a :: matching f r.toList := by
  have hcons : ∀ items, matching f (a :: items) = a :: matching f items := fun _ =>
    List.filter_cons_of_pos (by simpa using ha)
  rw [toList_plug, matching_append, matching_append, matching_nil fun b hb => Int.ne_of_gt (hled.1 b hb),
    matching_nil fun b (hb : b ∈ Path.after path) => Int.ne_of_lt (hled.2 b hb), List.nil_append, List.append_nil,
    toList, matching_append, hcons]

/-- Below a node that matches, all that follows a match on the way to the node matches. -/
theorem Descending.zero_sides {f : κ → Int} (h : Descending f (plug (node c l a r) path).toList) (ha : f a.key = 0) :
    ((walk .left l).Pairwise fun b b' => f b.key = 0 → f b'.key = 0) ∧
      (walk .right r).Pairwise fun b b' => f b.key = 0 → f b'.key = 0 := by
  obtain ⟨hl, har, hla⟩ := List.pairwise_append.mp h.plug_node
  obtain ⟨har, hr⟩ := List.pairwise_cons.mp har
  constructor
  · refine hl.imp_of_mem fun {b b'} _ hb' hd h0 => ?_
    have := hd.1 (by omega)
    have := (hla b' hb' a List.mem_cons_self).2
    omega
  · refine (List.pairwise_reverse.mpr hr).imp_of_mem fun {b b'} _ hb' hd h0 => ?_
    have := (har b' (List.mem_reverse.mp hb')).1 (by omega)
    have := hd.2
    omega

theorem iteratorPartial_spec (h : Rep map T) (hdesc : Descending (comparator pattern) T.toList)
    (hT : T.toList = before ++ matching (comparator pattern) T.toList ++ after) :
    ∃ it, map.iteratorPartial comparator pattern =
        some (decide (matching (comparator pattern) T.toList ≠ []), it) ∧
      Ahead T it (matching (comparator pattern) T.toList) := by
  have hsearch := matchLoop_spec (show Rep map (plug T []) from h) hdesc
    ⟨by simp [Path.before], by simp [Path.after]⟩ h.length_lt_fuel
  rw [plug_nil, ← h.root] at hsearch
  rcases hsearch with ⟨c, l, a, r, path, rfl, ha, hled, hfound⟩ | ⟨hnone, hfound⟩
  · have hn := Rep.node (s := .left) h
    have hne : a.id ≠ nil := Rep.id_ne_nil (s := .left) h
    have hl : Rep map (plug l (⟨.left, c, a, r⟩ :: path)) := h
    have hr : Rep map (plug r (⟨.right, c, a, l⟩ :: path)) := h
    obtain ⟨hzerol, hzeror⟩ := hdesc.zero_sides ha
    have hn0 := edgeLoop_spec (x := a) .left hl hzerol hl.subtree_lt_fuel
    have hn1 := edgeLoop_spec (x := a) .right hr hzeror hr.subtree_lt_fuel
    have hmatch := matching_plug (c := c) (l := l) (r := r) ha hled
    refine ⟨⟨headId (matching (comparator pattern) (walk .left l) ++ [a]),
      headId (matching (comparator pattern) (walk .right r) ++ [a])⟩, ?_, before, after, hT, ?_, fun _ => .inl ?_⟩
    · rw [iteratorPartial, hfound]
      simp only [Option.bind_eq_bind, Option.bind_some]
      rw [if_neg hne, hn]
      simp only [Option.bind_some]
      rw [show (nodeOf .left c (rootId l) a (rootId r) (topId path)).left = rootId l from rfl, hn0,
        show (nodeOf .left c (rootId l) a (rootId r) (topId path)).right = rootId r from rfl]
      simp only [Option.bind_some]
      rw [hn1, hmatch]
      simp
    · rw [hmatch]
      exact (headId_append_cons _ _).symm
    · rw [hmatch, List.reverse_append, List.reverse_cons, List.append_assoc, List.singleton_append,
        ← matching_reverse]
      exact (headId_append_cons _ _).symm
  · rw [matching_nil hnone]
    refine ⟨⟨nil, nil⟩, ?_, [], T.toList, by simp, rfl, fun h => absurd rfl h⟩
    rw [iteratorPartial, hfound]
    rfl

end

/-- The keys that lead to the left, those that match and those that lead to the right follow one another. -/
theorem Descending.of_append {f : κ → Int} {middle : List (TMapItem κ ν)} (hbefore : ∀ a ∈ before, 0 < f a.key)
    (hmiddle : ∀ a ∈ middle, f a.key = 0) (hafter : ∀ a ∈ after, f a.key < 0) :
    Descending f (before ++ middle ++ after) := by
  refine List.pairwise_append.mpr ⟨List.pairwise_append.mpr ⟨?_, ?_, ?_⟩, ?_, ?_⟩
  · refine List.pairwise_of_forall_mem_list fun a ha b _ => ?_
    have := hbefore a ha
    omega
  · refine List.pairwise_of_forall_mem_list fun a ha b hb => ?_
    have := hmiddle a ha
    have := hmiddle b hb
    omega
  · intro a ha b _
    have := hbefore a ha
    omega
  · refine List.pairwise_of_forall_mem_list fun a _ b hb => ?_
    have := hafter b hb
    omega
  · intro a _ b hb
    have := hafter b hb
    omega

theorem matching_of_append {f : κ → Int} {middle : List (TMapItem κ ν)} (hbefore : ∀ a ∈ before, 0 < f a.key)
    (hmiddle : ∀ a ∈ middle, f a.key = 0) (hafter : ∀ a ∈ after, f a.key < 0) :
    matching f (before ++ middle ++ after) = middle := by
  rw [matching_append, matching_append, matching_nil fun a ha => Int.ne_of_gt (hbefore a ha),
    matching_nil fun a ha => Int.ne_of_lt (hafter a ha), List.nil_append, List.append_nil]
  exact List.filter_eq_self.mpr fun a ha => by simpa using hmiddle a ha

/-- Whatever calls have made the map, its iterator gives the values in the order of the keys. A partial iterator
gives those whose keys match, if there are any. -/
theorem calls_iterate [LinearOrder κ] {compare : κ → κ → Int} (hcmp : IsComparator compare)
    (ops : List (MapOp κ (Option ν))) :
    ∃ map l, runSteps (TMap.step compare) (TMap.new : TMap κ ν) ops =
        some (map, (specSteps spec Table.empty ops).2) ∧
      (specSteps spec Table.empty ops).1.Listing l ∧ (l.map Prod.fst).Pairwise (· < ·) ∧
      (∃ it, map.iterator = some it ∧ Yields TMapIterator.hasNext (TMapIterator.next map) it (l.map Prod.snd)) ∧
      ∀ {μ : Type} (comparator : μ → κ → Int) (pattern : μ) (before middle after : List (κ × Option ν)),
        l = before ++ middle ++ after → (∀ x ∈ before, 0 < comparator pattern x.1) →
        (∀ x ∈ middle, comparator pattern x.1 = 0) → (∀ x ∈ after, comparator pattern x.1 < 0) →
        ∃ it, map.iteratorPartial comparator pattern = some (decide (middle ≠ []), it) ∧
          Yields TMapIterator.hasNext (TMapIterator.next map) it (middle.map Prod.snd) := by
  obtain ⟨map, hrun, T, h⟩ := run_refines (R := fun map t => ∃ T, Holds map T t)
    (fun _ _ op ⟨_, h⟩ => h.step hcmp op) ops ⟨leaf, .new⟩
  have hvalues : ∀ items : List (TMapItem κ ν), (entries items).map Prod.snd = items.map TMapItem.value :=
    fun _ => List.map_map
  refine ⟨map, entries T.toList, hrun, h.listing, map_fst_entries _ ▸ h.ascending, ?_, ?_⟩
  · obtain ⟨it, hit, hahead⟩ := iterator_spec h.rep
    exact ⟨it, hit, hvalues _ ▸ hahead.yields h.rep⟩
  · intro μ comparator pattern before middle after hl hbefore hmiddle hafter
    obtain ⟨rest, A, hT, hrest, rfl⟩ := List.map_eq_append_iff.mp hl
    obtain ⟨B, M, rfl, rfl, rfl⟩ := List.map_eq_append_iff.mp hrest
    have hB : ∀ a ∈ B, 0 < comparator pattern a.key := fun a ha => hbefore _ (List.mem_map_of_mem ha)
    have hM : ∀ a ∈ M, comparator pattern a.key = 0 := fun a ha => hmiddle _ (List.mem_map_of_mem ha)
    have hA : ∀ a ∈ A, comparator pattern a.key < 0 := fun a ha => hafter _ (List.mem_map_of_mem ha)
    have hmatch : matching (comparator pattern) T.toList = M := hT ▸ matching_of_append hB hM hA
    obtain ⟨it, hit, hahead⟩ := iteratorPartial_spec h.rep (hT ▸ Descending.of_append hB hM hA)
      (hmatch.symm ▸ hT)
    rw [hmatch] at hit hahead
    refine ⟨it, ?_, (hvalues M).symm ▸ hahead.yields h.rep⟩
    simpa using hit

/-- Of the keys 1, 3, 4 and 5 a partial iterator for 3 to 4 gives the second and the third. -/
theorem calls_iterate_sub :
    let ops : List (MapOp Int (Option Nat)) :=
      [.put 2 (some 20), .put 1 (some 10), .put 4 (some 40), .put 3 none, .put 5 (some 50), .remove 2]
    let within (bounds : Int × Int) (key : Int) : Int := if key < bounds.1 then 1 else if bounds.2 < key then -1 else 0
    ∃ map it, runSteps (TMap.step fun a b => a - b) (TMap.new : TMap Int Nat) ops =
        some (map, (specSteps spec Table.empty ops).2) ∧
      map.iteratorPartial within (3, 4) = some (true, it) ∧
      Yields TMapIterator.hasNext (TMapIterator.next map) it [none, some 40] := by
  intro ops within
  obtain ⟨map, l, hrun, hlisting, hsorted, -, hpartial⟩ :=
    calls_iterate ⟨fun a b => Int.sub_pos, fun a b => by omega⟩ ops
  have hl : l = [(1, some 10), (3, none), (4, some 40), (5, some 50)] := by
    have hperm : l.Perm [(1, some 10), (3, none), (4, some 40), (5, some 50)] := by
      refine (List.perm_ext_iff_of_nodup hlisting.nodup.of_map (by decide)).mpr fun ⟨k, v⟩ => ?_
      rw [hlisting.mem_iff]
      simp only [ops, specSteps, spec, Table.step, Table.put_apply, Table.remove_apply, Table.empty]
      have hkeys : k = 1 ∨ k = 2 ∨ k = 3 ∨ k = 4 ∨ k = 5 ∨ k ≠ 1 ∧ k ≠ 2 ∧ k ≠ 3 ∧ k ≠ 4 ∧ k ≠ 5 := by omega
      rcases hkeys with rfl | rfl | rfl | rfl | rfl | ⟨h₁, h₂, h₃, h₄, h₅⟩
      all_goals simp [*, eq_comm]
    have hsorted' : l.Pairwise fun a b => a.1 < b.1 := List.pairwise_map.mp hsorted
    exact hperm.eq_of_pairwise (fun a b _ _ hab hba => absurd (Int.lt_trans hab hba) (Int.lt_irrefl _)) hsorted'
      (by decide)
  obtain ⟨it, hit, hyields⟩ := hpartial within (3, 4) [(1, some 10)] [(3, none), (4, some 40)] [(5, some 50)] hl
    (by decide) (by decide) (by decide)
  exact ⟨map, it, hrun, hit, hyields⟩

end Renameutils.TMap
