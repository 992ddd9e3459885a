import Renameutils.TMapRep

/-!
# Rotations

What a rotation, a new colour and other assignments do to the tree.
-/

namespace Renameutils.TMap

open RBTree

variable {κ ν : Type} {map map' map'' : TMap κ ν} {t x y z : RBTree (TMapItem κ ν)}
variable {path : Path (TMapItem κ ν)} {a b : TMapItem κ ν} {s : Side} {red red' : Bool} {i j parent : Nat}
variable {n : TMapNode κ ν} {S : List Nat}

/-- No node has been made or freed since `map`. -/
structure Keeps (map' map : TMap κ ν) : Prop where
  size : map'.size = map.size
  isSome : ∀ i, (map'.nodes.cells i).isSome = (map.nodes.cells i).isSome

theorem Keeps.trans (h' : map''.Keeps map') (h : map'.Keeps map) : map''.Keeps map :=
  ⟨h'.size.trans h.size, fun i => (h'.isSome i).trans (h.isSome i)⟩

/-- The nodes outside `S` are as they were. -/
structure Outside (S : List Nat) (map map' : TMap κ ν) : Prop where
  cells : ∀ i, i ∉ S → map'.nodes.cells i = map.nodes.cells i
  keeps : map'.Keeps map

theorem Outside.refl (S : List Nat) (map : TMap κ ν) : Outside S map map :=
  ⟨fun _ _ => rfl, rfl, fun _ => rfl⟩

theorem Outside.trans {S' : List Nat} (h : Outside S map map') (h' : Outside S' map' map'') :
    Outside (S ++ S') map map'' :=
  ⟨fun i hi => by
    rw [List.mem_append, not_or] at hi
    exact (h'.cells i hi.2).trans (h.cells i hi.1), h'.keeps.trans h.keeps⟩

theorem Outside.tree (h : Outside S map map') (ht : IsTree map.nodes parent t) (hS : ∀ i ∈ ids t, i ∉ S) :
    IsTree map'.nodes parent t := ht.congr fun i hi => h.cells i (hS i hi)

theorem write_spec (f : TMapNode κ ν → TMapNode κ ν) (hi : map.nodes.cells i = some n) :
    ∃ map', map.write i f = some map' ∧ map'.nodes.cells i = some (f n) ∧ map'.root = map.root ∧
      Outside [i] map map' := by
  refine ⟨{ map with nodes := map.nodes.modify i f }, by rw [write, Arena.write_eq f hi]; rfl, ?_, rfl,
    fun j hj => Arena.modify_cells_ne f (by simpa using hj), rfl, fun j => ?_⟩
  · rw [Arena.modify_cells_self, hi]; rfl
  · by_cases hj : j = i
    · rw [hj, Arena.modify_cells_self, Option.isSome_map]
    · rw [Arena.modify_cells_ne f hj]

/-- `run` makes the tree `T` out of the nodes of `map`. -/
def Becomes (run : Option (TMap κ ν)) (T : RBTree (TMapItem κ ν)) (map : TMap κ ν) : Prop :=
  ∃ map', run = some map' ∧ Rep map' T ∧ map'.Keeps map

theorem ids_branch_perm : (ids (branch s red x a y)).Perm (a.id :: (ids x ++ ids y)) := by
  cases s
  · simp [ids, branch, toList]
  · simp only [ids, branch, toList, List.map_append, List.map_cons]
    exact List.perm_middle.trans (List.perm_append_comm.cons _)

theorem At.nodup_branch (h : At map (branch s red x a y) path) :
    (a.id :: (ids x ++ (ids y ++ pathIds path))).Nodup := by
  have hperm : (ids (branch s red x a y) ++ pathIds path).Perm (a.id :: (ids x ++ (ids y ++ pathIds path))) := by
    simpa using (ids_branch_perm (s := s)).append_right (pathIds path)
  exact hperm.nodup_iff.mp h.nodup

/-- An assignment to the fields of one node, other than its links. -/
theorem Rep.update (h : Rep map (plug (branch s red x a y) path)) (f : TMapNode κ ν → TMapNode κ ν)
    (hid : b.id = a.id)
    (hf : ∀ near far parent, f (nodeOf s red near a far parent) = nodeOf s red' near b far parent) :
    Becomes (map.write a.id f) (plug (branch s red' x b y) path) map := by
  have hat := rep_plug.mp h
  obtain ⟨hnode, hx, hy⟩ := isTree_branch.mp hat.tree
  obtain ⟨hax, hnd⟩ := List.nodup_cons.mp hat.nodup_branch
  simp only [List.mem_append, not_or] at hax
  obtain ⟨map', hrun, hcell, hroot, hout⟩ := write_spec f hnode
  have hids : ids (branch s red' x b y) = ids (branch s red x a y) := by
    cases s <;> simp [ids, branch, toList, hid]
  have hne : ∀ l : List Nat, a.id ∉ l → ∀ i ∈ l, i ∉ [a.id] := fun l hl i hi hia =>
    hl (List.mem_singleton.mp hia ▸ hi)
  refine ⟨map', hrun, rep_plug.mpr ⟨isTree_branch.mpr ⟨?_, ?_, ?_⟩, ?_, hids ▸ hat.nodup,
    hids ▸ hat.nonnil, ?_⟩, hout.keeps⟩
  · rw [hid, hcell, hf]
  · exact hid ▸ hout.tree hx (hne _ hax.1)
  · exact hid ▸ hout.tree hy (hne _ hax.2.1)
  · have habove := hat.above
    rw [rootId_branch] at habove
    rw [rootId_branch, hid]
    exact habove.congr hroot fun i hi => hout.cells i (hne _ hax.2.2 i hi)
  · rw [hout.cells _ fun hi => h.id_ne_nil (List.mem_singleton.mp hi).symm]
    exact hat.nilNode

theorem Rep.setRed (h : Rep map (plug (branch s red x a y) path)) (red' : Bool) :
    Becomes (map.write a.id (.setRed red')) (plug (branch s red' x a y) path) map :=
  h.update _ rfl fun _ _ _ => setRed_nodeOf

theorem Rep.blacken_nil {T : RBTree (TMapItem κ ν)} (h : Rep map T) :
    Becomes (map.write nil (.setRed false)) T map := by
  obtain ⟨map', hrun, hcell, hroot, hout⟩ := write_spec (.setRed false) h.nilNode
  refine ⟨map', hrun, ⟨hout.tree h.tree fun i hi hnil => ?_, hroot.trans h.root, h.nodup, h.nonnil,
    hcell⟩, hout.keeps⟩
  exact h.nonnil (List.mem_singleton.mp hnil ▸ hi)

/-- The root of a subtree, which may be `nil`, becomes black. -/
theorem Rep.blacken (h : Rep map (plug t path)) :
    Becomes (map.write (rootId t) (.setRed false)) (plug t.blacken path) map := by
  cases t with
  | leaf => exact h.blacken_nil
  | node red l a r => exact Rep.setRed (s := .left) h false

theorem setParent_spec (ht : IsTree map.nodes parent t) (hnd : (ids t).Nodup) (hnil : nil ∉ ids t) :
    ∃ map', map.setParent (rootId t) i = some map' ∧ IsTree map'.nodes i t ∧ map'.root = map.root ∧
      Outside (ids t) map map' := by
  cases t with
  | leaf => exact ⟨map, rfl, trivial, rfl, .refl _ _⟩
  | node red l a r =>
    have hmem : ∀ i, i ∈ ids (node red l a r) ↔ i = a.id ∨ i ∈ ids l ∨ i ∈ ids r := fun i =>
      mem_ids_branch (s := .left)
    have hperm : (ids (node red l a r)).Perm (a.id :: (ids l ++ ids r)) := ids_branch_perm (s := .left)
    have ha := (List.nodup_cons.mp (hperm.nodup_iff.mp hnd)).1
    rw [List.mem_append, not_or] at ha
    have hne : a.id ≠ nil := fun heq => hnil ((hmem nil).mpr (.inl heq.symm))
    obtain ⟨hnode, hl, hr⟩ := ht
    obtain ⟨map', hrun, hcell, hroot, hout⟩ := write_spec (.setParent i) hnode
    refine ⟨map', (if_pos hne).trans hrun, ⟨hcell, ?_, ?_⟩, hroot, ?_⟩
    · exact hout.tree hl fun j hj hja => ha.1 (List.mem_singleton.mp hja ▸ hj)
    · exact hout.tree hr fun j hj hja => ha.2 (List.mem_singleton.mp hja ▸ hj)
    · exact ⟨fun j hj => hout.cells j fun hja => hj ((hmem j).mpr (.inl (List.mem_singleton.mp hja))),
        hout.keeps⟩

theorem setChild_spec {f : Frame (TMapItem κ ν)} (hp : IsPath map (f :: path) i)
    (hnd : (pathIds (f :: path)).Nodup) (j : Nat) :
    ∃ map', map.write f.a.id (.setChild f.side j) = some map' ∧ IsPath map' (f :: path) j ∧
      Outside (pathIds (f :: path)) map map' := by
  obtain ⟨hnode, hsib, habove⟩ := hp
  have hf := (List.nodup_cons.mp hnd).1
  rw [List.mem_append, not_or] at hf
  obtain ⟨map', hrun, hcell, hroot, hout⟩ := write_spec (.setChild f.side j) hnode
  rw [setChild_nodeOf] at hcell
  refine ⟨map', hrun, ⟨hcell, hout.tree hsib fun k hk hka => ?_, habove.congr hroot
    fun k hk => hout.cells k fun hka => ?_⟩, fun k hk => hout.cells k fun hka => ?_, hout.keeps⟩
  · exact hf.1 (List.mem_singleton.mp hka ▸ hk)
  · exact hf.2 (List.mem_singleton.mp hka ▸ hk)
  · exact hk (by simp [pathIds, List.mem_singleton.mp hka])

theorem replaceChild_spec (hp : IsPath map path i) (hnd : (pathIds path).Nodup) (hnil : nil ∉ pathIds path)
    (hi : i ≠ nil) (hip : i ∉ pathIds path) (j : Nat) :
    ∃ map', map.replaceChild s (topId path) i j = some map' ∧ IsPath map' path j ∧
      Outside (pathIds path) map map' := by
  cases path with
  | nil => exact ⟨{ map with root := j }, rfl, rfl, fun _ _ => rfl, rfl, fun _ => rfl⟩
  | cons f path =>
    have hne : f.a.id ≠ nil := fun heq => hnil (by simp [pathIds, heq])
    have hsibi : rootId f.sibling ≠ i := by
      rintro rfl
      exact hip (by simp [pathIds, rootId_mem hi])
    have hwrite : map.replaceChild s f.a.id i j = map.write f.a.id (.setChild f.side j) := by
      rw [replaceChild, if_pos hne, hp.1]
      rcases Side.eq_or_eq_other s f.side with hs | hs
      · rw [hs]
        simp
      · rw [hs, nodeOf_other]
        simp [hsibi.symm]
    obtain ⟨map', hrun, hp', hout⟩ := setChild_spec hp hnd j
    exact ⟨map', hwrite.trans hrun, hp', hout⟩

/-- The addresses in a rotation of `a` and `b`, with the subtrees `x`, `y` and `z`, are all different. -/
structure Apart (x : RBTree (TMapItem κ ν)) (a : TMapItem κ ν) (y : RBTree (TMapItem κ ν)) (b : TMapItem κ ν)
    (z : RBTree (TMapItem κ ν)) (path : Path (TMapItem κ ν)) : Prop where
  ne : a.id ≠ b.id
  left : a.id ∉ ids x ∧ b.id ∉ ids x
  middle : a.id ∉ ids y ∧ b.id ∉ ids y
  right : a.id ∉ ids z ∧ b.id ∉ ids z
  above : a.id ∉ pathIds path ∧ b.id ∉ pathIds path
  left_free : ∀ i ∈ ids x, i ∉ ids y ∧ i ∉ pathIds path
  middle_free : ∀ i ∈ ids y, i ∉ pathIds path
  right_free : ∀ i ∈ ids z, i ∉ ids y ∧ i ∉ pathIds path
  nodup : (ids y).Nodup ∧ (pathIds path).Nodup
  nil_ne : nil ≠ a.id ∧ nil ≠ b.id
  nil_free : nil ∉ ids y ∧ nil ∉ pathIds path

theorem At.apart {c c' : Bool} (h : At map (branch s c x a (branch s c' y b z)) path) : Apart x a y b z path := by
  have hnd : (a.id :: b.id :: (ids x ++ (ids y ++ (ids z ++ pathIds path)))).Nodup := by
    have hb : (ids (branch s c' y b z)).Perm (b.id :: (ids y ++ ids z)) := ids_branch_perm
    have hperm := ((hb.append_right (pathIds path)).append_left (ids x)).cons a.id
    refine (hperm.trans ?_).nodup_iff.mp h.nodup_branch
    simp
  have hnil : nil ∉ a.id :: b.id :: (ids x ++ (ids y ++ (ids z ++ pathIds path))) := by
    have := h.nonnil
    simp only [List.mem_append, mem_ids_branch, List.mem_cons] at this ⊢
    tauto
  simp only [List.nodup_cons, List.nodup_append, List.mem_cons, List.mem_append, not_or] at hnd hnil
  obtain ⟨⟨hab, hax, hay, haz, hap⟩, ⟨hbx, hby, hbz, hbp⟩, -, ⟨hndy, ⟨-, hndp, hzp⟩, hyzp⟩, hxr⟩ := hnd
  obtain ⟨hnila, hnilb, -, hnily, -, hnilp⟩ := hnil
  exact
    { ne := hab
      left := ⟨hax, hbx⟩
      middle := ⟨hay, hby⟩
      right := ⟨haz, hbz⟩
      above := ⟨hap, hbp⟩
      left_free := fun i hi => ⟨fun hy => hxr i hi i (.inl hy) rfl, fun hp => hxr i hi i (.inr (.inr hp)) rfl⟩
      middle_free := fun i hi hp => hyzp i hi i (.inr hp) rfl
      right_free := fun i hi => ⟨fun hy => hyzp i hy i (.inl hi) rfl, fun hp => hzp i hi i hp rfl⟩
      nodup := ⟨hndy, hndp⟩
      nil_ne := ⟨hnila, hnilb⟩
      nil_free := ⟨hnily, hnilp⟩ }

/-- A rotation: the child on the other side comes up. -/
theorem Rep.rotate {c c' : Bool} (h : Rep map (plug (branch s c x a (branch s c' y b z)) path)) :
    Becomes (map.rotate s a.id) (plug (branch s c' (branch s c x a y) b z) path) map := by
  have hat := rep_plug.mp h
  obtain ⟨hna, hx, hbt⟩ := isTree_branch.mp hat.tree
  obtain ⟨hnb, hy, hz⟩ := isTree_branch.mp hbt
  have habove := hat.above
  rw [rootId_branch] at hna habove
  have apart := hat.apart
  have hne : ∀ {i : Nat} {l : List Nat}, i ∉ l → ∀ j ∈ l, j ∉ [i] := fun hl j hj hji =>
    hl (List.mem_singleton.mp hji ▸ hj)
  have hab : a.id ∉ [b.id] := by simpa using apart.ne
  have hba : b.id ∉ [a.id] := by simpa using apart.ne.symm
  -- the assignments, one after the other
  obtain ⟨map₁, hrun₁, hcell₁, hroot₁, hout₁⟩ := write_spec (.setChild s.other (rootId y)) hna
  rw [setChild_other_nodeOf] at hcell₁
  obtain ⟨map₂, hrun₂, hy₂, hroot₂, hout₂⟩ :=
    setParent_spec (i := a.id) (hout₁.tree hy (hne apart.middle.1)) apart.nodup.1 apart.nil_free.1
  have hcellb₂ : map₂.nodes.cells b.id = some (nodeOf s c' (rootId y) b (rootId z) a.id) := by
    rw [hout₂.cells _ apart.middle.2, hout₁.cells _ hba, hnb]
  obtain ⟨map₃, hrun₃, hcell₃, hroot₃, hout₃⟩ := write_spec (.setParent (topId path)) hcellb₂
  rw [setParent_nodeOf] at hcell₃
  have hp₃ : IsPath map₃ path a.id := by
    refine habove.congr (hroot₃.trans (hroot₂.trans hroot₁)) fun i hi => ?_
    rw [hout₃.cells _ (hne apart.above.2 i hi), hout₂.cells _ fun hiy => apart.middle_free i hiy hi,
      hout₁.cells _ (hne apart.above.1 i hi)]
  obtain ⟨map₄, hrun₄, hp₄, hout₄⟩ := replaceChild_spec (s := s) hp₃ apart.nodup.2 apart.nil_free.2
    apart.nil_ne.1.symm apart.above.1 b.id
  have hcellb₄ : map₄.nodes.cells b.id = some (nodeOf s c' (rootId y) b (rootId z) (topId path)) := by
    rw [hout₄.cells _ apart.above.2, hcell₃]
  obtain ⟨map₅, hrun₅, hcell₅, hroot₅, hout₅⟩ := write_spec (.setChild s a.id) hcellb₄
  rw [setChild_nodeOf] at hcell₅
  have hcella₅ : map₅.nodes.cells a.id = some (nodeOf s c (rootId x) a (rootId y) (topId path)) := by
    rw [hout₅.cells _ hab, hout₄.cells _ apart.above.1, hout₃.cells _ hab, hout₂.cells _ apart.middle.1, hcell₁]
  obtain ⟨map₆, hrun₆, hcell₆, hroot₆, hout₆⟩ := write_spec (.setParent b.id) hcella₅
  rw [setParent_nodeOf] at hcell₆
  have hcellb₆ : map₆.nodes.cells b.id = some (nodeOf s c' a.id b (rootId z) (topId path)) := by
    rw [hout₆.cells _ hba, hcell₅]
  have hout := ((((hout₁.trans hout₂).trans hout₃).trans hout₄).trans hout₅).trans hout₆
  have hrest : ∀ {i : Nat}, i ≠ a.id → i ≠ b.id → i ∉ ids y ∧ i ∉ pathIds path →
      map₆.nodes.cells i = map.nodes.cells i := fun ha hb hyp =>
    hout.cells _ (by simp [ha, hb, hyp.1, hyp.2])
  have hids : ids (branch s c' (branch s c x a y) b z) = ids (branch s c x a (branch s c' y b z)) := by
    cases s <;> simp [ids, branch, toList]
  refine ⟨map₆, ?_, rep_plug.mpr ⟨isTree_branch.mpr ⟨by simpa using hcellb₆, isTree_branch.mpr
    ⟨hcell₆, ?_, ?_⟩, ?_⟩, ?_, hids ▸ hat.nodup, hids ▸ hat.nonnil, ?_⟩, hout.keeps⟩
  · simp [TMap.rotate, hna, hnb, hrun₁, hrun₂, hrun₃, hrun₄, hrun₅, hrun₆]
  · exact hx.congr fun i hi => hrest (fun heq => apart.left.1 (heq ▸ hi)) (fun heq => apart.left.2 (heq ▸ hi))
      (apart.left_free i hi)
  · have hout' := ((hout₃.trans hout₄).trans hout₅).trans hout₆
    refine hout'.tree hy₂ fun i hi => ?_
    have hia : i ≠ a.id := fun heq => apart.middle.1 (heq ▸ hi)
    have hib : i ≠ b.id := fun heq => apart.middle.2 (heq ▸ hi)
    simp [hia, hib, apart.middle_free i hi]
  · exact hz.congr fun i hi => hrest (fun heq => apart.right.1 (heq ▸ hi)) (fun heq => apart.right.2 (heq ▸ hi))
      (apart.right_free i hi)
  · rw [rootId_branch]
    refine hp₄.congr (hroot₆.trans hroot₅) fun i hi => ?_
    rw [hout₆.cells _ (hne apart.above.1 i hi), hout₅.cells _ (hne apart.above.2 i hi)]
  · rw [hrest apart.nil_ne.1 apart.nil_ne.2 apart.nil_free]
    exact hat.nilNode

end Renameutils.TMap
