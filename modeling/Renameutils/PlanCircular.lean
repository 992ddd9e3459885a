import Renameutils.Lib.Chain
import Renameutils.PlanScans
import Mathlib.Data.List.Nodup

/-!
# Circular rename-sets

The three walks of `cross_reference_resolve`: `followRenamings` along the names, `findTmpName` along
the numbers and `resolveCircular` along the links that the first one left. `Cut` names the specs of
one circular rename-set; `Resolved` says what `resolveCircular` does to the memory and the plan.
-/

namespace Renameutils
open Chain Relator

section
variable {p : FileSpecStatus → Bool} {key : SpecId → CString} {status : SpecId → FileSpecStatus}
  {W : List SpecId} {map : Table CString SpecId} {n : CString} {s : SpecId}

theorem collect_some (h : collect p key status W map n = some s) :
    map n = some s ∨ (s ∈ W ∧ p (status s) = true ∧ key s = n) := by
  induction W generalizing map with
  | nil => exact .inl h
  | cons t W ih =>
    rcases ih h with hm | ⟨h1, h2⟩
    · split at hm
      · rw [Table.put_apply] at hm
        split at hm
        · cases hm; exact .inr ⟨by simp, ‹_›, Eq.symm ‹_›⟩
        · exact .inl hm
      · exact .inl hm
    · exact .inr ⟨by simp [h1], h2⟩

theorem collect_isSome_mono (h : (map n).isSome = true) :
    (collect p key status W map n).isSome = true := by
  induction W generalizing map with
  | nil => exact h
  | cons t W ih =>
    refine ih ?_
    split
    · rw [Table.put_apply]; split <;> simp [h]
    · exact h

theorem collect_isSome (hs : s ∈ W) (hp : p (status s) = true) :
    (collect p key status W map (key s)).isSome = true := by
  induction W generalizing map with
  | nil => cases hs
  | cons t W ih =>
    rcases List.mem_cons.mp hs with rfl | hs
    · rw [collect, if_pos hp]
      exact collect_isSome_mono (by simp)
    · exact ih hs

end

section
variable {W : List SpecId} {h : Heap} {n : CString} {s : SpecId}

theorem oldNameMap_some (hs : oldNameMap W h n = some s) :
    s ∈ W ∧ h.status s = .unchecked ∧ h.oldName s = n := by
  rcases collect_some hs with h | h
  · cases h
  · simpa using h

theorem oldNameMap_isSome (hs : s ∈ W) (hu : h.status s = .unchecked) :
    ∃ t, oldNameMap W h (h.oldName s) = some t :=
  Option.isSome_iff_exists.mp (collect_isSome hs (by simp [hu]))

theorem newNameMap_contains : (newNameMap W h).contains n = true ↔
    ∃ s ∈ W, (h.status s = .unchecked ∨ h.status s = .apply) ∧ h.newName s = n := by
  constructor
  · intro hc
    obtain ⟨s, hs⟩ := Option.isSome_iff_exists.mp hc
    rcases collect_some hs with h | ⟨h1, h2, h3⟩
    · cases h
    · exact ⟨s, h1, by simpa using h2, h3⟩
  · rintro ⟨s, hs, hu, rfl⟩
    exact collect_isSome hs (by simpa using hu)

end

/-! ### Following the renamings -/

/-- The spec that `map_old` has for the new name of `a` is `b`. -/
def Leads (R : SpecId → Prop) (mapOld : Table CString SpecId) (newName : SpecId → CString)
    (a b : SpecId) : Prop := R a ∧ mapOld (newName a) = some b

/-- What `followRenamings` found from `s1` on: the specs `path` up to `last`, all of them unchecked. -/
structure Followed (R : SpecId → Prop) (mapOld : Table CString SpecId) (s1 : SpecId) (h : Heap)
    (path : List SpecId) (last : SpecId) (h' : Heap) : Prop where
  walk : Walk (Leads R mapOld h.newName) s1 path last
  unchecked : ∀ s ∈ path, h.status s = .unchecked
  notMem : s1 ∉ path
  links : Walk (fun a b => h'.nextSpec a = some b) s1 path last
  frame : ∀ s, s ∉ s1 :: path → h'.nextSpec s = h.nextSpec s
  heap : h' = { h with nextSpec := h'.nextSpec }

namespace Followed
variable {R : SpecId → Prop} {mapOld : Table CString SpecId} {s1 last : SpecId} {h h' : Heap}
  {path : List SpecId} {s : SpecId}

theorem nil (R : SpecId → Prop) (mapOld : Table CString SpecId) (s1 : SpecId) (h : Heap) :
    Followed R mapOld s1 h [] s1 h :=
  ⟨rfl, by simp, by simp, rfl, by simp, rfl⟩

theorem setNext (f : Followed R mapOld s1 h path last h') {x : Option SpecId} :
    h'.setNext s x = { h with nextSpec := (h'.setNext s x).nextSpec } := by
  rw [f.heap]; rfl

theorem spec_eq (f : Followed R mapOld s1 h path last h') (hs : s ∉ s1 :: path) : h'.spec s = h.spec s := by
  rw [f.heap, Heap.spec, Heap.spec, f.frame s hs]

theorem oldName_eq (f : Followed R mapOld s1 h path last h') : h'.oldName = h.oldName := by rw [f.heap]

theorem newName_eq (f : Followed R mapOld s1 h path last h') : h'.newName = h.newName := by rw [f.heap]

theorem prevSpec_eq (f : Followed R mapOld s1 h path last h') : h'.prevSpec = h.prevSpec := by rw [f.heap]

theorem status_eq (f : Followed R mapOld s1 h path last h') : h'.status = h.status := by rw [f.heap]

theorem fresh_eq (f : Followed R mapOld s1 h path last h') : h'.fresh = h.fresh := by rw [f.heap]

theorem unchecked_cons (f : Followed R mapOld s1 h path last h') (hu : h.status s1 = .unchecked) :
    ∀ s ∈ s1 :: path, h.status s = .unchecked :=
  List.forall_mem_cons.mpr ⟨hu, f.unchecked⟩

/-- The links of a circular set, once its last spec is the last of the links too. -/
theorem ring_links (f : Followed R mapOld s1 h path last h') (hnd : (s1 :: path).Nodup) :
    Walk (fun a b => (h'.setNext last none).nextSpec a = some b) s1 path last ∧
      (h'.setNext last none).nextSpec last = none :=
  ⟨f.links.imp_of_nodup hnd fun _ _ _ ha _ hab => (Function.update_of_ne ha _ _).trans hab,
    Function.update_self ..⟩

theorem snoc (hl : LeftUnique (Leads R mapOld h.newName)) (f : Followed R mapOld s1 h path last h')
    (hs : Leads R mapOld h.newName last s) (hu : h.status s = .unchecked) (hne : s ≠ s1) :
    Followed R mapOld s1 h (path ++ [s]) s (h'.setNext last (some s)) where
  walk := f.walk.snoc hs
  unchecked t ht := by
    rcases List.mem_append.mp ht with ht | ht
    · exact f.unchecked t ht
    · rwa [List.mem_singleton.mp ht]
  notMem := by simp [f.notMem, hne.symm]
  links := by
    refine (f.links.imp_of_nodup (f.walk.nodup hl f.notMem) fun a b _ ha _ hab => ?_).snoc ?_
    · exact (Function.update_of_ne ha _ _).trans hab
    · exact Function.update_self ..
  frame t ht := by
    have htl : t ≠ last := by
      rintro rfl; exact ht (by have := f.walk.last_mem; simp_all [List.mem_cons])
    exact (Function.update_of_ne htl _ _).trans (f.frame t fun hm => ht (by simp_all [List.mem_cons]))
  heap := f.setNext

end Followed

section
variable {R : SpecId → Prop} {mapOld : Table CString SpecId} {s1 last : SpecId} {h₀ h h' : Heap}
  {path U : List SpecId}

/-- The walk from `s1` ends at a name that no unchecked spec has, or at `s1`. -/
inductive FollowEnd (R : SpecId → Prop) (mapOld : Table CString SpecId) (s1 : SpecId) (h h' : Heap) : Prop
  | dead (path : List SpecId) (last : SpecId) (h₁ : Heap) (f : Followed R mapOld s1 h path last h₁)
    (dead : ∀ s, Leads R mapOld h.newName last s → h.status s ≠ .unchecked)
    (heap : h' = h₁.setNext s1 none)
  | ring (path : List SpecId) (last : SpecId) (h₁ : Heap) (f : Followed R mapOld s1 h path last h₁)
    (back : Leads R mapOld h.newName last s1) (heap : h' = h₁.setNext last none)

theorem followRenamings_end (hl : LeftUnique (Leads R mapOld h₀.newName))
    (hR : ∀ n s, mapOld n = some s → R s) {fuel : Nat}
    (f : Followed R mapOld s1 h₀ path last h) (hlast : R last)
    (hf : followRenamings mapOld s1 fuel last h = some h') :
    FollowEnd R mapOld s1 h₀ h' := by
  induction fuel generalizing path last h with
  | zero => cases hf
  | succ fuel ih =>
    rw [followRenamings, f.newName_eq, f.status_eq] at hf
    split at hf
    · rename_i hm
      cases hf
      exact .dead path last h f (fun s hs => by rw [Leads, hm] at hs; cases hs.2) rfl
    · rename_i s hm
      split at hf
      · rename_i hu
        cases hf
        refine .dead path last h f (fun t ht => ?_) rfl
        rw [Leads, hm] at ht
        cases ht.2; exact hu
      · rename_i hu
        split at hf
        · rename_i hs
          subst hs
          cases hf
          exact .ring path last h f ⟨hlast, hm⟩ rfl
        · rename_i hne
          exact ih (f.snoc hl ⟨hlast, hm⟩ (not_not.mp hu) hne) (hR _ s hm) hf

theorem followRenamings_isSome (hl : LeftUnique (Leads R mapOld h₀.newName))
    (hR : ∀ n s, mapOld n = some s → R s) (hU : ∀ a b, Leads R mapOld h₀.newName a b → b ∈ U) {fuel : Nat}
    (f : Followed R mapOld s1 h₀ path last h) (hlast : R last) (hlen : U.length < path.length + fuel) :
    (followRenamings mapOld s1 fuel last h).isSome = true := by
  induction fuel generalizing path last h with
  | zero =>
    have := f.walk.length_le hl hU f.notMem
    omega
  | succ fuel ih =>
    rw [followRenamings, f.newName_eq, f.status_eq]
    split
    · rfl
    · rename_i s hm
      split
      · rfl
      · rename_i hu
        split
        · rfl
        · rename_i hne
          refine ih (f.snoc hl ⟨hlast, hm⟩ (not_not.mp hu) hne) (hR _ s hm) ?_
          simp only [List.length_append, List.length_singleton]
          omega

end

/-! ### The temporary name -/

section
variable {fileExists : CString → Bool} {mapNew : Table CString SpecId} {oldName tmpName : CString}

theorem findTmpName_some {fuel k : Nat} (h : findTmpName fileExists mapNew oldName fuel k = some tmpName) :
    (∃ n, tmpName = oldName.numbered n) ∧ fileExists tmpName = false ∧ mapNew.contains tmpName = false := by
  induction fuel generalizing k with
  | zero => cases h
  | succ fuel ih =>
    rw [findTmpName] at h
    split at h
    · exact ih h
    · rename_i hno
      cases h
      simp only [Bool.or_eq_true, not_or, Bool.not_eq_true] at hno
      exact ⟨⟨k, rfl⟩, hno⟩

/-- The search ends when finitely many names are taken: the candidates are all different. -/
theorem findTmpName_isSome {F : List CString}
    (hF : ∀ n, (fileExists n || mapNew.contains n) = true → n ∈ F) {fuel : Nat} (hlen : F.length < fuel)
    (k : Nat) : (findTmpName fileExists mapNew oldName fuel k).isSome = true := by
  have hnone : ∀ fuel k, findTmpName fileExists mapNew oldName fuel k = none →
      ∀ i < fuel, oldName.numbered (k + i) ∈ F := by
    intro fuel
    induction fuel with
    | zero => intro k _ i hi; omega
    | succ fuel ih =>
      intro k h i hi
      rw [findTmpName] at h
      split at h
      · cases i with
        | zero => exact hF _ ‹_›
        | succ i =>
          have := ih (k + 1) h i (by omega)
          rwa [show k + (i + 1) = k + 1 + i by omega]
      · cases h
  by_contra hno
  rw [Bool.not_eq_true, Option.isSome_eq_false_iff, Option.isNone_iff_eq_none] at hno
  have hsub : (List.range fuel).map (fun i => oldName.numbered (k + i)) ⊆ F := by
    intro n hn
    obtain ⟨i, hi, rfl⟩ := List.mem_map.mp hn
    exact hnone fuel k hno i (List.mem_range.mp hi)
  have hnd : ((List.range fuel).map fun i => oldName.numbered (k + i)).Nodup := by
    refine List.Nodup.map (fun i j hij => ?_) List.nodup_range
    have := (CString.numbered_inj hij).2
    omega
  have := (hnd.subperm hsub).length_le
  simp only [List.length_map, List.length_range] at this
  omega

end

/-! ### Putting a circular set into the plan -/

/-- `a` and `b` are linked: `b` is the next of `a` and `a` the previous of `b`. -/
def Linked (h : Heap) (a b : SpecId) : Prop := h.nextSpec a = some b ∧ h.prevSpec b = some a

section
variable {a b : SpecId} {l ring rest : List SpecId} {h h' : Heap} {st st' : PlanState}

theorem markCircular_some {fuel : Nat} {s : SpecId}
    (hw : Walk (fun a b => st.heap.nextSpec a = some b) a (s :: l) b) (hb : st.heap.nextSpec b = none)
    (hm : markCircular fuel (some s) st = some st') :
    st'.plan = { st.plan with ok := (s :: l).reverse ++ st.plan.ok } ∧
    StatusOnly st.heap st'.heap ∧
    ∀ t, st'.heap.status t = if t ∈ s :: l then .circular else st.heap.status t := by
  induction l generalizing a s fuel st with
  | nil =>
    obtain ⟨_, rfl⟩ := hw
    cases fuel with
    | zero => cases hm
    | succ fuel =>
      rw [markCircular, hb, markCircular] at hm
      cases hm
      exact ⟨rfl, (StatusOnly.refl _).setStatus s _, fun t => by simp [PlanState.pushOk, Heap.status_setStatus]⟩
  | cons s' l ih =>
    obtain ⟨_, hs, hw⟩ := hw
    cases fuel with
    | zero => cases hm
    | succ fuel =>
      rw [markCircular, hs] at hm
      obtain ⟨h1, h2, h3⟩ := ih (a := s) (by exact ⟨hs, hw⟩) (by exact hb) hm
      refine ⟨?_, ((StatusOnly.refl _).setStatus s _).trans h2, fun t => ?_⟩
      · rw [h1]; simp [PlanState.pushOk]
      · rw [h3]
        simp only [PlanState.pushOk, Heap.status_setStatus, List.mem_cons]
        by_cases hts : t = s <;> simp [hts]

theorem markCircular_isSome {fuel : Nat} {s : SpecId}
    (hw : Walk (fun a b => st.heap.nextSpec a = some b) a (s :: l) b) (hb : st.heap.nextSpec b = none)
    (hlen : l.length < fuel) : (markCircular fuel (some s) st).isSome = true := by
  induction l generalizing a s fuel st with
  | nil =>
    obtain ⟨_, rfl⟩ := hw
    cases fuel with
    | zero => omega
    | succ fuel => rw [markCircular, hb, markCircular]; rfl
  | cons s' l ih =>
    obtain ⟨_, hs, hw⟩ := hw
    cases fuel with
    | zero => omega
    | succ fuel =>
      rw [markCircular, hs]
      exact ih (a := s) ⟨hs, hw⟩ hb (by simpa using hlen)

theorem relink_frame (hb : b ∉ l) (rest : List SpecId) (h : Heap) :
    (relink b a (l ++ b :: rest) h) = { h with
      nextSpec := (relink b a (l ++ b :: rest) h).nextSpec
      prevSpec := (relink b a (l ++ b :: rest) h).prevSpec } ∧
    (∀ t, t ∉ a :: l → (relink b a (l ++ b :: rest) h).nextSpec t = h.nextSpec t) ∧
    ∀ t, t ∉ l ++ [b] → (relink b a (l ++ b :: rest) h).prevSpec t = h.prevSpec t := by
  induction l generalizing a h with
  | nil =>
    simp only [List.nil_append, relink, if_true]
    refine ⟨rfl, fun t ht => Function.update_of_ne ?_ _ _, fun t ht => Function.update_of_ne ?_ _ _⟩
    · simpa using ht
    · simpa using ht
  | cons s l ih =>
    simp only [List.mem_cons, not_or] at hb
    simp only [List.cons_append, relink, if_neg (Ne.symm hb.1)]
    obtain ⟨h1, h2, h3⟩ := ih (a := s) hb.2 ((h.setNext a (some s)).setPrev s (some a))
    refine ⟨by rw [h1]; rfl, fun t ht => ?_, fun t ht => ?_⟩
    · simp only [List.mem_cons, not_or] at ht
      rw [h2 t (by simp [ht])]
      exact Function.update_of_ne ht.1 _ _
    · simp only [List.mem_cons, not_or] at ht
      rw [h3 t ht.2]
      exact Function.update_of_ne ht.1 _ _

theorem relink_linked (hnd : (a :: l ++ [b]).Nodup) (rest : List SpecId) (h : Heap) :
    Walk (Linked (relink b a (l ++ b :: rest) h)) a (l ++ [b]) b := by
  induction l generalizing a h with
  | nil =>
    simp only [List.nil_append, relink, if_true]
    exact ⟨⟨Function.update_self .., Function.update_self ..⟩, rfl⟩
  | cons s l ih =>
    simp only [List.cons_append, List.nodup_cons] at hnd
    obtain ⟨ha, hs, hnd⟩ := hnd
    have hsb : s ≠ b := by rintro rfl; simp at hs
    have hb : b ∉ l := by
      intro hm; exact (List.nodup_append.mp hnd).2.2 b hm b (by simp) rfl
    simp only [List.cons_append, relink, if_neg hsb]
    obtain ⟨_, h2, h3⟩ := relink_frame (a := s) hb rest ((h.setNext a (some s)).setPrev s (some a))
    refine ⟨⟨?_, ?_⟩, ih (by simpa using ⟨by simpa using hs, hnd⟩) _⟩
    · rw [h2 a fun hm => ha (by simp only [List.mem_cons, List.mem_append] at hm ⊢; tauto)]
      exact Function.update_self ..
    · rw [h3 s hs]
      exact Function.update_self ..

end

/-- The specs of a circular rename-set: `member`, from which it was found, leaves the plan for
`copy`, and `tmp` is the extra rename to `tmpName`. -/
structure Cut where
  member : SpecId
  ring : List SpecId
  copy : SpecId
  tmp : SpecId
  tmpName : CString
deriving DecidableEq, Repr

namespace Cut

/-- The specs that were in the set before. -/
def members (c : Cut) : List SpecId := c.member :: c.ring

/-- The specs that `cross_reference_resolve` created for it. -/
def created (c : Cut) : List SpecId := [c.tmp, c.copy]

/-- The renames of the set in the order of `plan->ok`. -/
def renames (c : Cut) : List SpecId := c.tmp :: (c.ring.reverse ++ [c.copy])

variable {c : Cut} {s : SpecId}

theorem mem_renames : s ∈ c.renames ↔ s = c.tmp ∨ s ∈ c.ring ∨ s = c.copy := by simp [renames]

theorem mem_created : s ∈ c.created ↔ s = c.tmp ∨ s = c.copy := by simp [created]

theorem tmp_mem_renames (c : Cut) : c.tmp ∈ c.renames := mem_renames.mpr (.inl rfl)

theorem copy_mem_renames (c : Cut) : c.copy ∈ c.renames := mem_renames.mpr (.inr (.inr rfl))

theorem tmp_mem_created (c : Cut) : c.tmp ∈ c.created := mem_created.mpr (.inl rfl)

theorem ring_mem_renames (hs : s ∈ c.ring) : s ∈ c.renames := mem_renames.mpr (.inr (.inl hs))

theorem created_subset_renames (hs : s ∈ c.created) : s ∈ c.renames :=
  mem_renames.mpr ((mem_created.mp hs).imp_right .inr)

theorem copy_mem_created (c : Cut) : c.copy ∈ c.created := mem_created.mpr (.inr rfl)

/-- The specs of a set are the one that is renamed twice and those of its renames. -/
theorem mem_members_created : s ∈ c.members ++ c.created ↔ s = c.member ∨ s ∈ c.renames := by
  simp only [members, created, mem_renames, List.mem_append, List.mem_cons, List.not_mem_nil, or_false]
  tauto

end Cut

/-- What `resolveCircular` does with the set `c`. -/
structure Resolved (c : Cut) (st st' : PlanState) : Prop where
  copy : c.copy = st.heap.fresh
  tmp : c.tmp = st.heap.fresh + 1
  fresh : st'.heap.fresh = st.heap.fresh + 2
  oldName : st'.heap.oldName =
    Function.update (Function.update st.heap.oldName c.copy c.tmpName) c.tmp (st.heap.oldName c.member)
  newName : st'.heap.newName =
    Function.update (Function.update st.heap.newName c.copy (st.heap.newName c.member)) c.tmp c.tmpName
  status : ∀ s, st'.heap.status s =
    if s = c.member then .apply
    else if s ∈ c.renames then .circular else st.heap.status s
  plan : st'.plan = { st.plan with
    ok := c.renames ++ st.plan.ok, freeSpec := c.created ++ st.plan.freeSpec }
  linked : Walk (Linked st'.heap) c.tmp (c.ring.reverse ++ [c.copy]) c.copy
  prev_tmp : st'.heap.prevSpec c.tmp = none
  next_copy : st'.heap.nextSpec c.copy = none
  prev_member : st'.heap.prevSpec c.member = none
  next_member : st'.heap.nextSpec c.member = none
  prev_frame : ∀ s < st.heap.fresh, s ∉ c.members → st'.heap.prevSpec s = st.heap.prevSpec s
  next_frame : ∀ s < st.heap.fresh, s ∉ c.members → st'.heap.nextSpec s = st.heap.nextSpec s

theorem replaceMember_next {member s : SpecId} {st : PlanState} (hs : s < st.heap.fresh) (hm : s ≠ member) :
    (replaceMember member st).heap.nextSpec s = st.heap.nextSpec s :=
  (Function.update_of_ne hm _ _).trans (Function.update_of_ne hs.ne _ _)

theorem replaceMember_prev {member s : SpecId} {st : PlanState} (hs : s < st.heap.fresh) (hm : s ≠ member) :
    (replaceMember member st).heap.prevSpec s = st.heap.prevSpec s :=
  (Function.update_of_ne hm _ _).trans (Function.update_of_ne hs.ne _ _)

/-- The links from the member of a circular set are now the links from its copy. -/
theorem replaceMember_walk {member last : SpecId} {ring : List SpecId} {st : PlanState}
    (hlt : ∀ s ∈ member :: ring, s < st.heap.fresh) (hnd : (member :: ring).Nodup)
    (hw : Walk (fun a b => st.heap.nextSpec a = some b) member ring last) (hne : ring ≠ []) :
    Walk (fun a b => (replaceMember member st).heap.nextSpec a = some b) st.heap.fresh ring last := by
  cases ring with
  | nil => exact absurd rfl hne
  | cons r ring =>
    obtain ⟨hr, hw⟩ := hw
    obtain ⟨hm, hnd⟩ := List.nodup_cons.mp hnd
    have hfm : st.heap.fresh ≠ member := (hlt member (by simp)).ne'
    refine ⟨?_, hw.imp_of_nodup hnd fun a b ha _ _ hab => ?_⟩
    · exact (Function.update_of_ne hfm _ _).trans ((Function.update_self ..).trans hr)
    · have ham : a ≠ member := by rintro rfl; exact hm ha
      exact (replaceMember_next (hlt a (List.mem_cons_of_mem _ ha)) ham).trans hab

/-- The copy is the member's place in the set: the set starts from it and ends as before. -/
theorem replaceMember_set {member last : SpecId} {ring : List SpecId} {st : PlanState}
    (hlt : ∀ s ∈ member :: ring, s < st.heap.fresh) (hnd : (member :: ring).Nodup)
    (hw : Walk (fun a b => st.heap.nextSpec a = some b) member ring last) (hne : ring ≠ [])
    (hlast : st.heap.nextSpec last = none) :
    ∃ r ring', ring = r :: ring' ∧ (replaceMember member st).heap.nextSpec st.heap.fresh = some r ∧
      Walk (fun a b => (replaceMember member st).heap.nextSpec a = some b) st.heap.fresh (r :: ring') last ∧
      (replaceMember member st).heap.nextSpec last = none := by
  have hw' := replaceMember_walk hlt hnd hw hne
  obtain ⟨r, ring', rfl⟩ := List.exists_cons_of_ne_nil hne
  have hlastm : last ∈ r :: ring' := hw.2.last_mem
  have hlm : last ≠ member := by rintro rfl; exact (List.nodup_cons.mp hnd).1 hlastm
  refine ⟨r, ring', rfl, hw'.1, hw', ?_⟩
  rw [replaceMember_next (hlt last (List.mem_cons_of_mem _ hlastm)) hlm]
  exact hlast

theorem replaceMember_status (member s : SpecId) (st : PlanState) :
    (replaceMember member st).heap.status s = if s = member then .apply
      else if s = st.heap.fresh then .circular else st.heap.status s := by
  simp only [replaceMember, PlanState.pushOk, PlanState.create, Heap.newFileSpec, Heap.setNext,
    Heap.setPrev, Heap.setStatus, Function.update_apply]

/-- What `addExtraRename` does when the set is `l` and then `copy` at the head of `plan->ok`. -/
structure ExtraAdded (copy : SpecId) (tmpName : CString) (l : List SpecId) (st st' : PlanState) : Prop where
  linked : Walk (Linked st'.heap) st.heap.fresh (l ++ [copy]) copy
  prev_tmp : st'.heap.prevSpec st.heap.fresh = none
  next_copy : st'.heap.nextSpec copy = none
  prev_frame : ∀ s < st.heap.fresh, s ∉ l ++ [copy] → st'.heap.prevSpec s = st.heap.prevSpec s
  next_frame : ∀ s < st.heap.fresh, s ∉ l ++ [copy] → st'.heap.nextSpec s = st.heap.nextSpec s
  heap : st'.heap =
    { (st.heap.newFileSpec ⟨st.heap.oldName copy, tmpName, none, none, .circular⟩).setOldName copy tmpName with
      nextSpec := st'.heap.nextSpec
      prevSpec := st'.heap.prevSpec }
  plan : st'.plan = { st.plan with
    ok := st.heap.fresh :: st.plan.ok, freeSpec := st.heap.fresh :: st.plan.freeSpec }

theorem addExtraRename_added {copy : SpecId} (tmpName : CString) {l rest : List SpecId} {st : PlanState}
    (hok : st.plan.ok = l ++ copy :: rest) (hnd : (l ++ [copy]).Nodup)
    (hlt : ∀ s ∈ l ++ [copy], s < st.heap.fresh) :
    ExtraAdded copy tmpName l st (addExtraRename copy tmpName st) := by
  have hb : copy ∉ l := fun hm => (List.nodup_append.mp hnd).2.2 copy hm copy (by simp) rfl
  have hnd' : (st.heap.fresh :: l ++ [copy]).Nodup :=
    List.nodup_cons.mpr ⟨fun hm => Nat.lt_irrefl _ (hlt _ hm), hnd⟩
  set h := (st.heap.newFileSpec ⟨st.heap.oldName copy, tmpName, none, none, .circular⟩).setOldName
    copy tmpName
  have hst' : (addExtraRename copy tmpName st).heap =
      (relink copy st.heap.fresh (l ++ copy :: rest) h).setNext copy none := by
    show (relink copy st.heap.fresh st.plan.ok h).setNext copy none = _
    rw [hok]
  obtain ⟨hframe, hnext, hprev⟩ := relink_frame (a := st.heap.fresh) hb rest h
  refine ⟨?_, ?_, ?_, ?_, ?_, ?_, rfl⟩ <;> rw [hst']
  · refine (relink_linked hnd' rest h).imp_of_nodup hnd' fun a b _ ha _ hab => ?_
    exact ⟨(Function.update_of_ne ha _ _).trans hab.1, hab.2⟩
  · exact (hprev _ fun hm => Nat.lt_irrefl _ (hlt _ hm)).trans (Function.update_self ..)
  · exact Function.update_self ..
  · exact fun s hs hm => (hprev s hm).trans (Function.update_of_ne hs.ne _ _)
  · intro s hs hm
    simp only [List.mem_append, List.mem_singleton, not_or] at hm
    refine (Function.update_of_ne hm.2 _ _).trans ((hnext s ?_).trans (Function.update_of_ne hs.ne _ _))
    simp only [List.mem_cons, not_or]
    exact ⟨hs.ne, hm.1⟩
  · rw [hframe]; rfl

/-- `resolveCircular` has put the copy in the place of the member and the set in `plan->ok`. -/
structure RingMarked (c : Cut) (st st₂ : PlanState) : Prop where
  only : StatusOnly (replaceMember c.member st).heap st₂.heap
  status : ∀ s, st₂.heap.status s = if s ∈ c.ring then .circular
    else if s = c.member then .apply else if s = st.heap.fresh then .circular else st.heap.status s
  plan : st₂.plan = { (replaceMember c.member st).plan with
    ok := c.ring.reverse ++ (replaceMember c.member st).plan.ok }

theorem ringMarked {c : Cut} {last : SpecId} {fuel : Nat} {st st₂ : PlanState}
    (hlt : ∀ s ∈ c.members, s < st.heap.fresh) (hnd : c.members.Nodup) (hne : c.ring ≠ [])
    (hw : Walk (fun a b => st.heap.nextSpec a = some b) c.member c.ring last)
    (hlast : st.heap.nextSpec last = none)
    (hm : markCircular fuel ((replaceMember c.member st).heap.nextSpec st.heap.fresh)
      (replaceMember c.member st) = some st₂) : RingMarked c st st₂ := by
  obtain ⟨r, ring, hring, hfirst, hw', hlast'⟩ := replaceMember_set hlt hnd hw hne hlast
  rw [hfirst] at hm
  obtain ⟨hplan, honly, hstat⟩ := markCircular_some hw' hlast' hm
  rw [← hring] at hplan hstat
  refine ⟨honly, fun s => ?_, hplan⟩
  rw [hstat, replaceMember_status]

namespace RingMarked
variable {c : Cut} {st st₂ : PlanState} {s : SpecId}

theorem fresh (m : RingMarked c st st₂) : st₂.heap.fresh = st.heap.fresh + 1 := m.only.fresh

/-- `addExtraRename` finds the set and then the copy at the head of `plan->ok`. -/
theorem extraAdded (m : RingMarked c st st₂) (hcopy : c.copy = st.heap.fresh)
    (hlt : ∀ s ∈ c.members, s < st.heap.fresh) (hnd : c.members.Nodup) :
    ExtraAdded c.copy c.tmpName c.ring.reverse st₂ (addExtraRename c.copy c.tmpName st₂) := by
  have hltr : ∀ s ∈ c.ring, s < st.heap.fresh := fun s hs => hlt s (List.mem_cons_of_mem _ hs)
  have hok : st₂.plan.ok = c.ring.reverse ++ c.copy :: st.plan.ok := by rw [m.plan, hcopy]; rfl
  refine addExtraRename_added c.tmpName hok ?_ ?_
  · refine List.nodup_append.mpr ⟨List.nodup_reverse.mpr (List.nodup_cons.mp hnd).2, by simp, ?_⟩
    rintro a ha b hb rfl
    rw [List.mem_singleton.mp hb, List.mem_reverse, hcopy] at ha
    exact Nat.lt_irrefl _ (hltr _ ha)
  · intro s hs
    rw [m.fresh]
    rcases List.mem_append.mp hs with hs | hs
    · exact (hltr s (List.mem_reverse.mp hs)).trans (Nat.lt_succ_self _)
    · rw [List.mem_singleton.mp hs, hcopy]; exact Nat.lt_succ_self _

theorem notMem (m : RingMarked c st st₂) (hcopy : c.copy = st.heap.fresh) (hs : s < st.heap.fresh)
    (hr : s ∉ c.ring) : s < st₂.heap.fresh ∧ s ∉ c.ring.reverse ++ [c.copy] := by
  refine ⟨m.fresh ▸ hs.trans (Nat.lt_succ_self _), ?_⟩
  simp only [List.mem_append, List.mem_reverse, List.mem_singleton, not_or]
  exact ⟨hr, hcopy ▸ hs.ne⟩

end RingMarked

theorem resolveCircular_some {c : Cut} {last : SpecId} {fuel : Nat} {st st' : PlanState}
    (hcopy : c.copy = st.heap.fresh) (htmp : c.tmp = st.heap.fresh + 1)
    (hlt : ∀ s ∈ c.members, s < st.heap.fresh) (hnd : c.members.Nodup) (hne : c.ring ≠ [])
    (hw : Walk (fun a b => st.heap.nextSpec a = some b) c.member c.ring last)
    (hlast : st.heap.nextSpec last = none)
    (h : resolveCircular fuel c.tmpName c.member st = some st') : Resolved c st st' := by
  obtain ⟨st₂, hm, heq⟩ := Option.bind_eq_some_iff.mp h
  obtain rfl : addExtraRename st.heap.fresh c.tmpName st₂ = st' := by simpa using heq
  have m := ringMarked hlt hnd hne hw hlast hm
  have E := m.extraAdded hcopy hlt hnd
  rw [← hcopy]
  have htmp' : c.tmp = st₂.heap.fresh := htmp.trans m.fresh.symm
  have htc : c.tmp ≠ c.copy := by rw [htmp, hcopy]; exact Nat.succ_ne_self _
  have hmr : c.member ∉ c.ring := (List.nodup_cons.mp hnd).1
  have hm₂ := m.notMem hcopy (hlt c.member List.mem_cons_self) hmr
  have hframe : ∀ s, s ∉ c.members → s ≠ c.member ∧ s ∉ c.ring := fun s hs => by
    simpa [Cut.members] using hs
  refine ⟨hcopy, htmp, ?_, ?_, ?_, ?_, ?_, ?_, ?_, E.next_copy, ?_, ?_, ?_, ?_⟩
  · rw [E.heap]; exact congrArg (· + 1) m.fresh
  · rw [E.heap]
    show Function.update (Function.update st₂.heap.oldName st₂.heap.fresh (st₂.heap.oldName c.copy))
      c.copy c.tmpName = _
    have hold : st₂.heap.oldName = Function.update st.heap.oldName c.copy (st.heap.oldName c.member) := by
      rw [m.only.oldName, hcopy]; rfl
    rw [hold, ← htmp', Function.update_self, Function.update_comm htc, Function.update_idem]
  · rw [E.heap]
    show Function.update st₂.heap.newName st₂.heap.fresh c.tmpName = _
    rw [m.only.newName, ← htmp', hcopy]; rfl
  · intro s
    rw [E.heap]
    show Function.update st₂.heap.status st₂.heap.fresh .circular s = _
    rw [← htmp', Function.update_apply, m.status, ← hcopy]
    simp only [Cut.mem_renames]
    by_cases h1 : s = c.member
    · have h2 : s ≠ c.tmp := by rw [h1, htmp']; exact hm₂.1.ne
      have h3 : s ∉ c.ring := by rw [h1]; exact hmr
      rw [if_neg h2, if_neg h3, if_pos h1, if_pos h1]
    · rw [if_neg h1, if_neg h1]
      by_cases h2 : s = c.tmp
      · rw [if_pos h2, if_pos (.inl h2)]
      · by_cases h3 : s ∈ c.ring <;> simp only [h2, h3, if_true, if_false, true_or, false_or]
  · rw [E.plan, m.plan]
    simp [Cut.renames, Cut.created, htmp', hcopy, replaceMember, PlanState.pushOk, PlanState.create]
  · rw [htmp']; exact E.linked
  · rw [htmp']; exact E.prev_tmp
  · rw [E.prev_frame _ hm₂.1 hm₂.2, m.only.prevSpec]; exact Function.update_self ..
  · rw [E.next_frame _ hm₂.1 hm₂.2, m.only.nextSpec]
    exact Function.update_self ..
  · intro s hs hmem
    obtain ⟨hne, hr⟩ := hframe s hmem
    obtain ⟨hs₂, hl⟩ := m.notMem hcopy hs hr
    rw [E.prev_frame s hs₂ hl, m.only.prevSpec]
    exact replaceMember_prev hs hne
  · intro s hs hmem
    obtain ⟨hne, hr⟩ := hframe s hmem
    obtain ⟨hs₂, hl⟩ := m.notMem hcopy hs hr
    rw [E.next_frame s hs₂ hl, m.only.nextSpec]
    exact replaceMember_next hs hne

theorem resolveCircular_isSome {member last : SpecId} {ring : List SpecId} (tmpName : CString) {fuel : Nat}
    {st : PlanState} (hlt : ∀ s ∈ member :: ring, s < st.heap.fresh) (hnd : (member :: ring).Nodup)
    (hne : ring ≠ []) (hw : Walk (fun a b => st.heap.nextSpec a = some b) member ring last)
    (hlast : st.heap.nextSpec last = none) (hfuel : ring.length < fuel) :
    (resolveCircular fuel tmpName member st).isSome = true := by
  obtain ⟨r, ring', rfl, hfirst, hw', hlast'⟩ := replaceMember_set hlt hnd hw hne hlast
  have hm : (markCircular fuel (some r) (replaceMember member st)).isSome = true :=
    markCircular_isSome hw' hlast' (by simp at hfuel; omega)
  obtain ⟨st₂, hst₂⟩ := Option.isSome_iff_exists.mp hm
  simp only [resolveCircular, hfirst, Option.bind_eq_bind, hst₂, Option.bind_some]
  rfl

namespace Resolved
variable {c : Cut} {st st' : PlanState} {last s : SpecId}

theorem oldName_of_lt (r : Resolved c st st') (hs : s < st.heap.fresh) :
    st'.heap.oldName s = st.heap.oldName s := by
  rw [r.oldName, Function.update_of_ne, Function.update_of_ne]
  · rw [r.copy]; exact hs.ne
  · rw [r.tmp]; exact (hs.trans (Nat.lt_succ_self _)).ne

theorem newName_of_lt (r : Resolved c st st') (hs : s < st.heap.fresh) :
    st'.heap.newName s = st.heap.newName s := by
  rw [r.newName, Function.update_of_ne, Function.update_of_ne]
  · rw [r.copy]; exact hs.ne
  · rw [r.tmp]; exact (hs.trans (Nat.lt_succ_self _)).ne

theorem spec_eq (r : Resolved c st st') (hs : s < st.heap.fresh) (hm : s ∉ c.members) :
    st'.heap.spec s = st.heap.spec s := by
  have hs' : s ∉ c.renames := by
    rw [Cut.members, List.mem_cons, not_or] at hm
    rw [Cut.mem_renames, not_or, not_or]
    exact ⟨by rw [r.tmp]; exact (hs.trans (Nat.lt_succ_self _)).ne, hm.2, by rw [r.copy]; exact hs.ne⟩
  have hne : s ≠ c.member := fun h => hm (by rw [h]; exact List.mem_cons_self)
  simp only [Heap.spec, r.oldName_of_lt hs, r.newName_of_lt hs, r.prev_frame s hs hm, r.next_frame s hs hm,
    r.status, if_neg hs', if_neg hne]

theorem copy_ne_tmp (r : Resolved c st st') : c.copy ≠ c.tmp := by
  rw [r.copy, r.tmp]; exact (Nat.succ_ne_self _).symm

theorem oldName_copy (r : Resolved c st st') : st'.heap.oldName c.copy = c.tmpName := by
  rw [r.oldName, Function.update_of_ne r.copy_ne_tmp, Function.update_self]

theorem newName_copy (r : Resolved c st st') : st'.heap.newName c.copy = st.heap.newName c.member := by
  rw [r.newName, Function.update_of_ne r.copy_ne_tmp, Function.update_self]

theorem oldName_tmp (r : Resolved c st st') : st'.heap.oldName c.tmp = st.heap.oldName c.member := by
  rw [r.oldName, Function.update_self]

theorem newName_tmp (r : Resolved c st st') : st'.heap.newName c.tmp = c.tmpName := by
  rw [r.newName, Function.update_self]

/-- Each rename of the set frees the name that the next one moves to. -/
theorem named (r : Resolved c st st') (hlt : ∀ s ∈ c.members, s < st.heap.fresh) (hnd : c.members.Nodup)
    (hne : c.ring ≠ [])
    (hw : Walk (fun a b => st.heap.oldName b = st.heap.newName a) c.member c.ring last)
    (hlast : st.heap.oldName c.member = st.heap.newName last) :
    Walk (fun a b => st'.heap.oldName a = st'.heap.newName b) c.tmp (c.ring.reverse ++ [c.copy]) c.copy := by
  have hw' : Walk (fun a b => st'.heap.oldName b = st'.heap.newName a) c.member c.ring last := by
    refine hw.imp_of_nodup hnd fun a b ha _ hb hab => ?_
    rw [r.oldName_of_lt (hlt b (List.mem_cons_of_mem _ hb)), r.newName_of_lt (hlt a ha)]
    exact hab
  have hstart : ∀ b, st'.heap.oldName b = st'.heap.newName c.member →
      st'.heap.oldName b = st'.heap.newName c.copy := by
    intro b hb
    rw [hb, r.newName_copy, r.newName_of_lt (hlt c.member (by simp [Cut.members]))]
  refine ((hw'.imp_start hstart hne).snoc (c := c.tmp) ?_).reverse
  rw [r.oldName_tmp, r.newName_of_lt (hlt last hw.last_mem), hlast]

end Resolved

end Renameutils
