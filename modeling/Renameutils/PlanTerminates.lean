import Renameutils.PlanCross

/-!
# `make_plan` terminates

For any list of specs, also one that names a spec more than once, and any links and statuses. The walks
of `cross_reference_resolve` end because the specs that are unchecked when it begins have distinct new
names: `duplicate_scan` leaves no two unchecked specs with one new name, and no later pass makes a spec
unchecked (`Narrowed`). With more fuel than the bound the result does not depend on the fuel.
-/

namespace Renameutils
open Chain Relator

/-- `h'` is `h` with other links and fewer unchecked specs. -/
structure Narrowed (h h' : Heap) : Prop where
  oldName : h'.oldName = h.oldName
  newName : h'.newName = h.newName
  fresh : h'.fresh = h.fresh
  unchecked : ∀ s, h'.status s = .unchecked → h.status s = .unchecked

namespace Narrowed
variable {h h' h'' : Heap} {s : SpecId} {x : FileSpecStatus}

theorem refl (h : Heap) : Narrowed h h := ⟨rfl, rfl, rfl, fun _ => id⟩

theorem trans (a : Narrowed h h') (b : Narrowed h' h'') : Narrowed h h'' :=
  ⟨b.oldName.trans a.oldName, b.newName.trans a.newName, b.fresh.trans a.fresh,
    fun s hs => a.unchecked s (b.unchecked s hs)⟩

theorem setStatus (h : Heap) (s : SpecId) (hx : x ≠ .unchecked) : Narrowed h (h.setStatus s x) := by
  refine ⟨rfl, rfl, rfl, fun t ht => ?_⟩
  rw [Heap.status_setStatus] at ht
  split at ht
  · exact absurd ht hx
  · exact ht

theorem newDistinct {W : List SpecId} (n : Narrowed h h') (N : NewDistinct h (Unchecked h W)) :
    NewDistinct h' (Unchecked h' W) := by
  refine ⟨fun s t hs ht heq => ?_, fun s hs => ?_⟩
  · rw [n.newName] at heq
    exact N.new_inj s t ⟨hs.1, n.unchecked s hs.2⟩ ⟨ht.1, n.unchecked t ht.2⟩ heq
  · rw [n.newName, n.oldName]
    exact N.old_ne s ⟨hs.1, n.unchecked s hs.2⟩

end Narrowed

/-! ### What the scans leave -/

section
variable {W done rest : List SpecId} {map : Table CString SpecId} {st : PlanState}
  {fileExists : CString → Bool}

theorem statusScan_narrowed {p : Heap → SpecId → Bool} {add : PlanState → SpecId → PlanState}
    {x : FileSpecStatus} (hx : x ≠ .unchecked) (hadd : ∀ st s, (add st s).heap = st.heap.setStatus s x)
    (st : PlanState) : Narrowed st.heap (statusScan p add W st).heap :=
  statusScan_rule (I := fun st' => Narrowed st.heap st'.heap)
    (fun st' s _ _ n => n.trans (by rw [hadd]; exact .setStatus _ s hx)) (.refl _)

/-- `map` has the unchecked specs of `done` under their new names. -/
def MapsNew (done : List SpecId) (map : Table CString SpecId) (h : Heap) : Prop :=
  ∀ s ∈ done, h.status s = .unchecked → map (h.newName s) = some s

namespace MapsNew
variable {h h' : Heap} {s t : SpecId}

theorem skip (m : MapsNew done map h) (hu : h.status s ≠ .unchecked) : MapsNew (done ++ [s]) map h := by
  intro t ht htu
  rcases List.mem_append.mp ht with ht | ht
  · exact m t ht htu
  · exact absurd (List.mem_singleton.mp ht ▸ htu) hu

theorem first (m : MapsNew done map h) (hm : map (h.newName s) = none) :
    MapsNew (done ++ [s]) (map.put (h.newName s) s) h := by
  intro t ht htu
  rw [Table.put_apply]
  rcases List.mem_append.mp ht with ht | ht
  · have hmt := m t ht htu
    rw [if_neg, hmt]
    intro heq
    rw [heq, hm] at hmt; cases hmt
  · rw [List.mem_singleton.mp ht, if_pos rfl]

theorem again (m : MapsNew done map h) (hm : map (h.newName s) = some t) (n : Narrowed h h')
    (hs : h'.status s ≠ .unchecked) (ht : h'.status t ≠ .unchecked) :
    MapsNew (done ++ [s]) (map.put (h.newName s) s) h' := by
  intro u hu huu
  have hmu : map (h.newName u) = some u := by
    rcases List.mem_append.mp hu with hu | hu
    · exact m u hu (n.unchecked u huu)
    · exact absurd (List.mem_singleton.mp hu ▸ huu) hs
  rw [n.newName, Table.put_ne _ _ ?_, hmu]
  intro heq
  rw [heq, hm] at hmu
  exact ht (Option.some.inj hmu ▸ huu)

end MapsNew

theorem addDuplicates_narrowed (st : PlanState) (s t : SpecId) :
    let st' := (if st.heap.status t = .unchecked then st.addError t .duplicate else st).addError s .duplicate
    Narrowed st.heap st'.heap ∧ st'.heap.status s ≠ .unchecked ∧ st'.heap.status t ≠ .unchecked := by
  intro st'
  have hst : ∀ st₁ : PlanState, Narrowed st.heap st₁.heap → st₁.heap.status t ≠ .unchecked →
      Narrowed st.heap (st₁.addError s .duplicate).heap ∧
        (st₁.addError s .duplicate).heap.status s ≠ .unchecked ∧
        (st₁.addError s .duplicate).heap.status t ≠ .unchecked := by
    intro st₁ n ht
    have n' : Narrowed st₁.heap (st₁.addError s .duplicate).heap := .setStatus _ s (by decide)
    refine ⟨n.trans n', ?_, fun h => ht (n'.unchecked t h)⟩
    simp [PlanState.addError, Heap.status_setStatus]
  refine hst _ ?_ ?_ <;> split
  · exact .setStatus _ t (by decide)
  · exact .refl _
  · simp [PlanState.addError, Heap.status_setStatus]
  · assumption

theorem duplicateLoop_mapsNew (rest : List SpecId) (m : MapsNew done map st.heap) :
    Narrowed st.heap (duplicateLoop rest map st).heap ∧
      ∃ map', MapsNew (done ++ rest) map' (duplicateLoop rest map st).heap := by
  induction rest generalizing done map st with
  | nil => exact ⟨.refl _, map, by simpa [duplicateLoop] using m⟩
  | cons s rest ih =>
    rw [duplicateLoop, List.append_cons]
    split
    · cases hm : map (st.heap.newName s) with
      | none => exact ih (m.first hm)
      | some t =>
        dsimp only
        obtain ⟨n, hs, ht⟩ := addDuplicates_narrowed st s t
        exact (ih (m.again hm n hs ht)).imp_left n.trans
    · exact ih (m.skip ‹_›)

theorem noChangeScan_narrowed (st : PlanState) : Narrowed st.heap (noChangeScan W st).heap :=
  statusScan_narrowed (by decide) (fun _ _ => rfl) st

theorem scanned_narrowed (fileExists : CString → Bool) (W : List SpecId) (h : Heap) :
    Narrowed (duplicateScan W (previousScan W ⟨h, {}⟩)).heap (scanned fileExists W h).heap :=
  (statusScan_narrowed (x := .oldMissing) (by decide) (fun _ _ => rfl) _).trans (noChangeScan_narrowed _)

theorem scanned_fresh (fileExists : CString → Bool) (W : List SpecId) (h : Heap) :
    (scanned fileExists W h).heap.fresh = h.fresh := by
  have m : MapsNew [] Table.empty (previousScan W ⟨h, {}⟩).heap := by simp [MapsNew]
  rw [(scanned_narrowed fileExists W h).fresh, duplicateScan, (duplicateLoop_mapsNew W m).1.fresh,
    previousScan_heap]

/-- The specs that the scans leave unchecked have distinct new names, each not its old name. -/
theorem newDistinct_scanned (fileExists : CString → Bool) (W : List SpecId) (h : Heap) :
    NewDistinct (scanned fileExists W h).heap (Unchecked (scanned fileExists W h).heap W) := by
  have m : MapsNew [] Table.empty (previousScan W ⟨h, {}⟩).heap := by simp [MapsNew]
  obtain ⟨_, map, hmap⟩ := duplicateLoop_mapsNew W m
  have n := scanned_narrowed fileExists W h
  refine ⟨fun s t hs ht heq => ?_, fun s hs heq => ?_⟩
  · rw [n.newName, duplicateScan] at heq
    have hms := hmap s hs.1 (n.unchecked s hs.2)
    rw [heq, hmap t ht.1 (n.unchecked t ht.2)] at hms
    exact (Option.some.inj hms).symm
  · have hst := hs.2
    have only : StatusOnly (oldMissingScan fileExists W (duplicateScan W (previousScan W ⟨h, {}⟩))).heap
      (scanned fileExists W h).heap := noChangeScan_only _
    have hun := (noChangeScan_narrowed _).unchecked s hst
    rw [only.oldName, only.newName] at heq
    rw [scanned, noChangeScan_status, if_pos ⟨hs.1, hun, heq⟩] at hst
    cases hst

end

/-! ### `topologic_sort` makes no spec unchecked -/

section
variable {fileExists : CString → Bool} {W rest pending : List SpecId} {ts : TopologicState}
  {st st' : PlanState} {fuel : Nat}

theorem topologicStart_narrowed (rest : List SpecId) (ts : TopologicState) :
    Narrowed ts.st.heap (topologicStart fileExists rest ts).1.st.heap := by
  induction rest generalizing ts with
  | nil => exact .refl _
  | cons s rest ih =>
    rw [topologicStart]
    split
    · split
      · have n : Narrowed ts.st.heap (ts.st.addOk s .apply).heap := .setStatus _ s (by decide)
        exact n.trans (ih ⟨_, _⟩)
      · exact ih ts
    · exact ih ts

theorem topologicPass_narrowed (rest : List SpecId) (ts : TopologicState) :
    Narrowed ts.st.heap (topologicPass rest ts).1.st.heap := by
  induction rest generalizing ts with
  | nil => exact .refl _
  | cons s rest ih =>
    rw [topologicPass]
    cases ts.available (ts.st.heap.newName s) with
    | some d =>
      have n : Narrowed ts.st.heap (topologicStep ts s d).st.heap :=
        (⟨rfl, rfl, rfl, fun _ => id⟩ : Narrowed ts.st.heap
          ((ts.st.heap.setPrev s (some d)).setNext d (some s))).trans (.setStatus _ s (by decide))
      exact n.trans (ih _)
    | none => exact ih ts

theorem topologicLoop_narrowed (h : topologicLoop fuel pending ts = some st) :
    Narrowed ts.st.heap st.heap := by
  induction fuel generalizing pending ts with
  | zero => cases h
  | succ fuel ih =>
    have n := topologicPass_narrowed pending ts
    rw [topologicLoop] at h
    split at h
    · rename_i heq
      rw [heq] at n
      exact n.trans (ih h)
    · rename_i heq
      rw [heq] at n
      cases h
      exact n

theorem topologicSort_narrowed (h : topologicSort fuel fileExists W st = some st') :
    Narrowed st.heap st'.heap :=
  (topologicStart_narrowed W ⟨Table.empty, st⟩).trans (topologicLoop_narrowed h)

end

/-! ### Fuel -/

section
variable {fileExists : CString → Bool} {mapOld mapNew : Table CString SpecId} {W rest pending : List SpecId}
  {ts : TopologicState} {st st' : PlanState} {h h' : Heap} {fuel fuel' : Nat} {s1 s2 : SpecId}
  {oldName tmpName : CString}

theorem topologicLoop_mono (hle : fuel ≤ fuel') (h : topologicLoop fuel pending ts = some st) :
    topologicLoop fuel' pending ts = some st := by
  induction fuel generalizing fuel' pending ts with
  | zero => cases h
  | succ fuel ih =>
    obtain ⟨fuel', rfl⟩ := Nat.exists_eq_add_of_le' (Nat.one_le_iff_ne_zero.mpr (by omega : fuel' ≠ 0))
    rw [topologicLoop] at h ⊢
    split at h
    · exact ih (by omega) h
    · exact h

theorem followRenamings_mono (hle : fuel ≤ fuel') (hf : followRenamings mapOld s1 fuel s2 h = some h') :
    followRenamings mapOld s1 fuel' s2 h = some h' := by
  induction fuel generalizing fuel' s2 h with
  | zero => cases hf
  | succ fuel ih =>
    obtain ⟨fuel', rfl⟩ := Nat.exists_eq_add_of_le' (Nat.one_le_iff_ne_zero.mpr (by omega : fuel' ≠ 0))
    rw [followRenamings] at hf ⊢
    cases hm : mapOld (h.newName s2) with
    | none => rw [hm] at hf; exact hf
    | some s2' =>
      simp only [hm] at hf ⊢
      split at hf <;> rename_i hu
      · rwa [if_pos hu]
      · rw [if_neg hu]
        split at hf <;> rename_i heq
        · rwa [if_pos heq]
        · rw [if_neg heq]
          exact ih (by omega) hf

theorem findTmpName_mono (hle : fuel ≤ fuel') {k : Nat}
    (hf : findTmpName fileExists mapNew oldName fuel k = some tmpName) :
    findTmpName fileExists mapNew oldName fuel' k = some tmpName := by
  induction fuel generalizing fuel' k with
  | zero => cases hf
  | succ fuel ih =>
    obtain ⟨fuel', rfl⟩ := Nat.exists_eq_add_of_le' (Nat.one_le_iff_ne_zero.mpr (by omega : fuel' ≠ 0))
    rw [findTmpName] at hf ⊢
    split at hf <;> rename_i ht
    · rw [if_pos ht]
      exact ih (by omega) hf
    · rwa [if_neg ht]

theorem markCircular_mono (hle : fuel ≤ fuel') {s : Option SpecId} (hm : markCircular fuel s st = some st') :
    markCircular fuel' s st = some st' := by
  induction fuel generalizing fuel' s st with
  | zero =>
    cases s with
    | none => rw [markCircular] at hm ⊢; exact hm
    | some s => cases hm
  | succ fuel ih =>
    cases s with
    | none => rw [markCircular] at hm ⊢; exact hm
    | some s =>
      obtain ⟨fuel', rfl⟩ := Nat.exists_eq_add_of_le' (Nat.one_le_iff_ne_zero.mpr (by omega : fuel' ≠ 0))
      rw [markCircular] at hm ⊢
      exact ih (by omega) hm

theorem resolveCircular_mono (hle : fuel ≤ fuel') (hr : resolveCircular fuel tmpName s1 st = some st') :
    resolveCircular fuel' tmpName s1 st = some st' := by
  obtain ⟨st₁, hst₁, heq⟩ := Option.bind_eq_some_iff.mp hr
  exact Option.bind_eq_some_iff.mpr ⟨st₁, markCircular_mono hle hst₁, heq⟩

theorem crossReferenceLoop_mono (hle : fuel ≤ fuel')
    (hc : crossReferenceLoop fuel fileExists mapOld mapNew rest st = some st') :
    crossReferenceLoop fuel' fileExists mapOld mapNew rest st = some st' := by
  induction rest generalizing st with
  | nil => exact hc
  | cons s1 rest ih =>
    rw [crossReferenceLoop] at hc ⊢
    split at hc
    · rename_i hs
      rw [if_pos hs]
      exact ih hc
    · rename_i hs
      rw [if_neg hs]
      obtain ⟨h, hf, hc⟩ := Option.bind_eq_some_iff.mp hc
      refine Option.bind_eq_some_iff.mpr ⟨h, followRenamings_mono hle hf, ?_⟩
      dsimp only at hc ⊢
      split at hc
      · rename_i hn
        rw [if_pos hn]
        exact ih hc
      · rename_i hn
        rw [if_neg hn]
        obtain ⟨tmpName, ht, hc⟩ := Option.bind_eq_some_iff.mp hc
        obtain ⟨st₁, hr, hc⟩ := Option.bind_eq_some_iff.mp hc
        exact Option.bind_eq_some_iff.mpr ⟨tmpName, findTmpName_mono hle ht,
          Option.bind_eq_some_iff.mpr ⟨st₁, resolveCircular_mono hle hr, ih hc⟩⟩

end

/-! ### `make_plan` -/

section
variable {fileExists : CString → Bool} {W : List SpecId} {h : Heap} {st : PlanState} {fuel fuel' : Nat}
  {program : Program}

theorem makePlan_mono (hle : fuel ≤ fuel') (hm : makePlan fuel program fileExists W h = some st) :
    makePlan fuel' program fileExists W h = some st := by
  cases program with
  | qcp => exact hm
  | other => exact hm
  | qmv =>
    obtain ⟨st₁, hst₁, hm₁⟩ := Option.bind_eq_some_iff.mp hm
    obtain ⟨st₂, hst₂, hm₂⟩ := Option.bind_eq_some_iff.mp hm₁
    exact Option.bind_eq_some_iff.mpr ⟨st₁, topologicLoop_mono hle hst₁,
      Option.bind_eq_some_iff.mpr ⟨st₂, crossReferenceLoop_mono hle hst₂, hm₂⟩⟩

/-- With enough fuel `make_plan` returns. The fuel pays for the walks over the specs and for the
temporary names that are taken. -/
theorem makePlan_isSome (hlt : ∀ s ∈ W, s < h.fresh) (program : Program) {F : List CString}
    (hF : ∀ n, fileExists n = true → n ∈ F) (hfuel : F.length + W.length < fuel) :
    (makePlan fuel program fileExists W h).isSome = true := by
  cases program with
  | qcp => rfl
  | other => rfl
  | qmv =>
    have hsort : (topologicSort fuel fileExists W (scanned fileExists W h)).isSome = true :=
      topologicSort_isSome (by omega)
    obtain ⟨st₁, hst₁⟩ := Option.isSome_iff_exists.mp hsort
    have n := topologicSort_narrowed hst₁
    have hlt' : ∀ s ∈ W, s < st₁.heap.fresh := by
      intro s hs
      rw [n.fresh, scanned_fresh]
      exact hlt s hs
    obtain ⟨st₂, hst₂⟩ := Option.isSome_iff_exists.mp
      (crossReferenceResolve_isSome hlt' (n.newDistinct (newDistinct_scanned fileExists W h)) hF hfuel)
    rw [scanned] at hst₁
    simp only [makePlan, hst₁, hst₂, Option.bind_eq_bind, Option.bind_some]
    rfl

end

/-- `make_plan` in qmv mode returns for every list of specs, whatever their statuses, names and links, if
finitely many files exist, and what it returns does not depend on the fuel. -/
theorem makePlan_terminates {fileExists : CString → Bool} {F : List CString}
    (hF : ∀ n, fileExists n = true → n ∈ F) {W : List SpecId} {h : Heap} (hlt : ∀ s ∈ W, s < h.fresh) :
    ∃ st, ∀ fuel, F.length + W.length < fuel → makePlan fuel .qmv fileExists W h = some st := by
  obtain ⟨st, hst⟩ := Option.isSome_iff_exists.mp
    (makePlan_isSome hlt .qmv hF (Nat.lt_succ_self (F.length + W.length)))
  exact ⟨st, fun fuel hfuel => makePlan_mono hfuel hst⟩

/-- A list that names a spec twice, with two old names that are the same and links that make a circle. -/
theorem makePlan_terminates_twice :
    let h := ((Heap.empty.newFileSpec ⟨[97], [98], some 1, some 1, .unchecked⟩).newFileSpec
      ⟨[97], [98], some 0, some 0, .circular⟩).newFileSpec ⟨[98], [97], none, none, .unchecked⟩
    let exist : List CString := [[97], [98]]
    ∃ st, ∀ fuel, exist.length + 4 < fuel →
      makePlan fuel .qmv (exist.contains ·) [0, 1, 2, 0] h = some st := by
  intro h exist
  exact makePlan_terminates (F := exist) (W := [0, 1, 2, 0]) (h := h) (fun n hn => List.contains_iff_mem.mp hn)
    (by decide)

end Renameutils
