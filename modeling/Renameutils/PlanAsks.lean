import Renameutils.PlanScans

/-!
# What the plan asks of the files

`make_plan` looks for the old and the new names of the listed specs, and for the numbered names that
`cross_reference_resolve` tries as temporary ones. Two sets of files that agree on these make the same plan
(`makePlan_agree`). The passes keep the names that the specs had, which is what the induction over them needs.
-/

namespace Renameutils

/-- A name that `make_plan` may look for. -/
inductive Asked (W : List SpecId) (h : Heap) : CString → Prop
  | old {s : SpecId} (hs : s ∈ W) : Asked W h (h.oldName s)
  | new {s : SpecId} (hs : s ∈ W) : Asked W h (h.newName s)
  | tmp {s : SpecId} (hs : s ∈ W) (k : Nat) : Asked W h ((h.oldName s).numbered k)

/-- The specs that were there keep their names. -/
structure NamesKept (h h' : Heap) : Prop where
  fresh : h.fresh ≤ h'.fresh
  oldName : ∀ s < h.fresh, h'.oldName s = h.oldName s
  newName : ∀ s < h.fresh, h'.newName s = h.newName s

section
variable {fileExists fileExists' : CString → Bool} {W rest : List SpecId} {h h' h'' : Heap} {st st' : PlanState}
  {ts : TopologicState} {mapOld mapNew : Table CString SpecId} {s s1 s2 : SpecId} {fuel : Nat} {name : CString}

namespace NamesKept

theorem refl (h : Heap) : NamesKept h h := ⟨Nat.le_refl _, fun _ _ => rfl, fun _ _ => rfl⟩

theorem trans (a : NamesKept h h') (b : NamesKept h' h'') : NamesKept h h'' :=
  ⟨a.fresh.trans b.fresh, fun s hs => (b.oldName s (hs.trans_le a.fresh)).trans (a.oldName s hs),
    fun s hs => (b.newName s (hs.trans_le a.fresh)).trans (a.newName s hs)⟩

theorem of_statusOnly (a : StatusOnly h h') : NamesKept h h' :=
  ⟨Nat.le_of_eq a.fresh.symm, fun _ _ => congrFun a.oldName _, fun _ _ => congrFun a.newName _⟩

theorem newFileSpec (h : Heap) (f : FileSpec) : NamesKept h (h.newFileSpec f) :=
  ⟨Nat.le_succ _, fun _ hs => Function.update_of_ne (Nat.ne_of_lt hs) _ _,
    fun _ hs => Function.update_of_ne (Nat.ne_of_lt hs) _ _⟩

end NamesKept

/-! ### The scans -/

theorem statusScan_agree {p q : Heap → SpecId → Bool} {add : PlanState → SpecId → PlanState}
    (hadd : ∀ st s, NamesKept st.heap (add st s).heap)
    (hpq : ∀ s ∈ rest, ∀ h', NamesKept h h' → p h' s = q h' s) (hst : NamesKept h st.heap) :
    statusScan p add rest st = statusScan q add rest st := by
  induction rest generalizing st with
  | nil => rfl
  | cons s rest ih =>
    obtain ⟨hs, hrest⟩ := List.forall_mem_cons.mp hpq
    rw [statusScan, statusScan, hs _ hst, ih hrest (hst.trans (hadd st s)), ih hrest hst]

theorem addError_namesKept (st : PlanState) (s : SpecId) (x : FileSpecStatus) :
    NamesKept st.heap (st.addError s x).heap := .of_statusOnly ((StatusOnly.refl _).setStatus s x)

theorem oldMissingScan_agree (hW : ∀ s ∈ rest, s < h.fresh)
    (hagree : ∀ s ∈ rest, fileExists (h.oldName s) = fileExists' (h.oldName s)) (hst : NamesKept h st.heap) :
    oldMissingScan fileExists rest st = oldMissingScan fileExists' rest st := by
  refine statusScan_agree (fun st s => addError_namesKept st s _) (fun s hs h' hh' => ?_) hst
  rw [hh'.oldName s (hW s hs), hagree s hs]

theorem newExistsScan_agree (hW : ∀ s ∈ rest, s < h.fresh)
    (hagree : ∀ s ∈ rest, fileExists (h.newName s) = fileExists' (h.newName s)) (hst : NamesKept h st.heap) :
    newExistsScan fileExists rest st = newExistsScan fileExists' rest st := by
  refine statusScan_agree (h := h) (fun st s => addError_namesKept st s _) (fun s hs h' hh' => ?_) ?_
  · rw [hh'.newName s (hW s hs), hagree s hs]
  · exact hst.trans (.of_statusOnly (statusScan_only (fun _ _ => rfl) _))

/-! ### `topologic_sort` -/

theorem topologicStart_agree (hW : ∀ s ∈ rest, s < h.fresh)
    (hagree : ∀ s ∈ rest, fileExists (h.newName s) = fileExists' (h.newName s)) (hts : NamesKept h ts.st.heap) :
    topologicStart fileExists rest ts = topologicStart fileExists' rest ts := by
  induction rest generalizing ts with
  | nil => rfl
  | cons s rest ih =>
    obtain ⟨hs, hrest⟩ := List.forall_mem_cons.mp hagree
    obtain ⟨hlt, hW⟩ := List.forall_mem_cons.mp hW
    have hok : NamesKept h (ts.st.addOk s .apply).heap :=
      hts.trans (.of_statusOnly ((StatusOnly.refl _).setStatus s _))
    rw [topologicStart, topologicStart, hts.newName s hlt, hs, ih hW hrest hts]
    split
    · split
      · exact ih hW hrest hok
      · rfl
    · rfl

theorem topologicStart_namesKept (fileExists : CString → Bool) (rest : List SpecId) (ts : TopologicState) :
    NamesKept ts.st.heap (topologicStart fileExists rest ts).1.st.heap := by
  induction rest generalizing ts with
  | nil => exact .refl _
  | cons s rest ih =>
    have hok : NamesKept ts.st.heap (ts.st.addOk s .apply).heap :=
      .of_statusOnly ((StatusOnly.refl _).setStatus s _)
    rw [topologicStart]
    split
    · split
      · exact hok.trans (ih ⟨_, ts.st.addOk s .apply⟩)
      · exact ih ts
    · exact ih ts

theorem topologicPass_namesKept (rest : List SpecId) (ts : TopologicState) :
    NamesKept ts.st.heap (topologicPass rest ts).1.st.heap := by
  induction rest generalizing ts with
  | nil => exact .refl _
  | cons s rest ih =>
    rw [topologicPass]
    split
    · rename_i depend _
      have hstep : NamesKept ts.st.heap (topologicStep ts s depend).st.heap :=
        ⟨Nat.le_refl _, fun _ _ => rfl, fun _ _ => rfl⟩
      exact hstep.trans (ih _)
    · exact ih ts

theorem topologicLoop_namesKept {pending : List SpecId} (hrun : topologicLoop fuel pending ts = some st) :
    NamesKept ts.st.heap st.heap := by
  induction fuel generalizing pending ts with
  | zero => cases hrun
  | succ fuel ih =>
    have hpass := topologicPass_namesKept pending ts
    rw [topologicLoop] at hrun
    split at hrun
    · rename_i heq
      rw [heq] at hpass
      exact hpass.trans (ih hrun)
    · rename_i heq
      rw [heq] at hpass
      cases hrun
      exact hpass

/-! ### `cross_reference_resolve` -/

theorem findTmpName_agree (hagree : ∀ k, fileExists (name.numbered k) = fileExists' (name.numbered k)) (k : Nat) :
    findTmpName fileExists mapNew name fuel k = findTmpName fileExists' mapNew name fuel k := by
  induction fuel generalizing k with
  | zero => rfl
  | succ fuel ih => rw [findTmpName, findTmpName, hagree, ih]

theorem followRenamings_namesKept (hrun : followRenamings mapOld s1 fuel s2 h = some h') : NamesKept h h' := by
  have hset (h : Heap) (s : SpecId) (p : Option SpecId) : NamesKept h (h.setNext s p) :=
    ⟨Nat.le_refl _, fun _ _ => rfl, fun _ _ => rfl⟩
  induction fuel generalizing s2 h with
  | zero => cases hrun
  | succ fuel ih =>
    rw [followRenamings] at hrun
    split at hrun
    · cases hrun
      exact hset h s1 none
    · split at hrun
      · cases hrun
        exact hset h s1 none
      · split at hrun
        · cases hrun
          exact hset h s2 none
        · exact (hset h s2 _).trans (ih hrun)

theorem markCircular_namesKept {next : Option SpecId} (hrun : markCircular fuel next st = some st') :
    NamesKept st.heap st'.heap := by
  induction fuel generalizing next st with
  | zero =>
    cases next <;> cases hrun
    exact .refl _
  | succ fuel ih =>
    cases next with
    | none =>
      cases hrun
      exact .refl _
    | some s =>
      rw [markCircular] at hrun
      exact (NamesKept.of_statusOnly ((StatusOnly.refl _).setStatus s _)).trans (ih hrun)

theorem relink_namesKept (s1 s2 : SpecId) (rest : List SpecId) (h : Heap) : NamesKept h (relink s1 s2 rest h) := by
  induction rest generalizing s2 h with
  | nil => exact .refl _
  | cons s rest ih =>
    have hlink : NamesKept h ((h.setNext s2 (some s)).setPrev s (some s2)) :=
      ⟨Nat.le_refl _, fun _ _ => rfl, fun _ _ => rfl⟩
    rw [relink]
    split
    · exact hlink
    · exact hlink.trans (ih s _)

theorem resolveCircular_namesKept (hrun : resolveCircular fuel name s1 st = some st') :
    NamesKept st.heap st'.heap := by
  obtain ⟨st₂, hmark, hrun⟩ := Option.bind_eq_some_iff.mp hrun
  cases hrun
  have hnew := NamesKept.newFileSpec st.heap ⟨st.heap.oldName s1, st.heap.newName s1, none, none, .circular⟩
  have hcopy : NamesKept st.heap (replaceMember s1 st).heap := ⟨hnew.fresh, hnew.oldName, hnew.newName⟩
  have hmarked := hcopy.trans (markCircular_namesKept hmark)
  have hfresh : st.heap.fresh < st₂.heap.fresh := (markCircular_namesKept hmark).fresh
  let added := (st₂.heap.newFileSpec ⟨st₂.heap.oldName st.heap.fresh, name, none, none, .circular⟩).setOldName
    st.heap.fresh name
  have hadded : NamesKept st.heap added := by
    refine ⟨hmarked.fresh.trans (Nat.le_succ _), fun s hs => ?_, fun s hs => ?_⟩
    · have hs₂ : s < st₂.heap.fresh := hs.trans hfresh
      refine (Function.update_of_ne (Nat.ne_of_lt hs) _ _).trans ?_
      exact (Function.update_of_ne (Nat.ne_of_lt hs₂) _ _).trans (hmarked.oldName s hs)
    · have hs₂ : s < st₂.heap.fresh := hs.trans hfresh
      exact (Function.update_of_ne (Nat.ne_of_lt hs₂) _ _).trans (hmarked.newName s hs)
  have hlinks := hadded.trans (relink_namesKept st.heap.fresh st₂.heap.fresh st₂.plan.ok added)
  exact ⟨hlinks.fresh, hlinks.oldName, hlinks.newName⟩

theorem crossReferenceLoop_agree (hW : ∀ s ∈ rest, s < h.fresh)
    (hagree : ∀ s ∈ rest, ∀ k, fileExists ((h.oldName s).numbered k) = fileExists' ((h.oldName s).numbered k))
    (hst : NamesKept h st.heap) :
    crossReferenceLoop fuel fileExists mapOld mapNew rest st =
      crossReferenceLoop fuel fileExists' mapOld mapNew rest st := by
  induction rest generalizing st with
  | nil => rfl
  | cons s1 rest ih =>
    obtain ⟨hs, hrest⟩ := List.forall_mem_cons.mp hagree
    obtain ⟨hlt, hW⟩ := List.forall_mem_cons.mp hW
    rw [crossReferenceLoop, crossReferenceLoop, ih hW hrest hst]
    split
    · rfl
    · refine Option.bind_congr fun h₁ hfollow => ?_
      have h₁' := hst.trans (followRenamings_namesKept hfollow)
      split
      · exact ih hW hrest (h₁'.trans (addError_namesKept { st with heap := h₁ } s1 .newExists))
      · rw [h₁'.oldName s1 hlt, findTmpName_agree hs]
        refine Option.bind_congr fun name _ => Option.bind_congr fun st₁ hresolve => ?_
        exact ih hW hrest (h₁'.trans (resolveCircular_namesKept hresolve))

end

/-! ### The plan -/

/-- Files that agree on the names that `make_plan` may look for make the same plan. -/
theorem makePlan_agree {fileExists fileExists' : CString → Bool} {W : List SpecId} {h : Heap} (hnd : W.Nodup)
    (hlt : ∀ s ∈ W, s < h.fresh) (hagree : ∀ n, Asked W h n → fileExists n = fileExists' n) (fuel : Nat)
    (program : Program) : makePlan fuel program fileExists W h = makePlan fuel program fileExists' W h := by
  have hold : ∀ s ∈ W, fileExists (h.oldName s) = fileExists' (h.oldName s) := fun s hs => hagree _ (.old hs)
  have hnew : ∀ s ∈ W, fileExists (h.newName s) = fileExists' (h.newName s) := fun s hs => hagree _ (.new hs)
  have hscan : scanned fileExists W h = scanned fileExists' W h := by
    have hdup := duplicateScan_only hnd (previousScan W ⟨h, {}⟩)
    rw [previousScan_heap] at hdup
    exact congrArg (noChangeScan W) (oldMissingScan_agree hlt hold (.of_statusOnly hdup))
  have hkept : NamesKept h (scanned fileExists' W h).heap := .of_statusOnly (scanned_only hnd)
  unfold scanned at hscan hkept
  unfold makePlan
  dsimp only
  rw [hscan]
  cases program with
  | other => rfl
  | qcp =>
    dsimp only
    rw [newExistsScan_agree hlt hnew hkept]
  | qmv =>
    dsimp only
    unfold topologicSort
    rw [topologicStart_agree hlt hnew hkept]
    refine Option.bind_congr fun st₁ hsort => ?_
    have hsorted : NamesKept h st₁.heap :=
      hkept.trans ((topologicStart_namesKept _ _ _).trans (topologicLoop_namesKept hsort))
    exact congrArg (Option.bind · _) (crossReferenceLoop_agree hlt (fun s hs k => hagree _ (.tmp hs k)) hsorted)

end Renameutils
