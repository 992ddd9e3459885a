import Renameutils.PlanCount
import Mathlib.Data.List.SplitBy

/-!
# Groups in the display of a plan

A group is a maximal run of specs with one status, and `grouped` is a list whose groups are each followed by
the explanation of their status. Where a loop of `display_plan` comes to a new group it explains the status
of that one, not of the one before, so that its text is `grouped` when there is one group only
(`displayPlan_iff`).
-/

namespace Renameutils

def sameStatus (h : Heap) (s t : SpecId) : Bool := h.status s = h.status t

/-- A group, and the explanation of its status. -/
def explained (printStatus : FileSpecStatus → Option DisplayLine) (h : Heap) (group : List SpecId) : List DisplayLine :=
  group.map (displayNames h) ++ (group.head?.bind fun s => printStatus (h.status s)).toList

def grouped (printStatus : FileSpecStatus → Option DisplayLine) (h : Heap) (specs : List SpecId) : List DisplayLine :=
  (specs.splitBy (sameStatus h)).flatMap (explained printStatus h)

/-- The text of a plan in which each group is followed by its own explanation. -/
def groupedPlan (program : Program) (h : Heap) (plan : ApplyPlan) : List DisplayLine :=
  let head :=
    if plan.error ≠ [] then "Plan contains errors.\n"
    else if plan.ok = [] then "Plan is empty (no changes made)."
    else "Plan is valid.\n"
  let between := if plan.error ≠ [] ∧ plan.ok ≠ [] then [.text ""] else []
  .text head :: grouped printErrorStatus h plan.error ++ between ++ grouped (printOkStatus program) h plan.ok ++
    [.text ""]

/-- There is one group at most. -/
def OneStatus (h : Heap) (specs : List SpecId) : Prop := ∀ s ∈ specs, ∀ t ∈ specs, h.status s = h.status t

instance (h : Heap) (specs : List SpecId) : Decidable (OneStatus h specs) :=
  inferInstanceAs (Decidable (∀ s ∈ specs, ∀ t ∈ specs, h.status s = h.status t))

/-- `printStatus` explains the statuses that satisfy `p`, each of them in its own words. -/
structure Explains (printStatus : FileSpecStatus → Option DisplayLine) (p : FileSpecStatus → Bool)
    (explanation : FileSpecStatus → DisplayLine) : Prop where
  print : ∀ status, p status = true → printStatus status = some (explanation status)
  inj : ∀ a b, p a = true → p b = true → explanation a = explanation b → a = b

section
variable {printStatus : FileSpecStatus → Option DisplayLine} {p : FileSpecStatus → Bool}
  {explanation : FileSpecStatus → DisplayLine} {h : Heap} {specs : List SpecId}

/-- The lines after a spec of status `last`. -/
def printedAfter (explanation : FileSpecStatus → DisplayLine) (h : Heap) :
    FileSpecStatus → List SpecId → List DisplayLine
  | last, [] => [explanation last]
  | last, s :: specs =>
    if last = h.status s then displayNames h s :: printedAfter explanation h (h.status s) specs
    else explanation (h.status s) :: displayNames h s :: printedAfter explanation h (h.status s) specs

/-- The lines after it in `grouped`. -/
def groupedAfter (explanation : FileSpecStatus → DisplayLine) (h : Heap) :
    FileSpecStatus → List SpecId → List DisplayLine
  | last, [] => [explanation last]
  | last, s :: specs =>
    if last = h.status s then displayNames h s :: groupedAfter explanation h (h.status s) specs
    else explanation last :: displayNames h s :: groupedAfter explanation h (h.status s) specs

theorem displaySpecs_after (e : Explains printStatus p explanation) (hspecs : ∀ s ∈ specs, p (h.status s) = true)
    {last : SpecId} (hlast : p (h.status last) = true) :
    displaySpecs printStatus h specs (h.status last) (some last) =
      some (printedAfter explanation h (h.status last) specs) := by
  induction specs generalizing last with
  | nil => simp [displaySpecs, printedAfter, e.print _ hlast]
  | cons s specs ih =>
    have hs := hspecs s List.mem_cons_self
    rw [displaySpecs, ih (fun t ht => hspecs t (List.mem_cons_of_mem _ ht)) hs, printedAfter]
    by_cases hsame : h.status last = h.status s
    · simp [hsame]
    · simp [hsame, e.print _ hs]

theorem explained_group (e : Explains printStatus p explanation) {group : List SpecId} {status : FileSpecStatus}
    (hp : p status = true) (hne : group ≠ []) (hgroup : ∀ s ∈ group, h.status s = status) :
    explained printStatus h group = group.map (displayNames h) ++ [explanation status] := by
  obtain ⟨s, group, rfl⟩ := List.exists_cons_of_ne_nil hne
  rw [explained, List.head?_cons, Option.bind_some, hgroup s List.mem_cons_self, e.print _ hp]
  rfl

theorem isChain_sameStatus {group : List SpecId} {status : FileSpecStatus}
    (hgroup : ∀ s ∈ group, h.status s = status) : group.IsChain fun s t => sameStatus h s t = true := by
  refine List.Pairwise.isChain (List.pairwise_of_forall_mem_list fun s hs t ht => ?_)
  rw [sameStatus, hgroup s hs, hgroup t ht, decide_eq_true rfl]

theorem grouped_append (e : Explains printStatus p explanation) (hspecs : ∀ s ∈ specs, p (h.status s) = true)
    {group : List SpecId} {status : FileSpecStatus} (hp : p status = true) (hne : group ≠ [])
    (hgroup : ∀ s ∈ group, h.status s = status) :
    grouped printStatus h (group ++ specs) =
      group.map (displayNames h) ++ groupedAfter explanation h status specs := by
  induction specs generalizing group status with
  | nil =>
    rw [List.append_nil, grouped, List.splitBy_of_isChain hne (isChain_sameStatus hgroup), List.flatMap_singleton,
      explained_group e hp hne hgroup]
    rfl
  | cons s specs ih =>
    have hs := hspecs s List.mem_cons_self
    have hrest : ∀ t ∈ specs, p (h.status t) = true := fun t ht => hspecs t (List.mem_cons_of_mem _ ht)
    rw [groupedAfter]
    by_cases hsame : status = h.status s
    · have hlonger : ∀ t ∈ group ++ [s], h.status t = status := by
        intro t ht
        rcases List.mem_append.mp ht with ht | ht
        · exact hgroup t ht
        · rw [List.mem_singleton.mp ht, hsame]
      have hrun := ih hrest hp (by simp) hlonger
      rw [List.append_assoc, List.map_append, List.append_assoc] at hrun
      rw [if_pos hsame, ← hsame]
      exact hrun
    · have hends : ∀ t ∈ group.getLast?, sameStatus h t s = false := fun t ht => by
        rw [sameStatus, hgroup t (List.mem_of_getLast? ht)]
        exact decide_eq_false hsame
      rw [if_neg hsame, grouped, List.splitBy_append_cons _ hends, List.flatMap_append,
        List.splitBy_of_isChain hne (isChain_sameStatus hgroup), List.flatMap_singleton,
        explained_group e hp hne hgroup, List.append_assoc]
      exact congrArg _ (congrArg (explanation status :: ·)
        (ih hrest hs (List.cons_ne_nil s []) fun t ht => by rw [List.mem_singleton.mp ht]))

theorem printedAfter_eq_iff (e : Explains printStatus p explanation) (hspecs : ∀ s ∈ specs, p (h.status s) = true)
    {last : FileSpecStatus} (hlast : p last = true) :
    printedAfter explanation h last specs = groupedAfter explanation h last specs ↔
      ∀ s ∈ specs, h.status s = last := by
  induction specs generalizing last with
  | nil => simp [printedAfter, groupedAfter]
  | cons s specs ih =>
    have hs := hspecs s List.mem_cons_self
    rw [printedAfter, groupedAfter, List.forall_mem_cons]
    by_cases hsame : last = h.status s
    · rw [if_pos hsame, if_pos hsame, List.cons_inj_right,
        ih (fun t ht => hspecs t (List.mem_cons_of_mem _ ht)) hs, ← hsame]
      exact ⟨fun h => ⟨rfl, h⟩, fun h => h.2⟩
    · rw [if_neg hsame, if_neg hsame]
      refine iff_of_false (fun heq => ?_) fun h => hsame h.1.symm
      exact hsame (e.inj _ _ hlast hs (List.cons.inj heq).1.symm)

theorem length_printedAfter (last : FileSpecStatus) (specs : List SpecId) :
    (printedAfter explanation h last specs).length = (groupedAfter explanation h last specs).length := by
  induction specs generalizing last with
  | nil => rfl
  | cons s specs ih =>
    rw [printedAfter, groupedAfter]
    split <;> simp [ih]

/-- A loop of `display_plan` prints as many lines as `grouped` has, and the same ones for one status. -/
theorem displaySpecs_eq_iff (e : Explains printStatus p explanation) (hspecs : ∀ s ∈ specs, p (h.status s) = true)
    (lastStatus : FileSpecStatus) : ∃ lines, displaySpecs printStatus h specs lastStatus none = some lines ∧
      lines.length = (grouped printStatus h specs).length ∧
      (lines = grouped printStatus h specs ↔ OneStatus h specs) := by
  cases specs with
  | nil => exact ⟨[], rfl, rfl, iff_of_true rfl fun s hs => (nomatch hs)⟩
  | cons s specs =>
    have hs := hspecs s List.mem_cons_self
    have hrest : ∀ t ∈ specs, p (h.status t) = true := fun t ht => hspecs t (List.mem_cons_of_mem _ ht)
    have hgrouped : grouped printStatus h (s :: specs) =
        displayNames h s :: groupedAfter explanation h (h.status s) specs :=
      grouped_append e hrest hs (List.cons_ne_nil s []) fun t ht => by rw [List.mem_singleton.mp ht]
    refine ⟨displayNames h s :: printedAfter explanation h (h.status s) specs, ?_, ?_, ?_⟩
    · simp [displaySpecs, displaySpecs_after e hrest hs]
    · rw [hgrouped, List.length_cons, List.length_cons, length_printedAfter]
    · rw [hgrouped, List.cons_inj_right, printedAfter_eq_iff e hrest hs]
      constructor
      · intro hall t ht u hu
        have hof : ∀ t ∈ s :: specs, h.status t = h.status s := List.forall_mem_cons.mpr ⟨rfl, hall⟩
        rw [hof t ht, hof u hu]
      · exact fun hone t ht => hone t (List.mem_cons_of_mem _ ht) s List.mem_cons_self

end

def errorExplanation (status : FileSpecStatus) : DisplayLine := (printErrorStatus status).getD (.text "")

def okExplanation (program : Program) (status : FileSpecStatus) : DisplayLine :=
  (printOkStatus program status).getD (.text "")

theorem explains_error : Explains printErrorStatus FileSpecStatus.isError errorExplanation where
  print status hp := by cases status <;> first | rfl | cases hp
  inj a b ha hb heq := by
    cases a <;> cases b <;> simp_all [errorExplanation, printErrorStatus, FileSpecStatus.isError]

theorem explains_ok (program : Program) :
    Explains (printOkStatus program) FileSpecStatus.isOk (okExplanation program) where
  print status hp := by cases status <;> first | rfl | cases hp
  inj a b ha hb heq := by
    cases program <;> cases a <;> cases b <;> simp_all [okExplanation, printOkStatus, FileSpecStatus.isOk]

theorem displayPlan_iff (program : Program) {h : Heap} {plan : ApplyPlan}
    (herror : ∀ s ∈ plan.error, (h.status s).isError = true) (hok : ∀ s ∈ plan.ok, (h.status s).isOk = true) :
    displayPlan program h plan = some (groupedPlan program h plan) ↔
      OneStatus h plan.error ∧ OneStatus h plan.ok := by
  obtain ⟨errors, he, hlen, heq⟩ := displaySpecs_eq_iff explains_error herror .unchecked
  obtain ⟨oks, ho, hlen', heq'⟩ := displaySpecs_eq_iff (explains_ok program) hok
    ((plan.error.getLast?.map h.status).getD .unchecked)
  rw [← heq, ← heq']
  simp only [displayPlan, groupedPlan, he, ho, Option.bind_eq_bind, Option.bind_some, Option.pure_def,
    Option.some.injEq]
  constructor
  · intro hall
    obtain ⟨hall, _⟩ := List.append_inj' hall rfl
    obtain ⟨hall, hoks⟩ := List.append_inj' hall hlen'
    exact ⟨(List.cons.inj (List.append_inj' hall rfl).1).2, hoks⟩
  · rintro ⟨rfl, rfl⟩
    rfl

/-- The display of a plan explains every group with its own status exactly when the errors have one status,
and so have the renames. -/
theorem displayPlan_grouped_iff (program : Program) (fileExists : CString → Bool) {W : List SpecId} {h : Heap}
    (hnd : W.Nodup) (hlt : ∀ s ∈ W, s < h.fresh) {fuel : Nat} {st : PlanState}
    (hm : makePlan fuel program fileExists W h = some st) :
    displayPlan program st.heap st.plan = some (groupedPlan program st.heap st.plan) ↔
      OneStatus st.heap st.plan.error ∧ OneStatus st.heap st.plan.ok := by
  obtain ⟨cuts, _, f, _⟩ := makePlan_filed hnd hlt hm
  exact displayPlan_iff program (fun s hs => ((f.error_iff s).mp hs).2) fun s hs => f.isOk_of_mem hs

/-- Two files that are renamed, and two that do not exist. -/
theorem displayPlan_grouped_missing :
    let h := (((Heap.empty.newFileSpec ⟨[97], [98], none, none, .unchecked⟩).newFileSpec
      ⟨[99], [100], none, none, .unchecked⟩).newFileSpec ⟨[120], [101], none, none, .unchecked⟩).newFileSpec
      ⟨[121], [102], none, none, .unchecked⟩
    let exist : List CString := [[97], [99]]
    ∃ st, makePlan 10 .qmv (exist.contains ·) [0, 1, 2, 3] h = some st ∧ st.plan.error = [2, 3] ∧
      st.plan.ok = [0, 1] ∧ displayPlan .qmv st.heap st.plan = some (groupedPlan .qmv st.heap st.plan) := by
  intro h exist
  have hm : (makePlan 10 .qmv (exist.contains ·) [0, 1, 2, 3] h).any (fun st => st.plan.error = [2, 3] ∧
      st.plan.ok = [0, 1] ∧ OneStatus st.heap st.plan.error ∧ OneStatus st.heap st.plan.ok) = true := by
    decide +kernel
  obtain ⟨st, hst, hone⟩ := (Option.any_eq_true _ _).mp hm
  obtain ⟨herror, hok, hone⟩ := of_decide_eq_true hone
  exact ⟨st, hst, herror, hok, (displayPlan_grouped_iff .qmv _ (by decide) (by decide) hst).mpr hone⟩

/-- Two files with one new name, and one that does not exist: the duplicates are said to be missing. -/
theorem displayPlan_ungrouped :
    ¬ ∀ program fileExists (W : List SpecId) h fuel st, W.Nodup → (∀ s ∈ W, s < h.fresh) →
      makePlan fuel program fileExists W h = some st →
        displayPlan program st.heap st.plan = some (groupedPlan program st.heap st.plan) := by
  intro hall
  let h := ((Heap.empty.newFileSpec ⟨[97], [99], none, none, .unchecked⟩).newFileSpec
    ⟨[98], [99], none, none, .unchecked⟩).newFileSpec ⟨[100], [101], none, none, .unchecked⟩
  let exist : List CString := [[97], [98]]
  have hm : (makePlan 10 .qmv (exist.contains ·) [0, 1, 2] h).any (fun st =>
      displayPlan .qmv st.heap st.plan ≠ some (groupedPlan .qmv st.heap st.plan)) = true := by decide +kernel
  obtain ⟨st, hst, hungrouped⟩ := (Option.any_eq_true _ _).mp hm
  exact of_decide_eq_true hungrouped (hall .qmv _ [0, 1, 2] h 10 st (by decide) (by decide) hst)

end Renameutils
