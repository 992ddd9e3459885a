import Renameutils.DiskRuns
import Renameutils.PlanAsks
import Renameutils.PlanPossible

/-!
# Plans on the disk

In a work directory a fresh plan does with the files on the disk what it does with a flat table of names, if all
names are relative, different ones are different places and no listed entry is a directory (`Below`): nothing is lost
while it is applied (`makePlanIn_placed`), and renames that are possible are done (`makePlanIn_allMoved`).
-/

namespace Renameutils

section
variable {fileExists : CString → Bool} {W : List SpecId} {h : Heap} {st : PlanState} {cuts : List Cut}
  {ts : TopologicState} {T pending errs : List SpecId} {s : SpecId}

theorem Ordered.asked (o : Ordered fileExists W h ts T pending cuts errs st) (hnd : W.Nodup)
    (hlt : ∀ s ∈ W, s < h.fresh) (hs : s ∈ st.plan.ok) :
    Asked W h (st.heap.oldName s) ∧ Asked W h (st.heap.newName s) := by
  have hnames : ts.st.heap.oldName = h.oldName ∧ ts.st.heap.newName = h.newName :=
    ⟨o.topologic.base.oldName.trans (scanned_only hnd).oldName,
      o.topologic.base.newName.trans (scanned_only hnd).newName⟩
  have htmp : ∀ c ∈ cuts, c.member ∈ W ∧ Asked W h c.tmpName := by
    intro c hc
    have hW := (o.unchecked_members hnd hc List.mem_cons_self).2.2.1
    obtain ⟨k, hk⟩ := (o.cross.cut c hc).tmpName_numbered
    rw [hnames.1] at hk
    exact ⟨hW, hk ▸ .tmp hW k⟩
  rcases o.mem_ok_cases hnd hs with hW | ⟨c, hc, rfl | rfl⟩
  · rw [o.oldName_eq hnd (hlt s hW), o.newName_eq hnd (hlt s hW)]
    exact ⟨.old hW, .new hW⟩
  · obtain ⟨hW, hasked⟩ := htmp c hc
    rw [(o.cross.cut c hc).oldName_tmp, (o.cross.cut c hc).newName_tmp, hnames.1]
    exact ⟨.old hW, hasked⟩
  · obtain ⟨hW, hasked⟩ := htmp c hc
    rw [(o.cross.cut c hc).oldName_copy, (o.cross.cut c hc).newName_copy, hnames.2]
    exact ⟨hasked, .new hW⟩

theorem Possible.agree {fileExists' : CString → Bool} (p : Possible fileExists W h)
    (hagree : ∀ n, Asked W h n → fileExists' n = fileExists n) : Possible fileExists' W h where
  new_inj := p.new_inj
  old_exists s hs := (hagree _ (.old hs)).trans (p.old_exists s hs)
  listed s hs htaken := p.listed s hs ((hagree _ (.new hs)).symm.trans htaken)

end

/-- The names that `make_plan` may look for are relative, and different ones are different places. No listed entry is a
directory or a link to one, so the commands leave the directories as they are. -/
structure Below {δ : Type} (D : Tree δ) (d : δ) (W : List SpecId) (h : Heap) : Prop where
  relative : ∀ n, Asked W h n → n ≠ [] ∧ n.head? ≠ some slash
  inj : LocateInj D (Asked W h) d
  files : ∀ s ∈ W, ∀ p, D.locate d (h.oldName s) = some p → D.enter p.1 p.2 = none

section
variable {δ φ : Type} {D : Tree δ} {d : δ} {W : List SpecId} {h : Heap} {st : PlanState}
  {disk disk₀ : Disk δ φ} {dirs : WorkDir δ} {workDirectory : CString} {fs : FileSys φ}
  {ρ : CString → CString} {cuts : List Cut} {fuel : Nat}

/-- The specs are about entries of the directory itself. -/
def Entries (W : List SpecId) (h : Heap) : Prop :=
  ∀ s ∈ W, (h.oldName s ≠ [] ∧ slash ∉ h.oldName s) ∧ h.newName s ≠ [] ∧ slash ∉ h.newName s

theorem Entries.asked (hW : Entries W h) {n : CString} (hn : Asked W h n) : n ≠ [] ∧ slash ∉ n := by
  rcases hn with hs | hs | ⟨hs, k⟩
  · exact (hW _ hs).1
  · exact (hW _ hs).2
  · have hdecimal : slash ∉ CString.decimal k := fun hmem => absurd (CString.decimal_bounds hmem).1 (by decide)
    refine ⟨by simp [CString.numbered], ?_⟩
    simp only [CString.numbered, List.mem_append, List.mem_cons, not_or]
    exact ⟨(hW _ hs).1.2, by decide, hdecimal⟩

theorem Entries.locate (hW : Entries W h) {n : CString} (hn : Asked W h n) : D.locate d n = some (d, n) :=
  Directories.locate_entry (hW.asked hn).1 (hW.asked hn).2

theorem Entries.below (hW : Entries W h) (hfiles : ∀ s ∈ W, D.enter d (h.oldName s) = none) : Below D d W h := by
  refine ⟨fun n hn => ⟨(hW.asked hn).1, fun hhead => (hW.asked hn).2 (List.mem_of_head? hhead)⟩, ?_, ?_⟩
  · intro m n p hm hn hmp hnp
    rw [hW.locate hm] at hmp
    rw [hW.locate hn, ← hmp] at hnp
    exact (congrArg Prod.snd (Option.some.inj hnp)).symm
  · intro s hs p hp
    rw [hW.locate (.old hs)] at hp
    cases hp
    exact hfiles s hs

theorem fileExistsIn_eq (hd : Works D d workDirectory dirs) (b : Below D d W h) {n : CString} (hn : Asked W h n) :
    fileExistsIn D disk dirs n = (D.view (Asked W h) d disk).contains n := by
  obtain ⟨hne, hrel⟩ := b.relative n hn
  rw [fileExistsIn, Tree.find, hd.name, locate_catFiles hd.leads hne hrel, Table.contains, view_of disk hn]

theorem makePlan_view (hd : Works D d workDirectory dirs) (b : Below D d W h) (hnd : W.Nodup)
    (hlt : ∀ s ∈ W, s < h.fresh) (fuel : Nat) (program : Program) :
    makePlan fuel program (fileExistsIn D disk dirs) W h =
      makePlan fuel program (D.view (Asked W h) d disk).contains W h :=
  makePlan_agree hnd hlt (fun _ hn => fileExistsIn_eq hd b hn) fuel program

theorem follows_start (h : Heap) (W : List SpecId) (dirs : WorkDir δ) (N : CString → Prop) :
    Follows D d N disk ⟨h, W, dirs, disk⟩ ⟨h, W, D.view N d disk⟩ := ⟨rfl, rfl, rfl, fun _ _ => rfl⟩

theorem Seen.stand {N : CString → Prop} (hinj : LocateInj D N d) (seen : Seen D d N disk₀ disk fs) :
    Table.Renames.Stand (D.locate d) N (D.view N d disk₀) fs disk₀ disk where
  inj := hinj
  before _ hk := view_of disk₀ hk
  after _ hk := by rw [seen.fs, view_of disk hk]
  only _ hk := ⟨view_of_not disk₀ hk, by rw [seen.fs, view_of_not disk hk]⟩
  free := seen.free

/-! ### Nothing is lost -/

/-- The files on the disk are those of `disk₀`, each at the place that `σ` gives it; only those of planned specs
have other places. -/
structure PlacedIn (D : Tree δ) (d : δ) (W : List SpecId) (h : Heap) (st : PlanState) (cuts : List Cut)
    (disk₀ : Disk δ φ) (σ : δ × CString → δ × CString) (disk : Disk δ φ) : Prop where
  renames : Table.Renames σ disk₀ disk
  planned : ∀ s, Planned W st.plan s → ∀ p, D.locate d (h.oldName s) = some p → disk₀ p ≠ none →
    ∃ n, Place h cuts s n ∧ D.locate d n = some (σ p)
  other : ∀ p, (∀ s, Planned W st.plan s → D.locate d (h.oldName s) ≠ some p) → σ p = p

theorem Placed.onDisk (placed : Placed W h st cuts (D.view (Asked W h) d disk₀) ρ fs) (b : Below D d W h)
    (seen : Seen D d (Asked W h) disk₀ disk fs) :
    PlacedIn D d W h st cuts disk₀ (Table.Renames.carry (D.locate d) (Asked W h) ρ) disk := by
  have stand := seen.stand b.inj
  refine ⟨placed.renames.through stand, fun s hs p hp hne => ?_, fun p hp => ?_⟩
  · exact ⟨_, placed.planned s hs, (placed.renames.carry_spec stand (.old hs.mem) hp hne).2.1⟩
  · refine Table.Renames.carry_of_same b.inj fun k hk hkp => placed.other k fun s hs heq => ?_
    subst heq
    exact hp s hs hkp

variable [DecidableEq δ]

/-- At every moment of any runs over a fresh qmv plan each file on the disk is somewhere, and none is overwritten. -/
theorem makePlanIn_placed (hd : Works D d workDirectory dirs) (b : Below D d W h)
    (hst : makePlan fuel .qmv (fileExistsIn D disk₀ dirs) W h = some st) (hnd : W.Nodup)
    (hlt : ∀ s ∈ W, s < h.fresh)
    (hfresh : ∀ s ∈ W, h.status s = .unchecked ∧ h.prevSpec s = none ∧ h.nextSpec s = none)
    (hold : ∀ s ∈ W, ∀ t ∈ W, h.oldName s = h.oldName t → s = t) :
    ∃ cuts, ExactlyOnce W h st cuts ∧ ∀ envs : List ApplyEnv, (∀ env ∈ envs, env.GetsBack D d workDirectory) →
      let r := applyRunsIn D .qmv false envs st.plan ⟨st.heap, W, dirs, disk₀⟩
      (∀ l ∈ r.launched, ∃ σ, PlacedIn D d W h st cuts disk₀ σ l.disk) ∧
        ∃ σ, PlacedIn D d W h st cuts disk₀ σ r.state.disk := by
  rw [makePlan_view hd b hnd hlt] at hst
  obtain ⟨ts, T, pending, cuts, errs, o⟩ := makePlan_qmv hnd hlt hst
  have hasked := fun s hs => o.asked hnd hlt (s := s) hs
  have hstart := Moving.start o hnd hlt (fun s hs => (hfresh s hs).1) (fun s hs => (hfresh s hs).2.1)
    (fun s hs => (hfresh s hs).2.2) hold
  refine ⟨cuts, o.exactlyOnce hnd hlt, fun envs hback => ?_⟩
  obtain ⟨envs', hr⟩ := (follows_start st.heap W dirs (Asked W h)).runs .qmv false b.inj hasked hd hback
  obtain ⟨hlaunched, hplaced⟩ := o.applyRuns_placed hnd hlt hold hstart envs'
  refine ⟨fun l hl => ?_, ?_⟩
  · obtain ⟨l', hl', follows⟩ := exists_of_forall₂ hr.launched l hl
    obtain ⟨ρ, placed⟩ := hlaunched l' hl'
    exact ⟨_, placed.onDisk b follows.seen⟩
  · obtain ⟨ρ, placed⟩ := hplaced
    exact ⟨_, placed.onDisk b hr.state.seen⟩

/-! ### What is renamed -/

omit [DecidableEq δ] in
theorem view_finite (b : Below D d W h) (disk : Disk δ φ) {P : List (δ × CString)} (hP : ∀ p, disk p ≠ none → p ∈ P) :
    ∃ F : List CString, F.length ≤ P.length ∧ ∀ n, (D.view (Asked W h) d disk).contains n = true → n ∈ F := by
  classical
  let nameOf : δ × CString → Option CString := fun p =>
    if h : ∃ n, Asked W h n ∧ D.locate d n = some p then some h.choose else none
  refine ⟨P.filterMap nameOf, List.length_filterMap_le _ _, fun n hn => ?_⟩
  have hasked : Asked W h n := by
    by_contra hno
    rw [Table.contains, view_of_not disk hno] at hn
    cases hn
  rw [Table.contains, view_of disk hasked] at hn
  obtain ⟨file, hfile⟩ := Option.isSome_iff_exists.mp hn
  obtain ⟨p, hp, hpfile⟩ := Option.bind_eq_some_iff.mp hfile
  have hex : ∃ n, Asked W h n ∧ D.locate d n = some p := ⟨n, hasked, hp⟩
  refine List.mem_filterMap.mpr ⟨p, hP p (by simp [hpfile]), ?_⟩
  show (if h : ∃ n, Asked W h n ∧ D.locate d n = some p then some h.choose else none) = some n
  rw [dif_pos hex, b.inj _ n p hex.choose_spec.1 hasked hex.choose_spec.2 hp]

/-- `disk'` has the files of `disk`, those of the listed specs where their new names lead. -/
def AllMovedIn (D : Tree δ) (d : δ) (W : List SpecId) (h : Heap) (disk disk' : Disk δ φ) : Prop :=
  ∃ σ, Table.Renames σ disk disk' ∧
    (∀ s ∈ W, ∀ p, D.locate d (h.oldName s) = some p → disk p ≠ none → D.locate d (h.newName s) = some (σ p)) ∧
    ∀ p, (∀ s ∈ W, D.locate d (h.oldName s) ≠ some p) → σ p = p

omit [DecidableEq δ] in
theorem AllMoved.onDisk (m : AllMoved W h (D.view (Asked W h) d disk₀) fs) (b : Below D d W h)
    (seen : Seen D d (Asked W h) disk₀ disk fs) : AllMovedIn D d W h disk₀ disk := by
  obtain ⟨ρ, hren, hρ, hother⟩ := m
  have stand := seen.stand b.inj
  refine ⟨_, hren.through stand, fun s hs p hp hne => ?_, fun p hp => ?_⟩
  · rw [← hρ s hs]
    exact (hren.carry_spec stand (.old hs) hp hne).2.1
  · refine Table.Renames.carry_of_same b.inj fun k hk hkp => hother k fun s hs heq => ?_
    subst heq
    exact hp s hs hkp

/-- A fresh qmv plan in a work directory, and a run over it. The plan is without errors just when the renames are
possible, no command is launched onto a file, and then each listed file is moved to where its new name leads, unless a
call or a command fails. -/
theorem makePlanIn_allMoved (hd : Works D d workDirectory dirs) (b : Below D d W h) (hnd : W.Nodup)
    (hlt : ∀ s ∈ W, s < h.fresh)
    (hfresh : ∀ s ∈ W, h.status s = .unchecked ∧ h.prevSpec s = none ∧ h.nextSpec s = none)
    (hold : ∀ s ∈ W, ∀ t ∈ W, h.oldName s = h.oldName t → s = t) {P : List (δ × CString)}
    (hP : ∀ p, disk₀ p ≠ none → p ∈ P) (hfuel : P.length + W.length < fuel) :
    ∃ st, makePlan fuel .qmv (fileExistsIn D disk₀ dirs) W h = some st ∧
      (st.plan.error = [] ↔ Possible (fileExistsIn D disk₀ dirs) W h) ∧
      ∀ env : ApplyEnv, env.GetsBack D d workDirectory →
        let r := applyPlanIn D .qmv false env st.plan ⟨st.heap, W, dirs, disk₀⟩
        (∀ l ∈ r.launched, (D.find l.disk d l.oldName).isSome = true ∧ D.find l.disk d l.newName = none) ∧
        (st.plan.error = [] → r.returned = true → AllMovedIn D d W h disk₀ r.state.disk) ∧
        (env.cwdTo = true → env.cwdFrom = true → (∀ i, env.outcome i = .done) →
          (∀ n, Asked W h n → D.locate d n ≠ none) → r.returned = true) := by
  obtain ⟨F, hlength, hF⟩ := view_finite b disk₀ hP
  obtain ⟨st, hst⟩ := Option.isSome_iff_exists.mp
    (makePlan_isSome hlt .qmv hF (show F.length + W.length < fuel by omega))
  have hsees : ∀ n, Asked W h n → fileExistsIn D disk₀ dirs n = (D.view (Asked W h) d disk₀).contains n :=
    fun n hn => fileExistsIn_eq hd b hn
  have hpossible : Possible (fileExistsIn D disk₀ dirs) W h ↔ Possible (D.view (Asked W h) d disk₀).contains W h :=
    ⟨fun p => p.agree fun n hn => (hsees n hn).symm, fun p => p.agree hsees⟩
  refine ⟨st, (makePlan_view hd b hnd hlt fuel .qmv).trans hst, ?_, fun env hback => ?_⟩
  · rw [hpossible]
    exact (makePlan_allMoved hst hnd hlt hfresh hold ⟨true, true, fun _ => .done⟩).1
  · obtain ⟨ts, T, pending, cuts, errs, o⟩ := makePlan_qmv hnd hlt hst
    have hasked := fun s hs => o.asked hnd hlt (s := s) hs
    obtain ⟨env', hr, -, hsame, hto, hfrom⟩ :=
      (follows_start st.heap W dirs (Asked W h)).call .qmv false b.inj hasked hd hback
    obtain ⟨-, hlaunched, hmoved, hdone⟩ := makePlan_allMoved hst hnd hlt hfresh hold env'
    refine ⟨fun l hl => ?_, fun herror hreturned => ?_, fun hto' hfrom' hall hdirs => ?_⟩
    · obtain ⟨l', hl', follows⟩ := exists_of_forall₂ hr.launched l hl
      obtain ⟨hsource, hdest⟩ := hlaunched l' hl'
      obtain ⟨hold', hnew'⟩ := (applyPlan_names .qmv false env' hasked).2 l' hl'
      rw [Table.contains, follows.seen.fs, view_of _ hold'] at hsource
      rw [Table.contains, follows.seen.fs, view_of _ hnew', Option.isSome_eq_false_iff,
        Option.isNone_iff_eq_none] at hdest
      rw [Tree.find, Tree.find, ← follows.oldName, ← follows.newName]
      exact ⟨hsource, hdest⟩
    · exact (hmoved herror (hr.returned.trans hreturned)).onDisk b hr.state.seen
    · rw [← hr.returned]
      exact hdone (hto hto') (hfrom hfrom') fun i => by rw [hsame hdirs, hall]

end

/-- Two directories, the root and `d` in it. -/
def rootAndChild : Tree Nat where
  root := 0
  enter d c :=
    if c = [] ∨ c = dot ∨ d = 0 ∧ c = dotDot then some d else if d = 0 ∧ c = [100] then some 1
    else if c = dotDot then some 0 else none
  enter_nil _ := if_pos (.inl rfl)
  enter_dot _ := if_pos (.inr (.inl rfl))
  enter_up := if_pos (.inr (.inr ⟨rfl, rfl⟩))

/-- `qmv d`, run from the root: two files in `d` exchange their names; the second command fails. -/
theorem makePlanIn_placed_swap :
    let disk : Disk Nat Nat := (Table.empty.put (1, [97]) 1).put (1, [98]) 2
    let dirs : WorkDir Nat := ⟨[100], .none, 0⟩
    let h := (Heap.empty.newFileSpec ⟨[97], [98], none, none, .unchecked⟩).newFileSpec
      ⟨[98], [97], none, none, .unchecked⟩
    ∃ st cuts, makePlan 10 .qmv (fileExistsIn rootAndChild disk dirs) [0, 1] h = some st ∧
      ∃ σ, PlacedIn rootAndChild 1 [0, 1] h st cuts disk σ (applyRunsIn rootAndChild .qmv false
        [⟨true, true, fun i => if i = 1 then .failed else .done⟩] st.plan
        ⟨st.heap, [0, 1], dirs, disk⟩).state.disk := by
  intro disk dirs h
  have hm : (makePlan 10 .qmv (fileExistsIn rootAndChild disk dirs) [0, 1] h).isSome = true := by decide
  obtain ⟨st, hst⟩ := Option.isSome_iff_exists.mp hm
  have hd : Works rootAndChild 1 [100] dirs := ⟨rfl, by decide⟩
  have hentries : Entries [0, 1] h := by
    unfold Entries
    decide
  obtain ⟨cuts, _, hplaced⟩ := makePlanIn_placed hd (hentries.below (by decide)) hst (by decide) (by decide) (by decide)
    (by decide)
  exact ⟨st, cuts, hst, (hplaced [⟨true, true, _⟩] (by simp [ApplyEnv.GetsBack])).2⟩

/-- `qmv d`, run from the root, with the same two files. -/
theorem makePlanIn_allMoved_swap :
    let disk : Disk Nat Nat := (Table.empty.put (1, [97]) 1).put (1, [98]) 2
    let dirs : WorkDir Nat := ⟨[100], .none, 0⟩
    let h := (Heap.empty.newFileSpec ⟨[97], [98], none, none, .unchecked⟩).newFileSpec
      ⟨[98], [97], none, none, .unchecked⟩
    ∃ st, makePlan 10 .qmv (fileExistsIn rootAndChild disk dirs) [0, 1] h = some st ∧
      (st.plan.error = [] → AllMovedIn rootAndChild 1 [0, 1] h disk (applyPlanIn rootAndChild .qmv false
        ⟨true, true, fun _ => .done⟩ st.plan ⟨st.heap, [0, 1], dirs, disk⟩).state.disk) := by
  intro disk dirs h
  have hd : Works rootAndChild 1 [100] dirs := ⟨rfl, by decide⟩
  have hentries : Entries [0, 1] h := by
    unfold Entries
    decide
  have hP : ∀ p, disk p ≠ none → p ∈ [(1, [97]), (1, [98])] := by
    intro p hp
    simp only [disk, Table.put_apply, Table.empty] at hp
    split at hp
    · simp [*]
    · split at hp
      · simp [*]
      · exact absurd rfl hp
  obtain ⟨st, hst, _, hruns⟩ := makePlanIn_allMoved hd (hentries.below (by decide)) (by decide) (by decide) (by decide)
    (by decide) hP (show 2 + 2 < 10 by decide)
  obtain ⟨_, hmoved, hdone⟩ := hruns ⟨true, true, fun _ => .done⟩ (.inl rfl)
  refine ⟨st, hst, fun herror => hmoved herror (hdone rfl rfl (fun _ => rfl) fun n hn => ?_)⟩
  rw [hentries.locate hn]
  exact Option.some_ne_none _

end Renameutils
