import Renameutils.Display
import Renameutils.LsOutput
import Renameutils.EditRoundTrip
import Renameutils.PlanPossible

/-!
# Running without the command mode (`noncommandmode_run`, `qcmd.c`)

One run of `qmv FILE...`: the files are listed and edited, the plan is made, displayed and applied. The renames
are done all or none: none if they are not all `Possible`, and all if they are and nothing fails
(`noncommandmodeRun_allOrNone`). From what the user writes in the edit file to the files themselves:
`noncommandmodeRun_renames`.
-/

namespace Renameutils
open CString

/-- What happens during a run. -/
structure BatchEnv (δ : Type) where
  ls : ListEnv δ
  edit : EditEnv
  apply : ApplyEnv

/-- What a run returns and leaves; `planned` is the session in which it called `make_plan`, if it did, and
`displayed` is what `display_plan` printed. -/
structure BatchResult (φ δ : Type) where
  returned : Bool
  dirs : WorkDir δ
  session : Session φ
  planned : Option (Session φ) := none
  displayed : List DisplayLine := []
  launched : List (Launch φ) := []

section
variable {φ δ : Type}

/-- `none`: the reading of the edit file is undefined, the fuel of `make_plan` runs out, or `display_plan` finds
an internal error. -/
def noncommandmodeRun (setup : Setup) (o : LsOptions) (env : BatchEnv δ) (args : List CString) (w : WorkDir δ)
    (s : Session φ) : Option (BatchResult φ δ) :=
  let r := listFiles o env.ls args w s
  let dirs := r.dirs
  if !r.result then some { returned := true, dirs := dirs, session := r.session }
  else if r.session.workFiles = [] then -- no files matched
    some { returned := true, dirs := dirs, session := r.session }
  else do
    let d ← r.session.editFiles setup true false env.edit
    let s := d.session
    if !d.result then return { returned := false, dirs := dirs, session := s }
    let st ← makePlan env.edit.fuel setup.program s.fs.contains s.workFiles s.heap
    let displayed ← displayPlan setup.program st.heap st.plan
    let r : BatchResult φ δ :=
      { returned := true
        dirs := dirs
        session := { s with heap := st.heap, plan := some st.plan }
        planned := some s
        displayed := displayed }
    if st.plan.error ≠ [] then return { r with returned := false }
    if st.plan.ok = [] then return r
    let a := applyPlan setup.program s.simulate env.apply st.plan ⟨st.heap, s.workFiles, s.fs⟩
    return { r with
      returned := a.returned
      session :=
        { s with heap := a.state.heap, workFiles := a.state.workFiles, fs := a.state.fs, plan := some a.plan }
      launched := a.launched }

/-! ### The list and the edit of a run -/

/-- The files were just listed: their specs are new, and no other command has been given. -/
structure JustListed (fs : FileSys φ) (s : Session φ) : Prop where
  listed : ListedOnce s.workFiles s.heap
  fresh : ∀ t ∈ s.workFiles, s.heap.status t = .unchecked ∧ s.heap.prevSpec t = none ∧ s.heap.nextSpec t = none
  fs : s.fs = fs
  simulate : s.simulate = false
  acceptReedit : s.acceptReedit = false

section
variable {setup : Setup} {o : LsOptions} {env : ListEnv δ} {args : List CString} {w : WorkDir δ}
  {fs : FileSys φ} {format : EditFormat} {options : FormatOptions} {edit : EditEnv} {s : Session φ}
  {d : EditResult φ}

theorem justListed_listFiles :
    JustListed fs (listFiles o env args w (Session.initial fs false format options)).session := by
  obtain ⟨ls, hls⟩ := listFiles_session o env args w (Session.initial fs false format options)
  rw [hls]
  cases ls with
  | none => exact ⟨listedOnce_initial fs false format options, by simp [Session.initial, Session.listFiles], rfl,
      rfl, rfl⟩
  | some entries =>
    have load := loadFiles_loaded entries Table.empty
      (freeFiles (Session.initial fs false format options).workFiles
        (Session.initial fs false format options).heap)
    refine ⟨.of_loaded load, fun t ht => ?_, rfl, rfl, rfl⟩
    obtain ⟨_, hprev, hnext, hstatus⟩ := load.new t ht
    exact ⟨hstatus, hprev, hnext⟩

theorem resetStatus_unchecked {files : List SpecId} {h : Heap} {t : SpecId} (ht : h.status t = .unchecked) :
    (files.foldl (fun h t => h.setStatus t .unchecked) h).status t = .unchecked := by
  induction files generalizing h with
  | nil => exact ht
  | cons u files ih =>
    refine ih ?_
    show Function.update h.status u .unchecked t = .unchecked
    rw [Function.update_apply, ht, ite_self]

theorem JustListed.edited (l : JustListed fs s) (h : s.editFiles setup true false edit = some d)
    (hresult : d.result = true) : ListedOnce d.session.workFiles d.session.heap ∧
      (∀ t ∈ d.session.workFiles, d.session.heap.status t = .unchecked ∧ d.session.heap.prevSpec t = none ∧
        d.session.heap.nextSpec t = none) ∧ d.session.fs = fs ∧ d.session.simulate = false := by
  have f := editFiles_frame h
  refine ⟨l.listed.edit h, fun t ht => ?_, f.fs.trans l.fs, f.simulate.trans l.simulate⟩
  rw [f.workFiles] at ht
  rw [f.prevSpec, f.nextSpec]
  refine ⟨?_, (l.fresh t ht).2⟩
  obtain ⟨_, hd⟩ | ⟨s₁, hp, he⟩ := editFiles_run h
  · rw [hd] at hresult
    cases hresult
  · cases he with
    | unread => cases hresult
    | rejected names => cases hresult
    | accepted names =>
      have hstatus : s₁.heap.status t = .unchecked := by
        rw [hp.frame.2]
        exact (l.fresh t ht).1
      exact resetStatus_unchecked (h := (s₁.setNewNames (s₁.editSpecs.assign names)).heap) hstatus

theorem noncommandmodeRun_cases {r : BatchResult φ δ} {env : BatchEnv δ} {s : Session φ}
    (h : noncommandmodeRun setup o env args w s = some r) :
    (r.planned = none ∧ r.launched = [] ∧ r.session.fs = s.fs) ∨
    ∃ d st, (listFiles o env.ls args w s).session.editFiles setup true false env.edit = some d ∧
      d.result = true ∧ r.planned = some d.session ∧
      makePlan env.edit.fuel setup.program d.session.fs.contains d.session.workFiles d.session.heap = some st ∧
      let a := applyPlan setup.program d.session.simulate env.apply st.plan
        ⟨st.heap, d.session.workFiles, d.session.fs⟩
      if st.plan.error = [] then r.returned = a.returned ∧ r.launched = a.launched ∧ r.session.fs = a.state.fs
      else r.returned = false ∧ r.launched = [] ∧ r.session.fs = d.session.fs := by
  have hfs : (listFiles o env.ls args w s).session.fs = s.fs := by
    obtain ⟨ls, hls⟩ := listFiles_session o env.ls args w s
    rw [hls]
    cases ls <;> rfl
  unfold noncommandmodeRun at h
  dsimp only at h
  split at h
  · cases h
    exact .inl ⟨rfl, rfl, hfs⟩
  split at h
  · cases h
    exact .inl ⟨rfl, rfl, hfs⟩
  obtain ⟨d, hd, h⟩ := Option.bind_eq_some_iff.mp h
  split at h
  · cases h
    exact .inl ⟨rfl, rfl, (editFiles_frame hd).fs.trans hfs⟩
  rename_i hresult
  obtain ⟨st, hst, h⟩ := Option.bind_eq_some_iff.mp h
  obtain ⟨displayed, _, h⟩ := Option.bind_eq_some_iff.mp h
  refine .inr ⟨d, st, hd, by simpa using hresult, ?_, hst, ?_⟩
  · split at h <;> try split at h
    all_goals cases h; rfl
  · split at h
    · rename_i herror
      cases h
      rw [if_neg herror]
      exact ⟨rfl, rfl, rfl⟩
    · rename_i herror
      rw [if_pos (by simpa using herror)]
      split at h
      · rename_i hok
        cases h
        rw [applyPlan, if_pos hok]
        exact ⟨rfl, rfl, rfl⟩
      · cases h
        exact ⟨rfl, rfl, rfl⟩

/-- A run of `qmv` from its start. It launches no command whose destination exists; when the renames are not all
possible it launches none and the command mode is entered, and when they are it moves all files, unless a call
or a command fails. -/
theorem noncommandmodeRun_allOrNone {env : BatchEnv δ} {r : BatchResult φ δ} (hprogram : setup.program = .qmv)
    (h : noncommandmodeRun setup o env args w (Session.initial fs false format options) = some r) :
    (∀ l ∈ r.launched, l.fs.contains l.oldName = true ∧ l.fs.contains l.newName = false) ∧
    match r.planned with
    | none => r.launched = [] ∧ r.session.fs = fs
    | some s =>
      (¬ Possible fs.contains s.workFiles s.heap → r.returned = false ∧ r.launched = [] ∧ r.session.fs = fs) ∧
      (Possible fs.contains s.workFiles s.heap →
        (r.returned = true → AllMoved s.workFiles s.heap fs r.session.fs) ∧
        (env.apply.cwdTo = true → env.apply.cwdFrom = true → (∀ i, env.apply.outcome i = .done) →
          r.returned = true)) := by
  rcases noncommandmodeRun_cases h with ⟨hplanned, hlaunched, hfs⟩ | ⟨d, st, hd, hresult, hplanned, hst, hrun⟩
  · rw [hplanned, hlaunched]
    exact ⟨by simp, rfl, hfs⟩
  · obtain ⟨hlisted, hfresh, hfs, hsimulate⟩ := justListed_listFiles.edited hd hresult
    rw [hplanned]
    dsimp only at hrun ⊢
    rw [hprogram, hfs, hsimulate] at hrun
    rw [hprogram, hfs] at hst
    obtain ⟨herror, hlaunched, hmoved, hdone⟩ := makePlan_allMoved hst hlisted.nodup hlisted.lt hfresh hlisted.old_inj
      env.apply
    rw [← herror]
    split at hrun
    · rename_i hnil
      obtain ⟨h₁, h₂, h₃⟩ := hrun
      rw [h₁, h₂, h₃]
      exact ⟨hlaunched, fun hno => absurd hnil hno, fun _ => ⟨hmoved hnil, hdone⟩⟩
    · rename_i hne
      obtain ⟨h₁, h₂, h₃⟩ := hrun
      rw [h₂]
      exact ⟨by simp, fun _ => ⟨h₁, rfl, h₃⟩, fun hnil => absurd hnil hne⟩

/-! ### From the edit file to the files -/

/-- The calls of `edit_files` succeed. -/
structure EditEnv.Succeeds (env : EditEnv) : Prop where
  openWrite : env.openWrite = true
  closeWrite : env.closeWrite = true
  editor : env.editor = true
  openRead : env.openRead = true

/-- The specs with the new names that the user wants for them. -/
def Heap.renamed (h : Heap) (rename : CString → CString) : Heap :=
  { h with newName := fun t => rename (h.oldName t) }

/-- The text that `output` writes for the names, once the user has changed the new ones to what `rename` says. -/
def Session.editedText (isprint : UInt8 → Bool) (s : Session φ) (rename : CString → CString) : Option CString :=
  (s.format.output isprint s.options (s.heap.renamed rename) s.workFiles s.realWidth).map Prod.fst

theorem input_namePerLine (hformat : options.NamePerLine format) (realWidth realWidth' : Nat)
    (files : List SpecId) (file : TextFile) (specs : EditSpecs) :
    format.input options realWidth files file specs = format.input options realWidth' files file specs := by
  cases format with
  | dualColumn => exact hformat.elim
  | destinationOnly => rfl
  | singleColumn => rfl

theorem JustListed.editFiles (l : JustListed fs s) (hne : s.workFiles ≠ []) (hformat : s.options.NamePerLine s.format)
    (hprint : ∀ c, isControl c = true → setup.isprint c = false) {rename : CString → CString}
    (hold : ∀ t ∈ s.workFiles, 0 ∉ s.heap.oldName t)
    (hnew : ∀ t ∈ s.workFiles, 0 ∉ rename (s.heap.oldName t) ∧ rename (s.heap.oldName t) ≠ [])
    {text : CString} (htext : s.editedText setup.isprint rename = some text) (hfile : edit.file = textLines text)
    (hcalls : edit.Succeeds) : ∃ d, s.editFiles setup true false edit = some d ∧ d.result = true ∧
      d.session.workFiles = s.workFiles ∧ d.session.heap.oldName = s.heap.oldName ∧
      ∀ t ∈ s.workFiles, d.session.heap.newName t = rename (s.heap.oldName t) := by
  have hspecs : ∀ t ∈ s.workFiles, s.editSpecs.oldName t = (s.heap.renamed rename).oldName t := fun _ _ => rfl
  obtain ⟨text', realWidth', hout', specs', hin, _, _, hnames, _⟩ :=
    EditFormat.input_output hprint hformat (h := s.heap.renamed rename) hold hnew hspecs s.realWidth
  obtain rfl : text' = text := by
    rw [Session.editedText, hout'] at htext
    exact Option.some.inj htext
  obtain ⟨out, hout⟩ : ∃ out, s.format.output setup.isprint s.options s.heap s.workFiles s.realWidth = some out := by
    cases hf : s.format with
    | dualColumn => exact (hf ▸ hformat : s.options.NamePerLine .dualColumn).elim
    | destinationOnly => exact ⟨_, rfl⟩
    | singleColumn => exact ⟨_, rfl⟩
  let s₁ : Session φ := { s with
    acceptReedit := true
    editFileList := s.workFiles
    realWidth := out.2
    editFile := some ⟨s.format, s.options, out.2, s.workFiles, out.1⟩ }
  have hprepare : s.prepareEdit setup true false edit = some (s₁, true) := by
    simp only [Session.prepareEdit, Session.toEdit, l.acceptReedit, hne, hcalls.openWrite, hcalls.closeWrite, hout,
      Bool.false_and, Bool.false_eq_true, if_true, if_false, Bool.not_true, Option.bind_eq_bind, Option.bind_some]
    rfl
  have hinput : s₁.format.input s₁.options s₁.realWidth s₁.editFileList edit.file s₁.editSpecs =
      .returned true specs' := by
    rw [hfile, input_namePerLine hformat _ realWidth']
    exact hin
  have hread : s₁.readEdit edit = some ⟨(s₁.setNewNames specs').resetStatus, true, some s₁⟩ := by
    rw [Session.readEdit, hcalls.editor, hcalls.openRead, hinput]
    rfl
  have hedit : s.editFiles setup true false edit = some ⟨(s₁.setNewNames specs').resetStatus, true, some s₁⟩ := by
    rw [Session.editFiles, hprepare]
    exact hread
  have only := foldl_setStatus_only s₁.editFileList (s₁.setNewNames specs').heap .unchecked
  refine ⟨_, hedit, rfl, rfl, only.oldName, fun t ht => ?_⟩
  show (s₁.editFileList.foldl (fun h t => h.setStatus t .unchecked) (s₁.setNewNames specs').heap).newName t = _
  rw [only.newName]
  show (specs'.newName t).getD [] = _
  rw [hnames t ht]
  rfl

theorem noncommandmodeRun_planned {env : BatchEnv δ} {s₀ : Session φ} {st : PlanState} {displayed : List DisplayLine}
    (hlist : (listFiles o env.ls args w s₀).result = true)
    (hne : (listFiles o env.ls args w s₀).session.workFiles ≠ [])
    (hd : (listFiles o env.ls args w s₀).session.editFiles setup true false env.edit = some d)
    (hresult : d.result = true)
    (hst : makePlan env.edit.fuel setup.program d.session.fs.contains d.session.workFiles d.session.heap = some st)
    (hdisplayed : displayPlan setup.program st.heap st.plan = some displayed) (herror : st.plan.error = []) :
    let a := applyPlan setup.program d.session.simulate env.apply st.plan
      ⟨st.heap, d.session.workFiles, d.session.fs⟩
    ∃ r, noncommandmodeRun setup o env args w s₀ = some r ∧ r.returned = a.returned ∧
      r.session.fs = a.state.fs := by
  unfold noncommandmodeRun
  simp only [hlist, hne, hd, hresult, hst, hdisplayed, herror, Bool.not_true, Bool.false_eq_true, if_false,
    Option.bind_eq_bind, Option.bind_some, ne_eq, not_true_eq_false]
  split
  · rename_i hok
    rw [applyPlan, if_pos hok]
    exact ⟨_, rfl, rfl, rfl⟩
  · exact ⟨_, rfl, rfl, rfl⟩

/-- The user gives the listed files other names, in a format with a line for each: any names that no other file
has, so that files may also exchange theirs. Then the files have these names when the run ends. -/
theorem noncommandmodeRun_renames {env : BatchEnv δ} (hprogram : setup.program = .qmv)
    (hprint : ∀ c, isControl c = true → setup.isprint c = false) (hformat : options.NamePerLine format)
    {F : List CString} (hF : ∀ n, fs.contains n = true → n ∈ F) {names : List CString} {rename : CString → CString}
    (hlist : (listFiles o env.ls args w (Session.initial fs false format options)).result = true)
    (hlisted : (listFiles o env.ls args w (Session.initial fs false format options)).session = s)
    (hnames : names = s.workFiles.map s.heap.oldName)
    (hold : ∀ n ∈ names, 0 ∉ n ∧ fs.contains n = true)
    (hnew : ∀ n ∈ names, 0 ∉ rename n ∧ rename n ≠ [] ∧ (fs.contains (rename n) = true → rename n ∈ names))
    (hinj : ∀ m ∈ names, ∀ n ∈ names, rename m = rename n → m = n)
    {text : CString} (htext : s.editedText setup.isprint rename = some text) (hfile : env.edit.file = textLines text)
    (hcalls : env.edit.Succeeds) (hfuel : F.length + names.length < env.edit.fuel)
    (hto : env.apply.cwdTo = true) (hfrom : env.apply.cwdFrom = true) (hdone : ∀ i, env.apply.outcome i = .done) :
    ∃ r, noncommandmodeRun setup o env args w (Session.initial fs false format options) = some r ∧
      r.returned = true ∧ ∃ ρ, Table.Renames ρ fs r.session.fs ∧ (∀ n ∈ names, ρ n = rename n) ∧
        ∀ n, n ∉ names → ρ n = n := by
  have hmem : ∀ t ∈ s.workFiles, s.heap.oldName t ∈ names := fun t ht => hnames ▸ List.mem_map_of_mem ht
  have hlength : names.length = s.workFiles.length := by rw [hnames, List.length_map]
  have l : JustListed fs s := hlisted ▸ justListed_listFiles
  by_cases hne : s.workFiles = []
  · obtain rfl : names = [] := by rw [hnames, hne, List.map_nil]
    have hrun : noncommandmodeRun setup o env args w (Session.initial fs false format options) = some
        { returned := true
          dirs := (listFiles o env.ls args w (Session.initial fs false format options)).dirs
          session := s } := by
      simp only [noncommandmodeRun, hlist, hlisted, hne, Bool.not_true, Bool.false_eq_true, if_false, if_true]
    refine ⟨_, hrun, rfl, id, ?_, by simp, fun _ _ => rfl⟩
    show Table.Renames id fs s.fs
    rw [l.fs]
    exact ⟨Set.bijOn_id _, fun _ _ => rfl⟩
  obtain ⟨hsformat, hsoptions⟩ : s.format = format ∧ s.options = options := by
    obtain ⟨ls, hls⟩ := listFiles_session o env.ls args w (Session.initial fs false format options)
    rw [← hlisted, hls]
    cases ls <;> exact ⟨rfl, rfl⟩
  obtain ⟨d, hd, hresult, hW, hdold, hdnew⟩ := l.editFiles hne (by rw [hsformat, hsoptions]; exact hformat) hprint
    (fun t ht => (hold _ (hmem t ht)).1)
    (fun t ht => ⟨(hnew _ (hmem t ht)).1, (hnew _ (hmem t ht)).2.1⟩) htext hfile hcalls
  obtain ⟨hdlisted, hfresh, hfs, hsimulate⟩ := l.edited hd hresult
  have hfuel' : F.length + d.session.workFiles.length < env.edit.fuel := by rw [hW]; omega
  obtain ⟨st, hst⟩ := Option.isSome_iff_exists.mp (makePlan_isSome hdlisted.lt .qmv hF hfuel')
  have hdnew' : ∀ t ∈ d.session.workFiles, d.session.heap.oldName t ∈ names ∧
      d.session.heap.newName t = rename (d.session.heap.oldName t) := by
    intro t ht
    rw [hW] at ht
    rw [hdold]
    exact ⟨hmem t ht, hdnew t ht⟩
  have hpossible : Possible fs.contains d.session.workFiles d.session.heap := by
    refine ⟨fun t ht u hu heq => ?_, fun t ht => (hold _ (hdnew' t ht).1).2, fun t ht htaken => ?_⟩
    · rw [(hdnew' t ht).2, (hdnew' u hu).2] at heq
      exact hdlisted.old_inj t ht u hu (hinj _ (hdnew' t ht).1 _ (hdnew' u hu).1 heq)
    · rw [(hdnew' t ht).2] at htaken ⊢
      have hin := (hnew _ (hdnew' t ht).1).2.2 htaken
      rw [hnames, ← hdold, ← hW] at hin
      exact List.mem_map.mp hin
  obtain ⟨herror, _, hmoved, hreturns⟩ := makePlan_allMoved hst hdlisted.nodup hdlisted.lt hfresh hdlisted.old_inj
    env.apply
  have hnil := herror.mpr hpossible
  obtain ⟨_, _, f, _⟩ := makePlan_filed hdlisted.nodup hdlisted.lt hst
  obtain ⟨displayed, hdisplayed⟩ := Option.isSome_iff_exists.mp
    (displayPlan_isSome .qmv (fun s hs => ((f.error_iff s).mp hs).2) (fun s hs => f.isOk_of_mem hs))
  rw [← hprogram, ← hfs] at hst
  rw [← hprogram] at hdisplayed
  obtain ⟨r, hrun, hreturned, hrfs⟩ := noncommandmodeRun_planned hlist (by rwa [hlisted]) (by rwa [hlisted]) hresult hst
    hdisplayed hnil
  rw [hprogram, hsimulate, hfs] at hreturned hrfs
  have hreturned := hreturned.trans (hreturns hto hfrom hdone)
  obtain ⟨ρ, hren, hρ, hother⟩ := hmoved hnil (hreturns hto hfrom hdone)
  refine ⟨r, hrun, hreturned, ρ, hrfs ▸ hren, fun n hn => ?_, fun n hn => hother n fun t ht heq => ?_⟩
  · rw [hnames, ← hdold, ← hW] at hn
    obtain ⟨t, ht, rfl⟩ := List.mem_map.mp hn
    rw [hρ t ht, (hdnew' t ht).2]
  · exact hn (heq ▸ (hdnew' t ht).1)

end

/-- The renames that `noncommandmodeRun_allOrNone` finds impossible: one of the two files is to have the name of
a third that is not listed. -/
theorem noncommandmodeRun_allOrNone_taken :
    let fs : FileSys Nat := ((Table.empty.put [97] 1).put [98] 2).put [99] 3
    let env : BatchEnv Unit :=
      { ls := { isDirectory := fun _ => false, chdir := none, lines := [.entry [97], .entry [98]] }
        edit := { file := textLines [120, 10, 99, 10], fuel := 10 }
        apply := { outcome := fun _ => .done } }
    ∃ r s, noncommandmodeRun (asciiSetup .qmv) ⟨[108, 115], [], false⟩ env [] ⟨dot, .none, ()⟩
        (Session.initial fs false .destinationOnly {}) = some r ∧ r.planned = some s ∧
      (¬ Possible fs.contains s.workFiles s.heap → r.returned = false ∧ r.launched = [] ∧ r.session.fs = fs) := by
  intro fs env
  have hrun : ((noncommandmodeRun (asciiSetup .qmv) ⟨[108, 115], [], false⟩ env [] ⟨dot, .none, ()⟩
      (Session.initial fs false .destinationOnly {})).any fun r => r.planned.isSome) = true := by
    decide +kernel
  obtain ⟨r, hr, hplanned⟩ := (Option.any_eq_true _ _).mp hrun
  obtain ⟨s, hs⟩ := Option.isSome_iff_exists.mp hplanned
  have hall := (noncommandmodeRun_allOrNone rfl hr).2
  rw [hs] at hall
  exact ⟨r, s, hr, hs, hall.1⟩

/-- Two files exchange their names. -/
theorem noncommandmodeRun_renames_swap :
    let fs : FileSys Nat := (Table.empty.put [97] 1).put [98] 2
    let env : BatchEnv Unit :=
      { ls := { isDirectory := fun _ => false, chdir := none, lines := [.entry [97], .entry [98]] }
        edit := { file := textLines [98, 10, 97, 10], fuel := 10 }
        apply := { outcome := fun _ => .done } }
    ∃ r, noncommandmodeRun (asciiSetup .qmv) ⟨[108, 115], [], false⟩ env [] ⟨dot, .none, ()⟩
        (Session.initial fs false .destinationOnly {}) = some r ∧ r.returned = true := by
  intro fs env
  have hF : ∀ n, fs.contains n = true → n ∈ [[97], [98]] := by
    intro n hn
    simp only [fs, Table.contains, Table.put_apply, Table.empty] at hn
    split at hn
    · simp [*]
    · split at hn
      · simp [*]
      · cases hn
  let rename : CString → CString := fun n => if n = [97] then [98] else [97]
  have hformat : ({} : FormatOptions).NamePerLine .destinationOnly := trivial
  have hlist : (listFiles ⟨[108, 115], [], false⟩ env.ls [] ⟨dot, .none, ()⟩
      (Session.initial fs false .destinationOnly {})).result = true := by
    decide
  have htext : Session.editedText (asciiSetup .qmv).isprint (listed fs [[97], [98]]) rename =
      some [98, 10, 97, 10] := by
    decide
  have hnames : [[97], [98]] = (listed fs [[97], [98]]).workFiles.map (listed fs [[97], [98]]).heap.oldName := by
    decide
  obtain ⟨r, hr, hreturned, _⟩ := noncommandmodeRun_renames rfl printsAscii.control hformat hF hlist rfl hnames
    (by decide) (by decide) (by decide) htext rfl ⟨rfl, rfl, rfl, rfl⟩ (by decide) rfl rfl fun _ => rfl
  exact ⟨r, hr, hreturned⟩

end

end Renameutils
