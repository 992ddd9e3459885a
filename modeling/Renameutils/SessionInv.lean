import Renameutils.ApplyInv
import Renameutils.EditRejected
import Renameutils.PlanModes
import Renameutils.Session

/-!
# What a command does to the session

`loadFiles_loaded` says what the specs of a new list are, `editFiles_run` what `edit_files` can do.
`ListedOnce`: the specs in `work_files` are distinct and have distinct old names; every command keeps
that.
-/

namespace Renameutils

/-! ### Freeing specs -/

/-- `h'` differs from `h` at most in the links. -/
structure LinksOnly (h h' : Heap) : Prop where
  oldName : h'.oldName = h.oldName
  newName : h'.newName = h.newName
  status : h'.status = h.status
  fresh : h'.fresh = h.fresh

theorem LinksOnly.refl (h : Heap) : LinksOnly h h := ⟨rfl, rfl, rfl, rfl⟩

theorem LinksOnly.trans {h h' h'' : Heap} (a : LinksOnly h h') (b : LinksOnly h' h'') : LinksOnly h h'' :=
  ⟨b.oldName.trans a.oldName, b.newName.trans a.newName, b.status.trans a.status, b.fresh.trans a.fresh⟩

theorem linksOnly_freeFileSpec (h : Heap) (s : SpecId) : LinksOnly h (h.freeFileSpec s) := by
  unfold Heap.freeFileSpec
  cases h.prevSpec s with
  | none => dsimp only; split <;> exact ⟨rfl, rfl, rfl, rfl⟩
  | some p => dsimp only; split <;> exact ⟨rfl, rfl, rfl, rfl⟩

theorem linksOnly_freeFiles (files : List SpecId) (h : Heap) : LinksOnly h (freeFiles files h) := by
  induction files generalizing h with
  | nil => exact .refl h
  | cons s files ih => exact (linksOnly_freeFileSpec h s).trans (ih _)

/-! ### New lists -/

/-- The specs `files` that are loaded when those in `seen` were loaded before. -/
structure Loaded (h : Heap) (seen : Table CString SpecId) (h' : Heap) (files : List SpecId) : Prop where
  fresh : h.fresh ≤ h'.fresh
  spec : ∀ t < h.fresh, h'.spec t = h.spec t
  bounds : ∀ t ∈ files, h.fresh ≤ t ∧ t < h'.fresh
  nodup : files.Nodup
  new : ∀ t ∈ files, h'.newName t = h'.oldName t ∧ h'.prevSpec t = none ∧ h'.nextSpec t = none ∧
    h'.status t = .unchecked
  unseen : ∀ t ∈ files, seen (h'.oldName t) = none
  old_inj : ∀ s ∈ files, ∀ t ∈ files, h'.oldName s = h'.oldName t → s = t

theorem spec_newFileSpec_ne (h : Heap) (f : FileSpec) {t : SpecId} (ht : t ≠ h.fresh) :
    (h.newFileSpec f).spec t = h.spec t := by
  simp only [Heap.spec, Heap.newFileSpec, Function.update_of_ne ht]

theorem spec_newFileSpec_self (h : Heap) (f : FileSpec) : (h.newFileSpec f).spec h.fresh = f := by
  simp only [Heap.spec, Heap.newFileSpec, Function.update_self]

namespace Loaded
variable {h h' : Heap} {seen : Table CString SpecId} {files : List SpecId} {n : CString} {f : FileSpec}

theorem skip (l : Loaded (h.newFileSpec f) seen h' files) : Loaded h seen h' files where
  fresh := Nat.le_of_succ_le l.fresh
  spec t ht := by rw [l.spec t (Nat.lt_succ_of_lt ht), spec_newFileSpec_ne _ _ (Nat.ne_of_lt ht)]
  bounds t ht := ⟨Nat.le_of_succ_le (l.bounds t ht).1, (l.bounds t ht).2⟩
  nodup := l.nodup
  new := l.new
  unseen := l.unseen
  old_inj := l.old_inj

theorem cons (l : Loaded (h.newFileSpec ⟨n, n, none, none, .unchecked⟩) (seen.put n h.fresh) h' files)
    (hseen : seen n = none) : Loaded h seen h' (h.fresh :: files) := by
  have hself : h'.spec h.fresh = ⟨n, n, none, none, .unchecked⟩ :=
    (l.spec h.fresh (Nat.lt_succ_self _)).trans (spec_newFileSpec_self h _)
  have hold : h'.oldName h.fresh = n := congrArg FileSpec.oldName hself
  have hne : ∀ t ∈ files, h'.oldName t ≠ n := by
    intro t ht heq
    have := l.unseen t ht
    rw [heq, Table.put_same] at this
    cases this
  refine ⟨l.skip.fresh, l.skip.spec, ?_, ?_, ?_, ?_, ?_⟩
  · rintro t (_ | ⟨_, ht⟩)
    · exact ⟨Nat.le_refl _, Nat.lt_of_lt_of_le (Nat.lt_succ_self _) l.fresh⟩
    · exact l.skip.bounds t ht
  · exact List.nodup_cons.mpr ⟨fun hmem => Nat.not_succ_le_self _ (l.bounds _ hmem).1, l.nodup⟩
  · rintro t (_ | ⟨_, ht⟩)
    · exact ⟨(congrArg FileSpec.newName hself).trans hold.symm, congrArg FileSpec.prevSpec hself,
        congrArg FileSpec.nextSpec hself, congrArg FileSpec.status hself⟩
    · exact l.new t ht
  · rintro t (_ | ⟨_, ht⟩)
    · rw [hold, hseen]
    · rw [← Table.put_ne seen h.fresh (hne t ht), l.unseen t ht]
  · rintro s (_ | ⟨_, hs⟩) t (_ | ⟨_, ht⟩) heq
    · rfl
    · exact absurd (heq.symm.trans hold) (hne t ht)
    · exact absurd (heq.trans hold) (hne s hs)
    · exact l.old_inj s hs t ht heq

end Loaded

theorem loadFiles_loaded (entries : List (CString × CString)) (seen : Table CString SpecId) (h : Heap) :
    Loaded h seen (loadFiles entries seen h).1 (loadFiles entries seen h).2 := by
  induction entries generalizing seen h with
  | nil => constructor <;> simp [loadFiles]
  | cons entry rest ih =>
    obtain ⟨dir, name⟩ := entry
    rw [loadFiles]
    split
    · exact ih seen h
    · dsimp only
      split
      · exact (ih seen _).skip
      · rename_i hseen
        exact (ih _ _).cons (by simpa [Table.contains] using hseen)

/-! ### What `edit_files` can do -/

section
variable {φ : Type}

/-- What `edit_files` does before the editor is started: it takes up the last edit, or it writes the edit
file, or it has nothing to edit. -/
inductive Prepares (all : Bool) (s : Session φ) : Session φ → Bool → Prop
  | again (h : s.acceptReedit = true) : Prepares all s s true
  | written (hne : s.toEdit all ≠ []) (realWidth : Nat) (text : CString) :
    Prepares all s { s with
      acceptReedit := true
      editFileList := s.toEdit all
      realWidth := realWidth
      editFile := some ⟨s.format, s.options, realWidth, s.toEdit all, text⟩ } true
  | failed (realWidth : Nat) (editFile : Option EditFile) :
    Prepares all s { s with
      acceptReedit := false
      editFileList := []
      realWidth := realWidth
      editFile := editFile } false

theorem prepareEdit_prepares {setup : Setup} {all force : Bool} {env : EditEnv} {s s₁ : Session φ}
    {ready : Bool} (h : s.prepareEdit setup all force env = some (s₁, ready)) :
    Prepares all s s₁ ready := by
  unfold Session.prepareEdit at h
  split at h
  · rename_i hre
    cases h
    exact .again (Bool.and_eq_true_iff.mp hre).1
  dsimp only at h
  split at h
  · rename_i hnil
    cases h
    rw [hnil]
    exact .failed s.realWidth s.editFile
  rename_i hne
  split at h
  · cases h
    exact .failed s.realWidth s.editFile
  obtain ⟨⟨text, realWidth⟩, _, h⟩ := Option.bind_eq_some_iff.mp h
  dsimp only at h
  split at h
  · cases h
    exact .failed _ _
  · cases h
    exact .written hne realWidth text

/-- What the editing of the file can do: nothing, or the text is rejected, or it is accepted. -/
inductive Edited (file : TextFile) (s : Session φ) : EditResult φ → Prop
  | unread : Edited file s ⟨s, false, none⟩
  | rejected (names : List (SpecId × Option CString))
    (h : s.format.readNames s.options s.realWidth s.editFileList file s.heap.oldName = (names, some false)) :
    Edited file s ⟨s.setNewNames (s.editSpecs.assign names), false, some s⟩
  | accepted (names : List (SpecId × Option CString))
    (h : s.format.readNames s.options s.realWidth s.editFileList file s.heap.oldName = (names, some true)) :
    Edited file s ⟨(s.setNewNames (s.editSpecs.assign names)).resetStatus, true, some s⟩

theorem readEdit_edited {env : EditEnv} {s : Session φ} {r : EditResult φ} (h : s.readEdit env = some r) :
    Edited env.file s r := by
  unfold Session.readEdit at h
  split at h
  · cases h
    exact .unread
  rw [EditFormat.input_eq] at h
  cases hr : s.format.readNames s.options s.realWidth s.editFileList env.file s.heap.oldName with
  | mk names result =>
    rw [show s.editSpecs.oldName = s.heap.oldName from rfl, hr] at h
    cases result with
    | none => cases h
    | some result =>
      cases result <;> cases h
      · exact .rejected names hr
      · exact .accepted names hr

theorem editFiles_run {setup : Setup} {all force : Bool} {env : EditEnv} {s : Session φ} {r : EditResult φ}
    (h : s.editFiles setup all force env = some r) :
    (Prepares all s r.session false ∧ r = ⟨r.session, false, none⟩) ∨
      ∃ s₁, Prepares all s s₁ true ∧ Edited env.file s₁ r := by
  obtain ⟨⟨s₁, ready⟩, hp, h⟩ := Option.bind_eq_some_iff.mp h
  cases ready with
  | false =>
    cases h
    exact .inl ⟨prepareEdit_prepares hp, rfl⟩
  | true => exact .inr ⟨s₁, prepareEdit_prepares hp, readEdit_edited h⟩

/-- What `edit_files` leaves as it is. -/
structure EditFrame (s s' : Session φ) : Prop where
  workFiles : s'.workFiles = s.workFiles
  plan : s'.plan = s.plan
  fs : s'.fs = s.fs
  simulate : s'.simulate = s.simulate
  format : s'.format = s.format
  options : s'.options = s.options
  indicatorsLent : s'.indicatorsLent = s.indicatorsLent
  oldName : s'.heap.oldName = s.heap.oldName
  prevSpec : s'.heap.prevSpec = s.heap.prevSpec
  nextSpec : s'.heap.nextSpec = s.heap.nextSpec
  fresh : s'.heap.fresh = s.heap.fresh

theorem foldl_setStatus_only (l : List SpecId) (h : Heap) (x : FileSpecStatus) :
    StatusOnly h (l.foldl (fun h t => h.setStatus t x) h) := by
  induction l generalizing h with
  | nil => exact .refl h
  | cons t l ih => exact ((StatusOnly.refl h).setStatus t x).trans (ih _)

theorem Prepares.frame {all ready : Bool} {s s₁ : Session φ} (h : Prepares all s s₁ ready) :
    EditFrame s s₁ ∧ s₁.heap = s.heap := by
  cases h <;> exact ⟨⟨rfl, rfl, rfl, rfl, rfl, rfl, rfl, rfl, rfl, rfl, rfl⟩, rfl⟩

theorem Edited.frame {file : TextFile} {s : Session φ} {r : EditResult φ} (h : Edited file s r) :
    EditFrame s r.session := by
  cases h with
  | unread => exact ⟨rfl, rfl, rfl, rfl, rfl, rfl, rfl, rfl, rfl, rfl, rfl⟩
  | rejected names => exact ⟨rfl, rfl, rfl, rfl, rfl, rfl, rfl, rfl, rfl, rfl, rfl⟩
  | accepted names =>
    have only := foldl_setStatus_only s.editFileList (s.setNewNames (s.editSpecs.assign names)).heap .unchecked
    exact ⟨rfl, rfl, rfl, rfl, rfl, rfl, rfl, only.oldName, only.prevSpec, only.nextSpec, only.fresh⟩

theorem EditFrame.trans {s s₁ s₂ : Session φ} (a : EditFrame s s₁) (b : EditFrame s₁ s₂) : EditFrame s s₂ :=
  ⟨b.workFiles.trans a.workFiles, b.plan.trans a.plan, b.fs.trans a.fs, b.simulate.trans a.simulate,
    b.format.trans a.format, b.options.trans a.options, b.indicatorsLent.trans a.indicatorsLent,
    b.oldName.trans a.oldName,
    b.prevSpec.trans a.prevSpec, b.nextSpec.trans a.nextSpec, b.fresh.trans a.fresh⟩

theorem editFiles_frame {setup : Setup} {all force : Bool} {env : EditEnv} {s : Session φ}
    {r : EditResult φ} (h : s.editFiles setup all force env = some r) : EditFrame s r.session := by
  rcases editFiles_run h with ⟨hp, _⟩ | ⟨s₁, hp, he⟩
  · exact hp.frame.1
  · exact hp.frame.1.trans he.frame

/-! ### Steps -/

theorem editCommand_run {setup : Setup} {all : Bool} {env : EditEnv} {s : Session φ} {r : StepResult φ}
    (h : s.editCommand setup all env = some r) :
    r.launched = [] ∧ (r = { session := s } ∨ ∃ d, s.editFiles setup all false env = some d ∧ r.read = d.read ∧
      ((d.result = false ∧ r.session = d.session ∧ r.made = none) ∨
        (d.result = true ∧ ∃ st, makePlan env.fuel setup.program d.session.fs.contains d.session.workFiles
          d.session.heap = some st ∧ r.made = some st ∧
          r.session = { d.session with heap := st.heap, plan := some st.plan }))) := by
  unfold Session.editCommand at h
  split at h
  · cases h
    exact ⟨rfl, .inl rfl⟩
  obtain ⟨d, hd, h⟩ := Option.bind_eq_some_iff.mp h
  dsimp only at h
  split at h
  · rename_i hres
    obtain ⟨st, hst, h⟩ := Option.bind_eq_some_iff.mp h
    cases h
    exact ⟨rfl, .inr ⟨d, hd, rfl, .inr ⟨hres, st, hst, rfl, rfl⟩⟩⟩
  · rename_i hres
    cases h
    exact ⟨rfl, .inr ⟨d, hd, rfl, .inl ⟨by simpa using hres, rfl, rfl⟩⟩⟩

end

theorem step_options {φ : Type} {setup : Setup} {t : Session φ} {e : Event} {r : StepResult φ}
    (h : t.step setup e = some r) :
    (r.session.options = t.options ∧ r.session.indicatorsLent = t.indicatorsLent) ∨
      ∃ new indicator, e = .setOptions new indicator ∧ r.session.options = t.options.parsed new t.format ∧
        r.session.indicatorsLent = Function.update t.indicatorsLent t.format indicator := by
  cases e with
  | list ls => cases h; cases ls <;> exact Or.inl ⟨rfl, rfl⟩
  | importFile file =>
    cases h
    rcases file with _ | ⟨lines, _ | _⟩
    · exact Or.inl ⟨rfl, rfl⟩
    · exact Or.inl ⟨rfl, rfl⟩
    · exact Or.inl ⟨rfl, rfl⟩
  | edit all env =>
    obtain ⟨_, rfl | ⟨d, hd, _, ⟨_, hs, _⟩ | ⟨_, st, _, _, hs⟩⟩⟩ := editCommand_run h
    · exact Or.inl ⟨rfl, rfl⟩
    · exact Or.inl (hs ▸ ⟨(editFiles_frame hd).options, (editFiles_frame hd).indicatorsLent⟩)
    · exact Or.inl (hs ▸ ⟨(editFiles_frame hd).options, (editFiles_frame hd).indicatorsLent⟩)
  | plan => cases h; exact Or.inl ⟨rfl, rfl⟩
  | apply env =>
    cases h
    unfold Session.applyCommand
    split
    · exact Or.inl ⟨rfl, rfl⟩
    · exact Or.inl ⟨rfl, rfl⟩
  | setFormat format => cases h; exact Or.inl ⟨rfl, rfl⟩
  | setOptions options indicator => cases h; exact Or.inr ⟨options, indicator, rfl, rfl, rfl⟩
  | setSimulate simulate => cases h; exact Or.inl ⟨rfl, rfl⟩

/-- The listed specs exist and are distinct, also by their old names. -/
structure ListedOnce (W : List SpecId) (h : Heap) : Prop where
  nodup : W.Nodup
  lt : ∀ t ∈ W, t < h.fresh
  old_inj : ∀ s ∈ W, ∀ t ∈ W, h.oldName s = h.oldName t → s = t

namespace ListedOnce
variable {W W' : List SpecId} {h h' : Heap}

theorem mono (l : ListedOnce W h) (hsub : W'.Sublist W) (hold : ∀ t ∈ W, h'.oldName t = h.oldName t)
    (hfresh : h.fresh ≤ h'.fresh) : ListedOnce W' h' where
  nodup := l.nodup.sublist hsub
  lt t ht := Nat.lt_of_lt_of_le (l.lt t (hsub.subset ht)) hfresh
  old_inj s hs t ht heq := by
    rw [hold s (hsub.subset hs), hold t (hsub.subset ht)] at heq
    exact l.old_inj s (hsub.subset hs) t (hsub.subset ht) heq

theorem links (l : ListedOnce W h) (k : LinksOnly h h') : ListedOnce W h' :=
  l.mono (List.Sublist.refl _) (fun _ _ => congrFun k.oldName _) k.fresh.ge

theorem of_loaded {seen : Table CString SpecId} (l : Loaded h seen h' W) : ListedOnce W h' where
  nodup := l.nodup
  lt t ht := (l.bounds t ht).2
  old_inj := l.old_inj

variable {φ : Type} {setup : Setup} {s : Session φ} {e : Event} {r : StepResult φ}

theorem edit (l : ListedOnce s.workFiles s.heap) {all force : Bool} {env : EditEnv} {d : EditResult φ}
    (h : s.editFiles setup all force env = some d) : ListedOnce d.session.workFiles d.session.heap := by
  have f := editFiles_frame h
  rw [f.workFiles]
  exact l.mono (List.Sublist.refl _) (fun _ _ => congrFun f.oldName _) f.fresh.ge

theorem applyPlan (program : Program) (simulate : Bool) (env : ApplyEnv) (plan : ApplyPlan) {w : ApplyState φ}
    (l : ListedOnce w.workFiles w.heap) :
    ListedOnce (applyPlan program simulate env plan w).state.workFiles
      (applyPlan program simulate env plan w).state.heap := by
  refine (applyPlan_rule (I := fun _ w => ListedOnce w.workFiles w.heap) (P := fun _ => True)
    (fun kept t rest w fs l _ _ _ => ?_) (fun _ _ _ _ _ _ _ _ => trivial) env l).1
  exact (l.links (linksOnly_freeFileSpec w.heap t)).mono List.erase_sublist (fun _ _ => rfl) (Nat.le_refl _)

theorem step (l : ListedOnce s.workFiles s.heap) (h : s.step setup e = some r) :
    ListedOnce r.session.workFiles r.session.heap := by
  cases e with
  | list ls =>
    cases h
    cases ls with
    | none => exact l
    | some entries => exact of_loaded (loadFiles_loaded entries Table.empty _)
  | importFile file =>
    cases h
    cases file with
    | none => exact l
    | some file =>
      obtain ⟨lines, ferror⟩ := file
      have load := loadFiles_loaded (lines.map ([], ·)) Table.empty s.heap
      cases ferror with
      | true =>
        refine ListedOnce.links (l.mono (List.Sublist.refl _) (fun t ht => ?_) load.fresh)
          (linksOnly_freeFiles _ _)
        exact congrArg FileSpec.oldName (load.spec t (l.lt t ht))
      | false => exact (of_loaded load).links (linksOnly_freeFiles _ _)
  | edit all env =>
    obtain ⟨_, rfl | ⟨d, hd, _, ⟨_, hs, _⟩ | ⟨_, st, hst, _, hs⟩⟩⟩ := editCommand_run h
    · exact l
    · rw [hs]; exact l.edit hd
    · have l' := l.edit hd
      obtain ⟨hfresh, hnames⟩ := makePlan_frame l'.nodup l'.lt hst
      rw [hs]
      exact l'.mono (List.Sublist.refl _) (fun t ht => (hnames t (l'.lt t ht)).1) hfresh
  | plan => cases h; exact l
  | apply env =>
    cases h
    unfold Session.applyCommand
    split
    · exact l
    · exact ListedOnce.applyPlan setup.program s.simulate env _ l
  | setFormat _ => cases h; exact l
  | setOptions _ _ => cases h; exact l
  | setSimulate _ => cases h; exact l

end ListedOnce

/-- The session when the program starts, with any files and settings. -/
def Session.initial {φ : Type} (fs : FileSys φ) (simulate : Bool) (format : EditFormat)
    (options : FormatOptions) : Session φ :=
  { fs := fs, simulate := simulate, format := format, options := options }

theorem listedOnce_initial {φ : Type} (fs : FileSys φ) (simulate : Bool) (format : EditFormat)
    (options : FormatOptions) : ListedOnce (Session.initial fs simulate format options).workFiles
      (Session.initial fs simulate format options).heap := by
  constructor <;> simp [Session.initial]

/-- What each command keeps, a session keeps. -/
theorem runs_invariant {φ : Type} {setup : Setup} {ok : Session φ → Event → Prop} {I : Session φ → Prop}
    {es : List Event} {s₀ s : Session φ} (h : Runs (Session.next setup) ok s₀ es s)
    (hstep : ∀ s e r, I s → ok s e → s.step setup e = some r → I r.session) (hs : I s₀) : I s := by
  refine h.invariant (fun s e s' hs hok hnext => ?_) hs
  obtain ⟨r, hr, rfl⟩ := Option.map_eq_some_iff.mp hnext
  exact hstep s e r hs hok hr

theorem listedOnce_runs {φ : Type} {setup : Setup} {ok : Session φ → Event → Prop} {fs : FileSys φ}
    {simulate : Bool} {format : EditFormat} {options : FormatOptions} {es : List Event} {s : Session φ}
    (h : Runs (Session.next setup) ok (.initial fs simulate format options) es s) :
    ListedOnce s.workFiles s.heap := by
  exact runs_invariant (I := fun s => ListedOnce s.workFiles s.heap) h (fun _ _ _ l _ hr => l.step hr)
    (listedOnce_initial fs simulate format options)

/-! ### Sessions to compute -/

/-- An edit that leaves these lines in the file. -/
def editEnv (lines : List CString) : EditEnv :=
  { file := lines.map fun line => .line (line ++ [CString.newline]), fuel := 10 }

/-- An edit whose text has these lines. -/
def editLines (all : Bool) (lines : List CString) : Event := .edit all (editEnv lines)

/-- A locale in which ASCII can be printed. -/
def asciiSetup (program : Program) : Setup := ⟨program, fun c => 32 ≤ c && c < 127⟩

/-- A session in which files were just listed. -/
def listed (fs : FileSys Nat) (names : List CString) : Session Nat :=
  (Session.initial fs false .destinationOnly {}).listFiles (some (names.map ([], ·)))

theorem exists_run {φ : Type} (setup : Setup) (s₀ : Session φ) (es : List Event) (e : Event)
    (ok : Session φ → Event → Prop) (p : StepResult φ → Bool) (hok : ∀ e ∈ es, ∀ s, ok s e)
    (h : ((es.foldlM (Session.next setup) s₀).bind (·.step setup e)).any p = true) :
    ∃ s r, Runs (Session.next setup) ok s₀ es s ∧ s.step setup e = some r ∧ p r = true := by
  obtain ⟨r, hr, hp⟩ := (Option.any_eq_true _ _).mp h
  obtain ⟨s, hs, hr⟩ := Option.bind_eq_some_iff.mp hr
  exact ⟨s, r, .of_foldlM hok hs, hr, hp⟩

theorem runs_listed {setup : Setup} {ok : Session Nat → Event → Prop} {fs : FileSys Nat}
    {names : List CString} {es : List Event} {s : Session Nat}
    (hok : ok (.initial fs false .destinationOnly {}) (.list (some (names.map ([], ·)))))
    (h : Runs (Session.next setup) ok (listed fs names) es s) :
    Runs (Session.next setup) ok (.initial fs false .destinationOnly {})
      (.list (some (names.map ([], ·))) :: es) s := by
  refine .cons hok ?_ h
  simp only [Session.next, Session.step, Option.map_some, listed]

/-- A spec as it is when it was just listed. -/
def isFresh (h : Heap) (t : SpecId) : Bool :=
  h.status t = .unchecked ∧ h.prevSpec t = none ∧ h.nextSpec t = none

theorem editFiles_listed_fresh {setup : Setup} {fs : FileSys Nat} {names : List CString} {env : EditEnv}
    {d : EditResult Nat} (hfresh : ((listed fs names).editFiles setup true false env).all
      (fun d => d.session.workFiles.all (isFresh d.session.heap)) = true)
    (hd : (listed fs names).editFiles setup true false env = some d) (t : SpecId)
    (ht : t ∈ d.session.workFiles) : d.session.heap.status t = .unchecked ∧
      d.session.heap.prevSpec t = none ∧ d.session.heap.nextSpec t = none := by
  rw [hd] at hfresh
  exact decide_eq_true_eq.mp (List.all_eq_true.mp hfresh t ht)

theorem listed_plan (fs : FileSys Nat) (names : List CString) : (listed fs names).plan = none := rfl

end Renameutils
