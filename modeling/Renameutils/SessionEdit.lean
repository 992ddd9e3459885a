import Renameutils.SessionInv

/-!
# What the edit file is read back against

After an edit that failed or was rejected the edit file is not written again: `accept_reedit` says that it
belongs to `edit_file_list`. `list` clears that list, `import` and `apply` free specs that are in it, and
`set` changes the format and its options, none of them resetting `accept_reedit`. As long as they do not,
the file is read back as it was written, and for specs that still are listed.
-/

namespace Renameutils

variable {φ : Type}

/-- The edit file was last written by the format and with the options that are set, for the specs in
`edit_file_list`. -/
def WrittenFor (s : Session φ) : Prop :=
  ∃ text, s.editFile = some ⟨s.format, s.options, s.realWidth, s.editFileList, text⟩

/-- The specs in `edit_file_list` are listed, and the indicators of the format are where it finds them. -/
structure EditLasts (s : Session φ) : Prop where
  listed : ∀ t ∈ s.editFileList, t ∈ s.workFiles
  indicators : s.indicatorsLent s.format = false

/-- While an edit can be taken up again no files are listed or imported, none of its specs is applied, and
the format and its options stay. `import` is used only when nothing is planned, and `set options` gives no
indicator. -/
def KeepsEdit (s : Session φ) (e : Event) : Prop :=
  match e with
  | .list ls => s.acceptReedit = true → ls = none
  | .importFile (some (_, false)) =>
    s.acceptReedit = false ∧ ∀ plan, s.plan = some plan → plan.ok = [] ∧ plan.error = []
  | .apply _ => s.acceptReedit = true → ∀ plan, s.plan = some plan → ∀ t ∈ s.editFileList, t ∉ plan.ok
  | .setFormat format => s.acceptReedit = true → format = s.format
  | .setOptions options indicator =>
    indicator = false ∧ (s.acceptReedit = true → s.options.parsed options s.format = s.options)
  | _ => True

/-- An edit can be taken up again only with the file that was written for it. -/
def Reeditable (s : Session φ) : Prop := s.acceptReedit = true → WrittenFor s

/-- The specs to edit, and those that `edit` would choose, are listed. -/
structure EditListed (s : Session φ) : Prop where
  nodup : s.workFiles.Nodup
  idle : s.acceptReedit = false → s.editFileList = []
  edit : ∀ t ∈ s.editFileList, t ∈ s.workFiles
  plan : ∀ plan, s.plan = some plan → (plan.ok ++ plan.error).Nodup ∧ ∀ t ∈ plan.error, t ∈ s.workFiles

section
variable {setup : Setup} {all : Bool} {file : TextFile} {s s₁ : Session φ} {e : Event} {r : StepResult φ}

/-! ### The file -/

theorem Prepares.writtenFor (h : Prepares all s s₁ true) (re : Reeditable s) : WrittenFor s₁ := by
  cases h with
  | again hre => exact re hre
  | written _ realWidth text => exact ⟨text, rfl⟩

theorem Prepares.reeditable {ready : Bool} (h : Prepares all s s₁ ready) (re : Reeditable s) :
    Reeditable s₁ := by
  cases ready with
  | true => exact fun _ => h.writtenFor re
  | false => cases h; exact fun hre => Bool.noConfusion hre

theorem Edited.reeditable {d : EditResult φ} (h : Edited file s d) (re : Reeditable s) :
    Reeditable d.session := by
  cases h with
  | unread => exact re
  | rejected => exact re
  | accepted => exact fun hre => Bool.noConfusion hre

theorem Reeditable.editFiles {force : Bool} {env : EditEnv} {d : EditResult φ} (re : Reeditable s)
    (h : s.editFiles setup all force env = some d) :
    Reeditable d.session ∧ ∀ s₁, d.read = some s₁ → WrittenFor s₁ := by
  rcases editFiles_run h with ⟨hp, hd⟩ | ⟨s₁, hp, he⟩
  · exact ⟨hp.reeditable re, by rw [hd]; simp⟩
  · refine ⟨he.reeditable (hp.reeditable re), fun s₂ hs₂ => ?_⟩
    cases he with
    | unread => cases hs₂
    | rejected => cases hs₂; exact hp.writtenFor re
    | accepted => cases hs₂; exact hp.writtenFor re

/-- Every step keeps it, and the file that a step reads is the one that was written for the edit. -/
theorem Reeditable.step (re : Reeditable s) (ok : KeepsEdit s e) (h : s.step setup e = some r) :
    Reeditable r.session ∧ ∀ s₁, r.read = some s₁ → WrittenFor s₁ := by
  cases e with
  | list ls =>
    cases h
    refine ⟨?_, by simp⟩
    cases ls with
    | none => exact re
    | some entries => intro hre; cases ok hre
  | importFile f =>
    cases h
    refine ⟨?_, by simp⟩
    unfold Session.importCommand
    split
    · exact re
    · dsimp only
      split <;> exact re
  | edit all env =>
    obtain ⟨_, rfl | ⟨d, hd, hread, ⟨_, hs, _⟩ | ⟨_, st, _, _, hs⟩⟩⟩ := editCommand_run h
    · exact ⟨re, by simp⟩
    · rw [hs, hread]; exact re.editFiles hd
    · rw [hs, hread]; exact re.editFiles hd
  | plan => cases h; exact ⟨re, by simp⟩
  | apply env =>
    cases h
    unfold Session.applyCommand
    split
    · exact ⟨re, by simp⟩
    · exact ⟨re, by simp⟩
  | setFormat format =>
    cases h
    refine ⟨fun hre => ?_, by simp⟩
    obtain rfl : format = s.format := ok hre
    exact re hre
  | setOptions options indicator =>
    cases h
    refine ⟨fun hre => ?_, by simp⟩
    have heq : s.options.parsed options s.format = s.options := ok.2 hre
    obtain ⟨text, ht⟩ := re hre
    exact ⟨text, by dsimp only; rw [heq]; exact ht⟩
  | setSimulate _ => cases h; exact ⟨re, by simp⟩

/-! ### The specs -/

namespace EditListed

theorem toEdit (l : EditListed s) (all : Bool) : ∀ t ∈ s.toEdit all, t ∈ s.workFiles := by
  unfold Session.toEdit
  split
  · exact fun _ h => h
  · cases hp : s.plan with
    | none => exact fun _ h => absurd h List.not_mem_nil
    | some plan => exact (l.plan plan hp).2

theorem prepares {ready : Bool} (l : EditListed s) (h : Prepares all s s₁ ready) : EditListed s₁ := by
  cases h with
  | again => exact l
  | written => exact ⟨l.nodup, nofun, l.toEdit all, l.plan⟩
  | failed => exact ⟨l.nodup, fun _ => rfl, fun _ h => absurd h List.not_mem_nil, l.plan⟩

theorem edited {d : EditResult φ} (l : EditListed s) (h : Edited file s d) : EditListed d.session := by
  cases h with
  | unread => exact l
  | rejected => exact ⟨l.nodup, l.idle, l.edit, l.plan⟩
  | accepted => exact ⟨l.nodup, fun _ => rfl, fun _ h => absurd h List.not_mem_nil, l.plan⟩

theorem editFiles {force : Bool} {env : EditEnv} {d : EditResult φ} (l : EditListed s)
    (h : s.editFiles setup all force env = some d) :
    EditListed d.session ∧ ∀ s₁, d.read = some s₁ → EditListed s₁ := by
  rcases editFiles_run h with ⟨hp, hd⟩ | ⟨s₁, hp, he⟩
  · exact ⟨l.prepares hp, by rw [hd]; simp⟩
  · refine ⟨(l.prepares hp).edited he, fun s₂ hs₂ => ?_⟩
    cases he with
    | unread => cases hs₂
    | rejected => cases hs₂; exact l.prepares hp
    | accepted => cases hs₂; exact l.prepares hp

/-- `apply_plan` frees only specs of `plan->ok`, which are neither to be edited nor errors. -/
theorem applyCommand {env : ApplyEnv} (l : EditListed s) (ok : KeepsEdit s (.apply env)) :
    EditListed (s.applyCommand setup env).session := by
  unfold Session.applyCommand
  cases hplan : s.plan with
  | none => exact l
  | some plan =>
    obtain ⟨hnodup, herror⟩ := l.plan plan hplan
    have hedit : ∀ t ∈ s.editFileList, t ∉ plan.ok := by
      cases hre : s.acceptReedit with
      | false => rw [l.idle hre]; exact fun _ h => absurd h List.not_mem_nil
      | true => exact ok hre plan hplan
    have inv := (@applyPlan_rule _ setup.program s.simulate ⟨s.heap, s.workFiles, s.fs⟩
      (fun kept w => w.workFiles.Nodup ∧ (kept ++ plan.error).Nodup ∧
        ∀ t ∈ s.editFileList ++ plan.error, t ∈ w.workFiles ∧ t ∉ kept) (fun _ => True)
      (fun kept t rest w fs ⟨hW, hkept, hlisted⟩ _ _ _ => ?_) (fun _ _ _ _ _ _ _ _ => trivial) env _
      ⟨l.nodup, hnodup, fun t ht => ?_⟩).1
    · dsimp only
      rw [applyPlan_plan]
      refine ⟨inv.1, l.idle, fun t ht => (inv.2.2 t (List.mem_append_left _ ht)).1, ?_⟩
      rintro _ ⟨⟩
      exact ⟨inv.2.1, fun t ht => (inv.2.2 t (List.mem_append_right _ ht)).1⟩
    · refine ⟨hW.erase t, ?_, fun u hu => ?_⟩
      · exact hkept.sublist (by simp)
      · obtain ⟨hu, hout⟩ := hlisted u hu
        simp only [List.mem_append, List.mem_cons, not_or] at hout ⊢
        exact ⟨(List.mem_erase_of_ne hout.2.1).mpr hu, hout.1, hout.2.2⟩
    · rcases List.mem_append.mp ht with ht | ht
      · exact ⟨l.edit t ht, hedit t ht⟩
      · exact ⟨herror t ht, fun hok => (List.disjoint_of_nodup_append hnodup) hok ht⟩

theorem step (once : ListedOnce s.workFiles s.heap) (l : EditListed s) (ok : KeepsEdit s e)
    (h : s.step setup e = some r) : EditListed r.session ∧ ∀ s₁, r.read = some s₁ → EditListed s₁ := by
  have once' : ListedOnce r.session.workFiles r.session.heap := once.step h
  cases e with
  | list ls =>
    cases h
    refine ⟨?_, by simp⟩
    cases ls with
    | none => exact l
    | some entries => exact ⟨once'.nodup, fun _ => rfl, fun _ h => absurd h List.not_mem_nil, nofun⟩
  | importFile f =>
    cases h
    refine ⟨?_, by simp⟩
    match f with
    | none => exact l
    | some (_, true) => exact ⟨l.nodup, l.idle, l.edit, l.plan⟩
    | some (_, false) =>
      obtain ⟨hre, hplan⟩ := ok
      have hnil : s.editFileList = [] := l.idle hre
      refine ⟨once'.nodup, l.idle, ?_, fun plan hp => ?_⟩
      · show ∀ t ∈ s.editFileList, _
        simp [hnil]
      · obtain ⟨hok, herror⟩ := hplan plan hp
        simp [hok, herror]
  | edit all env =>
    obtain ⟨_, rfl | ⟨d, hd, hread, ⟨_, hs, _⟩ | ⟨_, st, hst, _, hs⟩⟩⟩ := editCommand_run h
    · exact ⟨l, by simp⟩
    · rw [hs, hread]; exact l.editFiles hd
    · obtain ⟨l', hread'⟩ := l.editFiles hd
      rw [hs, hread]
      have once'' := once.edit hd
      obtain ⟨cuts, _, f, _⟩ := makePlan_filed once''.nodup once''.lt hst
      refine ⟨⟨l'.nodup, l'.idle, l'.edit, ?_⟩, hread'⟩
      rintro _ ⟨⟩
      exact ⟨(List.nodup_append.mp f.specs_nodup).1, fun t ht => ((f.error_iff t).mp ht).1⟩
  | plan => cases h; exact ⟨l, by simp⟩
  | apply env =>
    cases h
    refine ⟨l.applyCommand ok, ?_⟩
    unfold Session.applyCommand
    split
    · simp
    · simp
  | setFormat _ => cases h; exact ⟨⟨l.nodup, l.idle, l.edit, l.plan⟩, by simp⟩
  | setOptions _ _ => cases h; exact ⟨⟨l.nodup, l.idle, l.edit, l.plan⟩, by simp⟩
  | setSimulate _ => cases h; exact ⟨⟨l.nodup, l.idle, l.edit, l.plan⟩, by simp⟩

theorem initial (fs : FileSys φ) (simulate : Bool) (format : EditFormat) (options : FormatOptions) :
    EditListed (Session.initial fs simulate format options) :=
  ⟨List.nodup_nil, fun _ => rfl, fun _ h => absurd h List.not_mem_nil, nofun⟩

end EditListed

/-! ### Whole sessions -/

/-- What is read is read in a session that `edit_files` has prepared. -/
theorem read_frame (h : s.step setup e = some r) (hread : r.read = some s₁) : EditFrame s s₁ := by
  cases e with
  | edit all env =>
    have hd : ∀ d, s.editFiles setup all false env = some d → r.read = d.read → EditFrame s s₁ := by
      intro d hd heq
      rw [heq] at hread
      rcases editFiles_run hd with ⟨_, hd⟩ | ⟨s₂, hp, he⟩
      · rw [hd] at hread; cases hread
      · cases he with
        | unread => cases hread
        | rejected => cases hread; exact hp.frame.1
        | accepted => cases hread; exact hp.frame.1
    obtain ⟨_, rfl | ⟨d, hrun, heq, _⟩⟩ := editCommand_run h
    · cases hread
    · exact hd d hrun heq
  | apply env =>
    cases h
    unfold Session.applyCommand at hread
    split at hread <;> cases hread
  | _ => cases h; cases hread

theorem indicatorsLent_step (hlent : ∀ format, s.indicatorsLent format = false) (ok : KeepsEdit s e)
    (h : s.step setup e = some r) (format : EditFormat) : r.session.indicatorsLent format = false := by
  rcases step_options h with ⟨_, hsame⟩ | ⟨new, indicator, rfl, _, hnew⟩
  · rw [hsame]; exact hlent format
  · obtain ⟨rfl, _⟩ := ok
    rw [hnew, Function.update_apply]
    split
    · rfl
    · exact hlent format

/-- In any session in which the format, its options and the specs stay while an edit can be taken up again,
the edit file is read back as it was written. -/
theorem read_writtenFor {fs : FileSys φ} {simulate : Bool} {format : EditFormat} {options : FormatOptions}
    {es : List Event}
    (h : Runs (Session.next setup) KeepsEdit (.initial fs simulate format options) es s)
    (ok : KeepsEdit s e) (hstep : s.step setup e = some r) (hread : r.read = some s₁) :
    WrittenFor s₁ ∧ EditLasts s₁ := by
  have re : Reeditable s := runs_invariant h (fun _ _ _ re ok hr => (re.step ok hr).1) nofun
  obtain ⟨once, l, hlent⟩ : ListedOnce s.workFiles s.heap ∧ EditListed s ∧
      ∀ format, s.indicatorsLent format = false := by
    refine runs_invariant h (I := fun s => ListedOnce s.workFiles s.heap ∧ EditListed s ∧
      ∀ format, s.indicatorsLent format = false) (fun s e r ⟨once, l, hlent⟩ ok hr => ?_)
      ⟨listedOnce_initial fs simulate format options, .initial fs simulate format options, fun _ => rfl⟩
    exact ⟨once.step hr, (l.step once ok hr).1, indicatorsLent_step hlent ok hr⟩
  refine ⟨(re.step ok hstep).2 s₁ hread, ((l.step once ok hstep).2 s₁ hread).edit, ?_⟩
  rw [(read_frame hstep hread).indicatorsLent]
  exact hlent s₁.format

end

/-- Of two files the second cannot be moved to `c`, which exists. Its next edit is rejected, the first file is
moved, and the edit is taken up again. -/
theorem read_writtenFor_again :
    let setup := asciiSetup .qmv
    let s := listed (((Table.empty.put [97] 1).put [98] 2).put [99] 3) [[97], [98]]
    ∃ s₁ s₂ s₃ r s₄, s.next setup (editLines true [[120], [99]]) = some s₁ ∧
      s₁.next setup (editLines false []) = some s₂ ∧
      s₂.next setup (.apply { outcome := fun _ => .done }) = some s₃ ∧ s₃.workFiles = [1] ∧
      s₃.step setup (editLines false [[121]]) = some r ∧ r.read = some s₄ ∧ WrittenFor s₄ ∧ EditLasts s₄ := by
  intro setup s
  have hcheck : ((s.next setup (editLines true [[120], [99]])).bind fun s₁ =>
      s₁.next setup (editLines false [])).any (fun s₂ =>
        (s₂.editFileList = [1] ∧ s₂.plan.any fun plan => plan.ok = [0]) ∧
        (s₂.next setup (.apply { outcome := fun _ => .done })).any fun s₃ => s₃.workFiles = [1] ∧
          (s₃.step setup (editLines false [[121]])).any (·.read.isSome)) = true := by
    decide +kernel
  obtain ⟨s₂, hs₂, hcheck⟩ := (Option.any_eq_true _ _).mp hcheck
  obtain ⟨s₁, hs₁, hs₂⟩ := Option.bind_eq_some_iff.mp hs₂
  obtain ⟨⟨hedit, hplan⟩, hcheck⟩ := decide_eq_true_eq.mp hcheck
  obtain ⟨plan, hplan, hok⟩ := (Option.any_eq_true _ _).mp hplan
  obtain ⟨s₃, hs₃, hcheck⟩ := (Option.any_eq_true _ _).mp hcheck
  obtain ⟨hW, hcheck⟩ := decide_eq_true_eq.mp hcheck
  obtain ⟨r, hr, hread⟩ := (Option.any_eq_true _ _).mp hcheck
  obtain ⟨s₄, hs₄⟩ := Option.isSome_iff_exists.mp hread
  have hkeeps : ∀ (s : Session Nat) all lines, KeepsEdit s (editLines all lines) := fun _ _ _ => trivial
  have happly : KeepsEdit s₂ (.apply { outcome := fun _ => .done }) := by
    intro _ plan' hplan' t ht
    rw [hplan] at hplan'
    cases hplan'
    rw [hedit, List.mem_singleton] at ht
    rw [decide_eq_true_eq.mp hok, ht]
    simp
  have hrun : Runs (Session.next setup) KeepsEdit (.initial _ false .destinationOnly {}) _ s₃ :=
    runs_listed nofun (.cons (hkeeps _ _ _) hs₁ (.cons (hkeeps _ _ _) hs₂ (.cons happly hs₃ (.nil _))))
  exact ⟨s₁, s₂, s₃, r, s₄, hs₁, hs₂, hs₃, hW, hr, hs₄, read_writtenFor hrun (hkeeps _ _ _) hr hs₄⟩

/-- An edit is rejected, other files are listed, and the file is read back for none of them. -/
theorem read_after_list :
    let setup := asciiSetup .qmv
    let fs : FileSys Nat := (Table.empty.put [97] 1).put [98] 2
    ¬ ∀ es s e r s₁, Runs (Session.next setup) (fun _ e => e ≠ .plan ∧ ∀ b, e ≠ .setSimulate b)
      (.initial fs false .destinationOnly {}) es s → (e ≠ .plan ∧ ∀ b, e ≠ .setSimulate b) →
      s.step setup e = some r → r.read = some s₁ → WrittenFor s₁ := by
  intro setup fs claim
  obtain ⟨s, r, hrun, hr, hp⟩ := exists_run setup (.initial fs false .destinationOnly {})
    [.list (some [([], [97]), ([], [98])]), editLines true [[120]], .list (some [([], [97])])]
    (editLines false [[121]]) (fun _ e => e ≠ .plan ∧ ∀ b, e ≠ .setSimulate b)
    (fun r => r.read.any fun s₁ => s₁.editFileList = [] ∧ s₁.editFile.any fun f => f.files = [0, 1])
    (by simp [editLines]) (by decide)
  obtain ⟨s₁, hs₁, hp⟩ := (Option.any_eq_true _ _).mp hp
  simp only [Bool.decide_and, Bool.and_eq_true, decide_eq_true_eq] at hp
  obtain ⟨text, htext⟩ := claim _ s _ r s₁ hrun (by simp [editLines]) hr hs₁
  rw [htext, hp.1] at hp
  cases hp.2

end Renameutils
