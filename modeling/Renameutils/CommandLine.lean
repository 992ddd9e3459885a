import Renameutils.FormatParse
import Renameutils.Lib.BinarySearch
import Renameutils.MainLoop

/-!
# Command lines (`interactive.c`, `variables.c`, `edit.c`)

`Shell.line` is a turn of `commandmode_mainloop` from the words of a line: the handler is looked up in `commands`
with `bsearch`, and handed the words. Whatever is typed, the loop takes the turns of `Loop` and no others, and the
options stay such as `parse_options` can leave (`shell_refines`).
-/

namespace Renameutils
open CString

/-- The handlers in `commands`. -/
inductive Handler
  | applyCommand | editCommand | quitCommand | helpCommand | importCommand | listCommand | planCommand
  | setCommand | showCommand | versionCommand
deriving DecidableEq, Repr

structure Command where
  word : CString
  handler : Handler
deriving DecidableEq, Repr

/-- `apply`, `ed`, `edit`, `exit`, `help`, `import`, `list`, `ls`, `plan`, `quit`, `set`, `show` and `version`. -/
def commands : List Command :=
  [⟨[97, 112, 112, 108, 121], .applyCommand⟩, ⟨[101, 100], .editCommand⟩, ⟨[101, 100, 105, 116], .editCommand⟩,
    ⟨[101, 120, 105, 116], .quitCommand⟩, ⟨[104, 101, 108, 112], .helpCommand⟩,
    ⟨[105, 109, 112, 111, 114, 116], .importCommand⟩, ⟨[108, 105, 115, 116], .listCommand⟩,
    ⟨[108, 115], .listCommand⟩, ⟨[112, 108, 97, 110], .planCommand⟩, ⟨[113, 117, 105, 116], .quitCommand⟩,
    ⟨[115, 101, 116], .setCommand⟩, ⟨[115, 104, 111, 119], .showCommand⟩,
    ⟨[118, 101, 114, 115, 105, 111, 110], .versionCommand⟩]

/-- `strcmp`, on bytes without a sign. -/
def strcmp : CString → CString → Ordering := List.compareLex compare

/-- `command_compare`. -/
def commandCompare (c₁ c₂ : Command) : Ordering := strcmp c₁.word c₂.word

/-- `bsearch` in `commands`. The handler of the target is not set. -/
def findCommand (target : Command) : Option Command := BinarySearch.bsearch (commandCompare target) commands

/-! ### Variables -/

/-- `simulate`. -/
def simulateName : CString := [115, 105, 109, 117, 108, 97, 116, 101]

/-- `editor`. -/
def editorName : CString := [101, 100, 105, 116, 111, 114]

/-- `format`. -/
def formatName : CString := [102, 111, 114, 109, 97, 116]

/-- `tempfile`. -/
def tempfileName : CString := [116, 101, 109, 112, 102, 105, 108, 101]

/-- `options`. -/
def optionsName : CString := [111, 112, 116, 105, 111, 110, 115]

/-- `ls`. -/
def lsName : CString := [108, 115]

/-- `set`. -/
def setWord : CString := [115, 101, 116]

/-- `all`. -/
def allWord : CString := [97, 108, 108]

/-- `0`, `false`, `no` and `off`. -/
def falseWords : List CString := [[48], [102, 97, 108, 115, 101], [110, 111], [111, 102, 102]]

/-- `1`, `true`, `yes` and `on`. -/
def trueWords : List CString := [[49], [116, 114, 117, 101], [121, 101, 115], [111, 110]]

/-- `tolower` in the C locale. -/
def toLower (c : UInt8) : UInt8 := if 65 ≤ c && c ≤ 90 then c + 32 else c

/-- `strcasecmp(a, b) == 0`, and `strcmp` for the digits. -/
def sameLetters (a b : CString) : Bool := a.map toLower = b.map toLower

/-- `none`: an invalid value. -/
def parseBoolean (value : CString) : Option Bool :=
  if falseWords.any (sameLetters value) then some false
  else if trueWords.any (sameLetters value) then some true
  else none

/-- `destination-only`, `dual-column` and `single-column`, with their short names. -/
def formats : List (CString × CString × EditFormat) :=
  [([100, 101, 115, 116, 105, 110, 97, 116, 105, 111, 110, 45, 111, 110, 108, 121], [100, 111], .destinationOnly),
    ([100, 117, 97, 108, 45, 99, 111, 108, 117, 109, 110], [100, 99], .dualColumn),
    ([115, 105, 110, 103, 108, 101, 45, 99, 111, 108, 117, 109, 110], [115, 99], .singleColumn)]

def findEditFormatByName (name : CString) : Option EditFormat :=
  (formats.find? fun f => name = f.1 || name = f.2.1).map fun f => f.2.2

/-! ### Lines -/

/-- The session in its loop, with the programs that it starts. -/
structure Shell (φ : Type) where
  loop : Loop φ
  editorProgram : CString
  lsProgram : CString

/-- What a line prints, where it changes nothing. -/
inductive Reply
  | undefinedCommand (word : CString)
  | missingFile
  | missingValue
  | invalidBoolean (value : CString)
  | noSuchFormat (name : CString)
  | readOnly
  | optionWarning (warning : OptionWarning)
  | text (handler : Handler)
deriving DecidableEq, Repr

/-- A turn from a line: what becomes of the shell, of the plan, and what is printed. -/
structure LineResult (φ : Type) where
  shell : Shell φ
  turn : Turn := .other
  reply : Option Reply := none

/-- What `readline` and `wordexp` make of what is typed: the end of the input, a line that `wordexp` refuses, or the
words of a line. -/
inductive Line
  | endOfFile
  | refused
  | words (words : List CString)

/-- What the environment does with the commands of a line: what `ls` lists for its arguments, what a file holds
that is imported, what happens in the editor and to the launched commands. -/
structure LineEnv where
  ls : List CString → Option (List (CString × CString))
  importFile : CString → Option (List CString × Bool)
  edit : EditEnv
  apply : ApplyEnv

namespace Shell
variable {φ : Type}

/-- A command of the session. -/
def command (setup : Setup) (s : Shell φ) (e : Event) : Option (LineResult φ) := do
  let (loop, turn) ← s.loop.turn setup (.command e)
  return { shell := { s with loop := loop }, turn := turn }

/-- Whether `set_command` is to set an indicator, from the name on. -/
def setsIndicator : List CString → Bool
  | name :: value :: _ => name = optionsName &&
    (Subopt.suboptions comma equals value).any fun s => s.1 = indicator1Name || s.1 = indicator2Name
  | _ => false

/-- `set_command`, from the name on. -/
def setCommand (s : Shell φ) : List CString → LineResult φ
  | [] => { shell := s, reply := some (.text .showCommand) }
  | [_] => { shell := s, reply := some .missingValue }
  | name :: value :: args =>
    let session := s.loop.session
    if name = simulateName then
      match parseBoolean value with
      | some simulate =>
        { shell := { s with loop := { s.loop with session := { session with simulate := simulate } } } }
      | none => { shell := s, reply := some (.invalidBoolean value) }
    else if name = editorName then { shell := { s with editorProgram := value } }
    else if name = formatName then
      match findEditFormatByName value with
      | none => { shell := s, reply := some (.noSuchFormat value) }
      | some format => { shell := { s with loop := { s.loop with session := { session with format := format } } } }
    else if name = tempfileName then { shell := s, reply := some .readOnly }
    else if name = optionsName then
      let parsed := session.format.parseOptions session.options value
      let lent := Function.update session.indicatorsLent session.format (setsIndicator (name :: value :: args))
      { shell := { s with loop := { s.loop with session := { session with
          options := parsed.options
          indicatorsLent := lent } } }
        reply := parsed.warning.map .optionWarning }
    else if name = lsName then { shell := { s with lsProgram := value } }
    else { shell := s }

/-- The handlers, with the words after the command. -/
def handle (setup : Setup) (env : LineEnv) (s : Shell φ) (args : List CString) : Handler → Option (LineResult φ)
  | .applyCommand => s.command setup (.apply env.apply)
  | .editCommand => s.command setup (.edit (args.head? = some allWord) env.edit)
  | .quitCommand => some { shell := { s with loop := quitCommand s.loop } }
  | .importCommand =>
    match args with
    | [] => some { shell := s, reply := some .missingFile }
    | file :: _ => s.command setup (.importFile (env.importFile file))
  | .listCommand => s.command setup (.list (env.ls args))
  | .planCommand => s.command setup .plan
  | .setCommand => some (s.setCommand args)
  | handler => some { shell := s, reply := some (.text handler) }

/-- A turn of `commandmode_mainloop`. -/
def line (setup : Setup) (env : LineEnv) (s : Shell φ) : Line → Option (LineResult φ)
  | .endOfFile =>
    let (loop, turn) := terminateProgram s.loop
    some { shell := { s with loop := loop }, turn := turn }
  | .refused | .words [] => some { shell := s }
  | .words (word :: args) =>
    match findCommand ⟨word, .helpCommand⟩ with
    | none => some { shell := s, reply := some (.undefinedCommand word) }
    | some command => s.handle setup env args command.handler

/-- `while (running)`. -/
def next (setup : Setup) (s : Shell φ) (line : LineEnv × Line) : Option (Shell φ) :=
  if s.loop.running then (s.line setup line.1 line.2).map LineResult.shell else none

end Shell

/-- The shell that `main` starts with `-f format` and `-o formatOptions`. `none`: it exits. -/
def startShell {φ : Type} (fs : FileSys φ) (simulate : Bool) (editorProgram lsProgram : CString) (format : EditFormat)
    (formatOptions : Option CString) : Option (Shell φ) :=
  let parsed := formatOptions.map fun text => format.parseOptions {} text
  if parsed.all ParsedOptions.result then
    some ⟨{ session := .initial fs simulate format ((parsed.map ParsedOptions.options).getD {}) }, editorProgram,
      lsProgram⟩
  else none

/-! ### Finding commands -/

theorem strcmp_eq_iff {a b : CString} : strcmp a b = .eq ↔ a = b := by
  have lawful : Std.LawfulEqCmp (List.compareLex (compare : UInt8 → UInt8 → Ordering)) := inferInstance
  exact lawful.compare_eq_iff_eq

theorem strcmp_lt_trans {a b c : CString} (hab : strcmp a b = .lt) (hbc : strcmp b c = .lt) : strcmp a c = .lt := by
  have trans : Std.TransCmp (List.compareLex (compare : UInt8 → UInt8 → Ordering)) := inferInstance
  exact trans.lt_trans hab hbc

theorem strcmp_gt_iff {a b : CString} : strcmp a b = .gt ↔ strcmp b a = .lt := by
  have oriented : Std.OrientedCmp (List.compareLex (compare : UInt8 → UInt8 → Ordering)) := inferInstance
  exact oriented.gt_iff_lt

theorem commands_sorted : commands.Pairwise fun c₁ c₂ => strcmp c₁.word c₂.word = .lt := by
  decide

theorem commands_ordered (target : Command) : BinarySearch.Ordered (commandCompare target) commands := by
  refine commands_sorted.imp ?_
  intro c₁ c₂ hlt
  constructor
  · intro h
    exact strcmp_lt_trans h hlt
  · intro h
    exact strcmp_gt_iff.mpr (strcmp_lt_trans hlt (strcmp_gt_iff.mp h))

/-- `bsearch` finds the command of a word if there is one, whatever the handler of the target is. -/
theorem findCommand_eq_some_iff (word : CString) (handler : Handler) (c : Command) :
    findCommand ⟨word, handler⟩ = some c ↔ c ∈ commands ∧ c.word = word := by
  have hinj : ∀ d ∈ commands, ∀ e ∈ commands, d.word = e.word → d = e := by decide
  have heq : ∀ d, commandCompare ⟨word, handler⟩ d = .eq ↔ d.word = word :=
    fun d => strcmp_eq_iff.trans eq_comm
  constructor
  · intro h
    obtain ⟨hmem, hcmp⟩ := BinarySearch.bsearch_some h
    exact ⟨hmem, (heq c).mp hcmp⟩
  · rintro ⟨hmem, hword⟩
    cases hfind : findCommand ⟨word, handler⟩ with
    | none => exact absurd ((heq c).mpr hword) (BinarySearch.bsearch_none (commands_ordered _) hfind c hmem)
    | some d =>
      obtain ⟨hmem', hcmp⟩ := BinarySearch.bsearch_some hfind
      exact congrArg some (hinj d hmem' c hmem (((heq d).mp hcmp).trans hword.symm))

/-! ### Lines and the session -/

/-- The options of every format are such as its variables can have. -/
def OptionsSettable (o : FormatOptions) : Prop := ∀ format : EditFormat, format.Settable o

/-- The options are settable, and no format points into words that were freed. -/
structure OptionsLast {φ : Type} (s : Session φ) : Prop where
  settable : OptionsSettable s.options
  kept : ∀ format, s.indicatorsLent format = false

/-- The options that an input sets are such as the variables of the format can have, and no indicator is given. -/
def InputSettable {φ : Type} (s : Session φ) (input : Input) : Prop :=
  ∀ new indicator, input = .command (.setOptions new indicator) → s.format.Settable new ∧ indicator = false

/-- The words of a line are C strings. -/
def Line.IsText : Line → Prop
  | words ws => ∀ word ∈ ws, 0 ∉ word
  | _ => True

/-- The words of a line are C strings, and it does not set an indicator. -/
def Line.Lasts (line : Line) : Prop :=
  line.IsText ∧ ∀ args, line = .words (setWord :: args) → Shell.setsIndicator args = false

section
variable {φ : Type} {setup : Setup} {s s' : Shell φ} {env : LineEnv}

/-- A turn that a line takes: none, or one of `Loop` with settable options. -/
def Shell.Follows (setup : Setup) (s : Shell φ) (r : LineResult φ) : Prop :=
  r.shell.loop = s.loop ∧ r.turn = .other ∨
    ∃ input, InputSettable s.loop.session input ∧ s.loop.turn setup input = some (r.shell.loop, r.turn)

theorem Shell.command_follows {e : Event} {r : LineResult φ} (he : ∀ new indicator, e ≠ .setOptions new indicator)
    (h : s.command setup e = some r) : s.Follows setup r := by
  obtain ⟨⟨loop, turn⟩, hturn, h⟩ := Option.bind_eq_some_iff.mp h
  cases h
  refine Or.inr ⟨.command e, ?_, hturn⟩
  intro new indicator hnew
  exact absurd (Input.command.inj hnew) (he new indicator)

theorem Shell.setCommand_follows {args : List CString} (hargs : ∀ arg ∈ args, 0 ∉ arg)
    (hlasts : setsIndicator args = false) :
    s.Follows setup (s.setCommand args) := by
  have hevent : ∀ (e : Event) (session : Session φ) (reply : Option Reply), InputSettable s.loop.session (.command e) →
      s.loop.session.step setup e = some { session := session } → session.plan = s.loop.session.plan →
      s.Follows setup { shell := { s with loop := { s.loop with session := session } }, reply := reply } := by
    intro e session reply hinput hstep hplan
    refine Or.inr ⟨.command e, hinput, ?_⟩
    rw [Loop.turn, hstep]
    simp [changesPlan, hplan]
  unfold setCommand
  rcases args with _ | ⟨name, _ | ⟨value, args⟩⟩
  · exact Or.inl ⟨rfl, rfl⟩
  · exact Or.inl ⟨rfl, rfl⟩
  · simp only
    split
    · cases parseBoolean value with
      | none => exact Or.inl ⟨rfl, rfl⟩
      | some simulate => exact hevent (.setSimulate simulate) _ none (by rintro new indicator ⟨⟩) rfl rfl
    · split
      · exact Or.inl ⟨rfl, rfl⟩
      · split
        · cases findEditFormatByName value with
          | none => exact Or.inl ⟨rfl, rfl⟩
          | some format => exact hevent (.setFormat format) _ none (by rintro new indicator ⟨⟩) rfl rfl
        · split
          · exact Or.inl ⟨rfl, rfl⟩
          · split
            · have hzero : 0 ∉ value := hargs value (by simp)
              obtain ⟨new, hnew, hoptions⟩ :=
                s.loop.session.format.parseOptions_settable s.loop.session.options hzero
              refine hevent (.setOptions new (setsIndicator (name :: value :: args))) _ _ ?_ ?_ rfl
              · rintro _ _ ⟨⟩
                exact ⟨hnew, hlasts⟩
              · rw [hoptions]
                rfl
            · split
              · exact Or.inl ⟨rfl, rfl⟩
              · exact Or.inl ⟨rfl, rfl⟩

theorem setCommand_word {c : Command} (hc : c ∈ commands) (h : c.handler = .setCommand) : c.word = setWord := by
  have hall : ∀ c ∈ commands, c.handler = .setCommand → c.word = setWord := by decide
  exact hall c hc h

theorem Shell.line_follows {line : Line} {r : LineResult φ} (hlasts : line.Lasts) (h : s.line setup env line = some r) :
    s.Follows setup r := by
  cases line with
  | endOfFile =>
    cases h
    exact Or.inr ⟨.endOfFile, by rintro _ _ ⟨⟩, rfl⟩
  | refused =>
    cases h
    exact Or.inl ⟨rfl, rfl⟩
  | words ws =>
    rcases ws with _ | ⟨word, args⟩
    · cases h
      exact Or.inl ⟨rfl, rfl⟩
    · cases hfind : findCommand ⟨word, .helpCommand⟩ with
      | none =>
        simp only [Shell.line, hfind] at h
        cases h
        exact Or.inl ⟨rfl, rfl⟩
      | some command =>
        simp only [Shell.line, hfind] at h
        cases hhandler : command.handler <;> simp only [handle, hhandler] at h
        case applyCommand => exact command_follows (by simp) h
        case editCommand => exact command_follows (by simp) h
        case quitCommand =>
          cases h
          exact Or.inr ⟨.quit, by rintro _ _ ⟨⟩, rfl⟩
        case helpCommand =>
          cases h
          exact Or.inl ⟨rfl, rfl⟩
        case importCommand =>
          split at h
          · cases h
            exact Or.inl ⟨rfl, rfl⟩
          · exact command_follows (by simp) h
        case listCommand => exact command_follows (by simp) h
        case planCommand => exact command_follows (by simp) h
        case setCommand =>
          cases h
          obtain ⟨hmem, rfl⟩ := (findCommand_eq_some_iff ..).mp hfind
          refine setCommand_follows (fun arg harg => hlasts.1 arg (List.mem_cons_of_mem _ harg)) (hlasts.2 args ?_)
          rw [setCommand_word hmem hhandler]
        case showCommand =>
          cases h
          exact Or.inl ⟨rfl, rfl⟩
        case versionCommand =>
          cases h
          exact Or.inl ⟨rfl, rfl⟩

theorem OptionsSettable.parsed {o new : FormatOptions} {format : EditFormat} (ho : OptionsSettable o)
    (hnew : format.Settable new) : OptionsSettable (o.parsed new format) := by
  intro other
  have hother := ho other
  cases format <;> cases other <;> first | exact hother | exact hnew

theorem OptionsLast.step {t : Session φ} {e : Event} {r : StepResult φ} (ho : OptionsLast t)
    (hinput : InputSettable t (.command e)) (h : t.step setup e = some r) : OptionsLast r.session := by
  rcases step_options h with ⟨hoptions, hlent⟩ | ⟨new, indicator, rfl, hoptions, hlent⟩
  · exact ⟨hoptions ▸ ho.settable, hlent ▸ ho.kept⟩
  · obtain ⟨hnew, rfl⟩ := hinput new indicator rfl
    refine ⟨hoptions ▸ ho.settable.parsed hnew, fun format => ?_⟩
    rw [hlent, Function.update_apply]
    split
    · rfl
    · exact ho.kept format

theorem OptionsLast.turn {l : Loop φ} {input : Input} {r : Loop φ × Turn} (ho : OptionsLast l.session)
    (hinput : InputSettable l.session input) (h : l.turn setup input = some r) : OptionsLast r.1.session := by
  cases input with
  | quit =>
    cases h
    exact ho
  | endOfFile =>
    rw [Loop.turn, terminateProgram_eq] at h
    split at h
    · cases h
      exact ho
    · cases h
      exact ho
  | command e =>
    obtain ⟨d, hd, h⟩ := Option.bind_eq_some_iff.mp h
    cases h
    exact ho.step hinput hd

theorem optionsLast_startShell {fs : FileSys φ} {simulate : Bool} {editorProgram lsProgram : CString}
    {format : EditFormat} {formatOptions : Option CString} (hzero : ∀ text ∈ formatOptions, 0 ∉ text)
    (h : startShell fs simulate editorProgram lsProgram format formatOptions = some s) :
    OptionsLast s.loop.session := by
  have hdefault : OptionsSettable {} := by
    intro other
    cases other <;> simp [EditFormat.Settable, IsIndicator]
  unfold startShell at h
  dsimp only at h
  split at h
  · cases h
    refine ⟨?_, fun _ => rfl⟩
    cases formatOptions with
    | none => exact hdefault
    | some text =>
      obtain ⟨new, hnew, hoptions⟩ := format.parseOptions_settable {} (hzero text rfl)
      show OptionsSettable (format.parseOptions {} text).options
      rw [hoptions]
      exact hdefault.parsed hnew
  · cases h

/-- A run of lines is a run of the loop. -/
theorem Shell.runs_follow {lines : List (LineEnv × Line)}
    (h : Runs (Shell.next setup) (fun _ line => line.2.Lasts) s lines s') (turns : List Turn) :
    ∃ inputs turns', Runs (LoopRun.next setup) (fun run input => InputSettable run.loop.session input)
      ⟨s.loop, turns⟩ inputs ⟨s'.loop, turns'⟩ := by
  induction h generalizing turns with
  | nil s => exact ⟨[], turns, .nil _⟩
  | cons htext hstep _ ih =>
    unfold Shell.next at hstep
    split at hstep
    · rename_i hrunning
      obtain ⟨r, hr, rfl⟩ := Option.map_eq_some_iff.mp hstep
      rcases Shell.line_follows htext hr with ⟨hloop, _⟩ | ⟨input, hinput, hturn⟩
      · rw [hloop] at ih
        exact ih turns
      · obtain ⟨inputs, turns', hruns⟩ := ih (turns ++ [r.turn])
        refine ⟨input :: inputs, turns', .cons hinput ?_ hruns⟩
        rw [LoopRun.next, if_pos hrunning, hturn]
        rfl
    · cases hstep

/-- Whatever is typed that sets no indicator, the main loop takes the turns of `Loop` and no others, and the options of
every format stay such as its variables can have. -/
theorem shell_refines {fs : FileSys φ} {simulate : Bool} {editorProgram lsProgram : CString} {format : EditFormat}
    {formatOptions : Option CString} {lines : List (LineEnv × Line)} (hzero : ∀ text ∈ formatOptions, 0 ∉ text)
    (hstart : startShell fs simulate editorProgram lsProgram format formatOptions = some s)
    (h : Runs (Shell.next setup) (fun _ line => line.2.Lasts) s lines s') :
    OptionsLast s'.loop.session ∧ ∃ inputs turns,
      Runs (LoopRun.next setup) (fun run input => InputSettable run.loop.session input) ⟨s.loop, []⟩ inputs
        ⟨s'.loop, turns⟩ := by
  obtain ⟨inputs, turns, hruns⟩ := Shell.runs_follow h []
  refine ⟨?_, inputs, turns, hruns⟩
  have hkeep : ∀ (run : LoopRun φ) input run', OptionsLast run.loop.session →
      InputSettable run.loop.session input → run.next setup input = some run' →
      OptionsLast run'.loop.session := by
    intro run input run' ho hinput hnext
    obtain ⟨_, loop, turn, hturn, rfl⟩ := LoopRun.next_eq hnext
    exact ho.turn hinput hturn
  have hinv := hruns.invariant (I := fun run : LoopRun φ => OptionsLast run.loop.session) hkeep
  exact hinv (optionsLast_startShell hzero hstart)

end

/-- `-o swap`, then `set options width=9,` and `quit`. -/
theorem shell_refines_set :
    let setup := asciiSetup .qmv
    let env : LineEnv := ⟨fun _ => none, fun _ => none, { file := [], fuel := 0 }, { outcome := fun _ => .done }⟩
    ∃ s s' : Shell Nat, startShell Table.empty false [] [] .dualColumn (some swapName) = some s ∧
      Runs (Shell.next setup) (fun _ line => line.2.Lasts) s
        [(env, .words [[115, 101, 116], optionsName, widthName ++ [61, 57, 44]]), (env, .words [[113, 117, 105, 116]])]
        s' ∧ s'.loop.running = false ∧ OptionsLast s'.loop.session := by
  intro setup env
  have hset : findCommand ⟨[115, 101, 116], .helpCommand⟩ = some ⟨[115, 101, 116], .setCommand⟩ :=
    (findCommand_eq_some_iff ..).mpr (by decide)
  have hquit : findCommand ⟨[113, 117, 105, 116], .helpCommand⟩ = some ⟨[113, 117, 105, 116], .quitCommand⟩ :=
    (findCommand_eq_some_iff ..).mpr (by decide)
  have hswap : (EditFormat.dualColumn.parseOptions {} swapName).result = true := by
    rw [EditFormat.parseOptions_eq]
    decide
  obtain ⟨s, hs, hrunning⟩ : ∃ s : Shell Nat,
      startShell Table.empty false [] [] .dualColumn (some swapName) = some s ∧ s.loop.running = true :=
    ⟨_, if_pos hswap, rfl⟩
  obtain ⟨s₁, hs₁, hrunning₁⟩ : ∃ s₁, Shell.next setup s
      (env, .words [[115, 101, 116], optionsName, widthName ++ [61, 57, 44]]) = some s₁ ∧ s₁.loop.running = true := by
    refine ⟨(s.setCommand [optionsName, widthName ++ [61, 57, 44]]).shell, ?_, hrunning⟩
    simp [Shell.next, hrunning, Shell.line, hset, Shell.handle]
  obtain ⟨s', hs', hstopped⟩ : ∃ s', Shell.next setup s₁ (env, .words [[113, 117, 105, 116]]) = some s' ∧
      s'.loop.running = false := by
    refine ⟨{ s₁ with loop := quitCommand s₁.loop }, ?_, rfl⟩
    simp [Shell.next, hrunning₁, Shell.line, hquit, Shell.handle]
  have hlasts₁ : (Line.words [setWord, optionsName, widthName ++ [61, 57, 44]]).Lasts := by
    refine ⟨show ∀ word ∈ _, 0 ∉ word by decide, ?_⟩
    rintro _ ⟨⟩
    decide
  have hlasts₂ : (Line.words [[113, 117, 105, 116]]).Lasts :=
    ⟨show ∀ word ∈ _, 0 ∉ word by decide, by simp [setWord]⟩
  have hruns : Runs (Shell.next setup) (fun _ line => line.2.Lasts) s
      [(env, .words [[115, 101, 116], optionsName, widthName ++ [61, 57, 44]]), (env, .words [[113, 117, 105, 116]])]
      s' := .cons hlasts₁ hs₁ (.cons hlasts₂ hs' (.nil s'))
  exact ⟨s, s', hs, hruns, hstopped, (shell_refines (by decide) hs hruns).1⟩

end Renameutils
