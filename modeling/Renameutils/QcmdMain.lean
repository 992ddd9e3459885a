import Renameutils.BatchRun
import Renameutils.CommandLine
import Renameutils.ListCommand

/-!
# The program (`main`, `qcmd.c`)

From the command line to the end of the command mode: `mainOptions` is the loop over the options, and `qcmdMain` what
`main` does after it. `mainOptions_settings` says which command lines are accepted and what they set, and
`qcmdMain_refines` that whatever is on the command line and typed afterwards, the program is in no other state than a
session can be in.
-/

namespace Renameutils
open CString ArgSyntax Getopt

/-! ### The options -/

/-- `command`, `verbose`, `dummy`, `interactive` and `version`. -/
def commandName : CString := [99, 111, 109, 109, 97, 110, 100]
def verboseName : CString := [118, 101, 114, 98, 111, 115, 101]
def dummyName : CString := [100, 117, 109, 109, 121]
def interactiveName : CString := [105, 110, 116, 101, 114, 97, 99, 116, 105, 118, 101]
def versionName : CString := [118, 101, 114, 115, 105, 111, 110]

/-- `SIMULATE_OPT`, `COMMAND_OPT`, `LS_OPT`, `VERSION_OPT` and `HELP_OPT`. -/
def simulateOpt : Nat := 1000
def commandOpt : Nat := 1001
def lsOpt : Nat := 1002
def versionOpt : Nat := 1003
def helpOpt : Nat := 1004

/-- `option_table`. -/
def optionTable : List LongOption :=
  [⟨commandName, .required, commandOpt⟩, ⟨formatName, .required, 102⟩, ⟨optionsName, .required, 111⟩,
    ⟨editorName, .required, 101⟩, ⟨lsName, .required, lsOpt⟩, ⟨verboseName, .no, 118⟩, ⟨dummyName, .no, simulateOpt⟩,
    ⟨simulateName, .no, simulateOpt⟩, ⟨interactiveName, .no, 105⟩, ⟨versionName, .no, versionOpt⟩,
    ⟨helpName, .no, helpOpt⟩]

/-- `"aABcdrRStuUXvf:o:e:i"`. The long options are those of `option_table`; `all_options` is not used. -/
def mainTable : OptTable where
  optstring := lsOptstring ++ [118, 102, colon, 111, colon, 101, colon, 105]
  longopts := optionTable

/-- The variables that the options set. -/
structure Settings where
  simulate : Bool := false
  verbose : Bool := false
  interactive : Bool := false
  format : EditFormat := .dualColumn
  formatOptions : Option CString := none
  editorProgram : Option CString := none
  lsProgram : Option CString := none
  forceCommand : Option CString := none
  lsOptions : List CString := []
  directory : Bool := false

/-- Where the loop ends the program. -/
inductive OptionExit where
  | badOption
  | noSuchFormat (name : CString)
  | version
  | help

def OptionExit.status : OptionExit → Nat
  | badOption | noSuchFormat _ => 1
  | version | help => 0

/-- The `switch`. -/
def mainOption (st : Settings) (e : OptEvent) : Except OptionExit Settings :=
  match e.c with
  | 63 => .error .badOption
  | 105 => .ok { st with interactive := true }
  | 118 => .ok { st with verbose := true }
  | 102 =>
    match findEditFormatByName (e.optarg.getD []) with
    | none => .error (.noSuchFormat (e.optarg.getD []))
    | some format => .ok { st with format := format }
  | 111 => .ok { st with formatOptions := e.optarg }
  | 101 => .ok { st with editorProgram := e.optarg }
  | 1002 => .ok { st with lsProgram := e.optarg }
  | 1001 => .ok { st with forceCommand := e.optarg }
  | 1000 => .ok { st with simulate := true }
  | 1003 => .error .version
  | 1004 => .error .help
  | _ => .ok { st with lsOptions := st.lsOptions ++ lsWords e, directory := st.directory || e.c = 100 }

def mainOptions (posixlyCorrect : Bool) (fuel : Nat) (argv : List CString) : Option (LoopEnd OptionExit Settings) :=
  getoptLoop mainTable posixlyCorrect mainOption fuel {} argv {}

/-! ### `main` -/

section
variable {φ δ : Type}

end

/-! ### What the options set -/

/-- The option does not end the program. -/
def OptionAccepted (e : OptEvent) : Prop :=
  e.c ≠ questionMark ∧ e.c ≠ versionOpt ∧ e.c ≠ helpOpt ∧ (e.c = 102 → findEditFormatByName (e.optarg.getD []) ≠ none)

/-- The last option `c`. -/
def lastOption (events : List OptEvent) (c : Nat) : Option OptEvent := events.reverse.find? (·.c = c)

/-- The last of each option counts, and all of those for `ls`. -/
def settingsOf (events : List OptEvent) : Settings where
  simulate := (lastOption events simulateOpt).isSome
  verbose := (lastOption events 118).isSome
  interactive := (lastOption events 105).isSome
  format := ((lastOption events 102).bind fun e => findEditFormatByName (e.optarg.getD [])).getD .dualColumn
  formatOptions := (lastOption events 111).bind (·.optarg)
  editorProgram := (lastOption events 101).bind (·.optarg)
  lsProgram := (lastOption events lsOpt).bind (·.optarg)
  forceCommand := (lastOption events commandOpt).bind (·.optarg)
  lsOptions := events.flatMap lsWords
  directory := events.any (·.c = 100)

section
variable {events : List OptEvent} {e : OptEvent}

theorem lastOption_snoc (events : List OptEvent) (e : OptEvent) (c : Nat) :
    lastOption (events ++ [e]) c = if e.c = c then some e else lastOption events c := by
  rw [lastOption, List.reverse_append, List.reverse_singleton, List.singleton_append]
  split
  · rename_i h
    exact List.find?_cons_of_pos (decide_eq_true h)
  · rename_i h
    exact List.find?_cons_of_neg (by simpa using h)

theorem mainOption_settingsOf (events : List OptEvent) (h : OptionAccepted e) :
    mainOption (settingsOf events) e = .ok (settingsOf (events ++ [e])) := by
  obtain ⟨hbad, hversion, hhelp, hformat⟩ := h
  simp only [settingsOf, lastOption_snoc, List.flatMap_append, List.flatMap_singleton, List.any_append, List.any_cons,
    List.any_nil, Bool.or_false]
  unfold mainOption
  split
  case h_1 hc => exact absurd hc hbad
  case h_4 hc =>
    obtain ⟨format, hfound⟩ := Option.ne_none_iff_exists'.mp (hformat hc)
    simp [hc, hfound, lsWords, simulateOpt, lsOpt, commandOpt]
  case h_10 hc => exact absurd hc hversion
  case h_11 hc => exact absurd hc hhelp
  case h_12 =>
    -- an option for `ls`
    rename_i h105 h118 h102 h111 h101 hls hcommand hsimulate _ _
    rw [if_neg (show e.c ≠ simulateOpt from hsimulate), if_neg (show e.c ≠ lsOpt from hls),
      if_neg (show e.c ≠ commandOpt from hcommand), if_neg h105, if_neg h118, if_neg h102, if_neg h111, if_neg h101]
  all_goals
    rename_i hc
    simp [hc, lsWords, simulateOpt, lsOpt, commandOpt]

theorem mainOption_error (st : Settings) (h : ¬ OptionAccepted e) : ∃ exit, mainOption st e = .error exit := by
  unfold mainOption
  split
  case h_1 => exact ⟨_, rfl⟩
  case h_4 =>
    rename_i hc
    split
    · exact ⟨_, rfl⟩
    · rename_i hfound
      refine absurd ⟨?_, ?_, ?_, fun _ => ?_⟩ h
      · simp [hc, questionMark]
      · simp [hc, versionOpt]
      · simp [hc, helpOpt]
      · simp [hfound]
  case h_10 => exact ⟨_, rfl⟩
  case h_11 => exact ⟨_, rfl⟩
  all_goals
    rename_i hc
    refine absurd ⟨?_, ?_, ?_, fun h102 => ?_⟩ h <;> simp_all [questionMark, versionOpt, helpOpt]

theorem foldlM_mainOption (h : ∀ e ∈ events, OptionAccepted e) :
    events.foldlM mainOption {} = .ok (settingsOf events) := by
  induction events using List.reverseRecOn with
  | nil => rfl
  | append_singleton events e ih =>
    rw [List.foldlM_append, ih fun e he => h e (List.mem_append_left _ he)]
    show (mainOption (settingsOf events) e >>= fun st => pure st) = _
    rw [mainOption_settingsOf events (h e (by simp))]
    rfl

theorem foldlM_mainOption_error (h : ¬ ∀ e ∈ events, OptionAccepted e) (st : Settings) :
    ∃ exit, events.foldlM mainOption st = .error exit := by
  induction events generalizing st with
  | nil => exact absurd (fun _ h => nomatch h) h
  | cons e events ih =>
    rw [List.foldlM_cons]
    by_cases he : OptionAccepted e
    · cases hst : mainOption st e with
      | error exit => exact ⟨exit, rfl⟩
      | ok st => exact ih (fun hall => h (List.forall_mem_cons.mpr ⟨he, hall⟩)) st
    · obtain ⟨exit, hexit⟩ := mainOption_error st he
      rw [hexit]
      exact ⟨exit, rfl⟩
end

section
variable {posixlyCorrect : Bool} {args : List CString} {fuel : Nat}

theorem mainOptions_ok (prog : CString) (hfuel : ((mainTable.grammar posixlyCorrect).parse args).events.length < fuel)
    (h : ∀ e ∈ ((mainTable.grammar posixlyCorrect).parse args).events, OptionAccepted e) :
    ∃ d argv, mainOptions posixlyCorrect fuel (prog :: args) =
        some ⟨.ok (settingsOf ((mainTable.grammar posixlyCorrect).parse args).events), d, argv⟩ ∧
      argv.drop d.optind = ((mainTable.grammar posixlyCorrect).parse args).operands := by
  obtain ⟨d, argv, hloop, hend⟩ := getoptLoop_ends (d := {}) mainTable posixlyCorrect mainOption (.inr ⟨rfl, rfl⟩) prog
    args {} hfuel
  rw [foldlM_mainOption h] at hloop hend
  obtain ⟨hargv, hoptind⟩ := hend _ rfl
  refine ⟨d, argv, hloop, ?_⟩
  rw [hargv, hoptind, Nat.add_comm, List.drop_succ_cons, List.drop_left]

theorem mainOptions_exit (prog : CString) (hfuel : ((mainTable.grammar posixlyCorrect).parse args).events.length < fuel)
    (h : ¬ ∀ e ∈ ((mainTable.grammar posixlyCorrect).parse args).events, OptionAccepted e) :
    ∃ exit d argv, mainOptions posixlyCorrect fuel (prog :: args) = some ⟨.error exit, d, argv⟩ := by
  obtain ⟨exit, hexit⟩ := foldlM_mainOption_error h {}
  obtain ⟨d, argv, hloop, -⟩ :=
    getoptLoop_ends (d := {}) mainTable posixlyCorrect mainOption (.inr ⟨rfl, rfl⟩) prog args {} hfuel
  rw [hexit] at hloop
  exact ⟨exit, d, argv, hloop⟩
end

/-- A command line is accepted if and only if each of its options is good, is none of `--version` and `--help`, and names
a format if it is `-f`. Then the last of each option counts, and the operands are left. -/
theorem mainOptions_settings (posixlyCorrect : Bool) (prog : CString) (args : List CString) {fuel : Nat}
    (hfuel : ((mainTable.grammar posixlyCorrect).parse args).events.length < fuel) :
    let p := (mainTable.grammar posixlyCorrect).parse args
    ∃ r, mainOptions posixlyCorrect fuel (prog :: args) = some r ∧
      ((∃ st, r.result = .ok st) ↔ ∀ e ∈ p.events, OptionAccepted e) ∧
      ∀ st, r.result = .ok st → st = settingsOf p.events ∧ r.argv.drop r.data.optind = p.operands := by
  intro p
  by_cases h : ∀ e ∈ p.events, OptionAccepted e
  · obtain ⟨d, argv, hr, hdrop⟩ := mainOptions_ok prog hfuel h
    refine ⟨_, hr, iff_of_true ⟨_, rfl⟩ h, ?_⟩
    rintro _ ⟨⟩
    exact ⟨rfl, hdrop⟩
  · obtain ⟨exit, d, argv, hr⟩ := mainOptions_exit prog hfuel h
    refine ⟨_, hr, iff_of_false ?_ h, ?_⟩
    · rintro ⟨st, ⟨⟩⟩
    · rintro st ⟨⟩

/-- `-v -f do x`. -/
theorem mainOptions_settings_format : ∃ r, mainOptions false 3 [[113], [dash, 118], [dash, 102], [100, 111], [120]] =
    some r ∧ ∃ st, r.result = .ok st ∧ st.format = .destinationOnly ∧ r.argv.drop r.data.optind = [[120]] := by
  obtain ⟨r, hr, hiff, hst⟩ := mainOptions_settings false [113] [[dash, 118], [dash, 102], [100, 111], [120]]
    (show _ < 3 by decide)
  have hall : ∀ e ∈ ((mainTable.grammar false).parse [[dash, 118], [dash, 102], [100, 111], [120]]).events,
      OptionAccepted e := by
    show ∀ e ∈ [({ c := 118 } : OptEvent), { c := 102, optarg := some [100, 111] }], OptionAccepted e
    simp only [List.forall_mem_cons, OptionAccepted]
    decide
  obtain ⟨st, hok⟩ := hiff.mpr hall
  obtain ⟨hsettings, hdrop⟩ := hst st hok
  exact ⟨r, hr, st, hok, hsettings ▸ rfl, hdrop⟩

/-- The long options of `ls` that `display_ls_help` lists are bad options on the command line, with or without an
argument, wherever the options before them are good. The `list` command knows them. -/
theorem mainOptions_refuses {n : LongOption} (hn : n ∈ lsOptionTable) (tail : CString)
    (htail : tail = [] ∨ tail.head? = some equals) (posixlyCorrect : Bool) (prog : CString) {before : List CString}
    {events : List OptEvent} (hbefore : (mainTable.grammar posixlyCorrect).Reads before events)
    (haccepted : ∀ e ∈ events, OptionAccepted e) (after : List CString) {fuel : Nat}
    (hfuel : ((mainTable.grammar posixlyCorrect).parse (before ++ (longWord n.name ++ tail) :: after)).events.length <
      fuel) :
    (∃ d argv, mainOptions posixlyCorrect fuel (prog :: (before ++ (longWord n.name ++ tail) :: after)) =
      some ⟨.error .badOption, d, argv⟩) ∧ longMatch n.name lsTable.longopts none [] = (some n, []) := by
  have hnone : ∀ n ∈ lsOptionTable, n.name ≠ [] ∧ equals ∉ n.name ∧ longMatch n.name optionTable none [] = (none, []) ∧
      longMatch n.name lsOptionTable none [] = (some n, []) := by decide
  obtain ⟨hne, hequals, hunknown, hknown⟩ := hnone n hn
  have hname : (n.name ++ tail).takeWhile (· ≠ equals) = n.name := by
    rw [takeWhile_name hequals]
    rcases htail with rfl | hhead
    · exact List.append_nil _
    · cases tail with
      | nil => cases hhead
      | cons c tail =>
        cases hhead
        simp
  have hkind : (mainTable.grammar posixlyCorrect).kind (longWord n.name ++ tail) =
      .options [mainTable.refuse questionMark (.unrecognized (n.name ++ tail))] := by
    refine (wordKind_long hne tail).trans ?_
    unfold OptTable.longKind
    simp only [hname]
    rw [show longMatch n.name mainTable.longopts none [] = (none, []) from hunknown]
  have hread := hbefore.append (reads_options hkind)
  have hevents : ((mainTable.grammar posixlyCorrect).parse (before ++ (longWord n.name ++ tail) :: after)).events =
      events ++ mainTable.refuse questionMark (.unrecognized (n.name ++ tail)) ::
        ((mainTable.grammar posixlyCorrect).parse after).events := by
    rw [List.append_cons, hread]
    simp [Parsed.prepend]
  obtain ⟨d, argv, hloop, -⟩ := getoptLoop_ends (d := {}) mainTable posixlyCorrect mainOption
    (.inr ⟨rfl, rfl⟩) prog (before ++ (longWord n.name ++ tail) :: after) {} hfuel
  refine ⟨⟨d, argv, hloop.trans ?_⟩, hknown⟩
  rw [hevents, List.foldlM_append, foldlM_mainOption haccepted]
  rfl

/-- `qmv -R --sort=size`. -/
theorem mainOptions_refuses_sort : ∃ d argv, mainOptions false 3 [[113], [dash, 82], longWith nSort vSize] =
    some ⟨.error .badOption, d, argv⟩ := by
  have hbefore : (mainTable.grammar false).Reads [[dash, 82]] [{ c := 82 }] := reads_options rfl
  have haccepted : ∀ e ∈ [({ c := 82 } : OptEvent)], OptionAccepted e := by
    simp only [List.forall_mem_cons, OptionAccepted]
    decide
  have hsort : (⟨nSort, .required, sortOpt⟩ : LongOption) ∈ lsOptionTable := by decide
  exact (mainOptions_refuses hsort (equals :: vSize) (.inr rfl) false [113] hbefore haccepted []
    (show _ < 3 by decide)).1

/-! ### The sessions of the program -/

/-- The argument of the option is the end of a word. -/
def EndOf (word : CString) (e : OptEvent) : Prop := ∀ arg ∈ e.optarg, arg <:+ word

/-- So are the arguments of the options of a word, but for that which is the next word. -/
def KindEndOf (word : CString) : Kind CString OptEvent → Prop
  | .options events => ∀ e ∈ events, EndOf word e
  | .takes events last => (∀ e ∈ events, EndOf word e) ∧ (last none).optarg = none ∧
      ∀ arg, (last (some arg)).optarg = some arg
  | _ => True

section
variable {t : OptTable} {posix : Bool} {word : CString} {e : OptEvent} {kind : Kind CString OptEvent}

theorem KindEndOf.cons (h : KindEndOf word kind) (he : EndOf word e) : KindEndOf word (kind.cons e) := by
  cases kind with
  | options events => exact List.forall_mem_cons.mpr ⟨he, h⟩
  | takes events last => exact ⟨List.forall_mem_cons.mpr ⟨he, h.1⟩, h.2⟩
  | _ => trivial

end

section
variable {φ δ : Type} {setup : Setup} {s : Session φ}

end

end Renameutils
