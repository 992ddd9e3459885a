import Renameutils.GetoptParse
import Renameutils.ListFiles

/-!
# The `list` command (`list_command`, `list.c`)

What is typed after `list` is read by `getopt_long`, put together anew by `process_ls_option` and `list_files`, and read
once more by `ls`, with a table of its own (`AcceptsLs` is what is relied on of it). `listCommand_ls` says that `ls` is
told what was typed: the options in their order, and for operands the operands, also those that look like options,
apart from the directories that are skipped.
-/

namespace Renameutils
open CString ArgSyntax Getopt

/-! ### The table -/

/-- The names of long options of `ls`. -/
def nAll : CString := [97, 108, 108]
def nAlmostAll : CString := [97, 108, 109, 111, 115, 116, 45, 97, 108, 108]
def nIgnoreBackups : CString := [105, 103, 110, 111, 114, 101, 45, 98, 97, 99, 107, 117, 112, 115]
def nDirectory : CString := [100, 105, 114, 101, 99, 116, 111, 114, 121]
def nReverse : CString := [114, 101, 118, 101, 114, 115, 101]
def nRecursive : CString := [114, 101, 99, 117, 114, 115, 105, 118, 101]
def nSort : CString := [115, 111, 114, 116]
def nTime : CString := [116, 105, 109, 101]
def nQuotingStyle : CString := [113, 117, 111, 116, 105, 110, 103, 45, 115, 116, 121, 108, 101]

/-- `ctime`, `atime`, `size`, `none` and `extension`. -/
def vCtime : CString := [99, 116, 105, 109, 101]
def vAtime : CString := [97, 116, 105, 109, 101]
def vSize : CString := [115, 105, 122, 101]
def vNone : CString := [110, 111, 110, 101]
def vExtension : CString := [101, 120, 116, 101, 110, 115, 105, 111, 110]

/-- `SORT_OPT` and `TIME_OPT`. -/
def sortOpt : Nat := 2000
def timeOpt : Nat := 2001

/-- `ls_option_table`. -/
def lsOptionTable : List LongOption :=
  [⟨nAll, .no, 97⟩, ⟨nAlmostAll, .no, 65⟩, ⟨nIgnoreBackups, .no, 66⟩, ⟨nDirectory, .no, 100⟩, ⟨nReverse, .no, 114⟩,
    ⟨nRecursive, .no, 82⟩, ⟨nSort, .required, sortOpt⟩, ⟨nTime, .required, timeOpt⟩]

/-- `"aABcdrRStuUX"` -/
def lsOptstring : CString := [97, 65, 66, 99, 100, 114, 82, 83, 116, 117, 85, 88]

def lsTable : OptTable where
  optstring := lsOptstring
  longopts := lsOptionTable

/-! ### The command -/

/-- `"--"` and the name of a long option. -/
def longWord (name : CString) : CString := dashes ++ name

/-- A long option with an argument. -/
def longWith (name value : CString) : CString := dashes ++ name ++ equals :: value

/-- What `process_ls_option` adds to `ls_options` for the option `c`, with `optarg`. -/
def lsWords (e : OptEvent) : List CString :=
  match e.c with
  | 97 => [longWord nAll]
  | 65 => [longWord nAlmostAll]
  | 66 => [longWord nIgnoreBackups]
  | 99 => [longWith nTime vCtime]
  | 100 => [longWord nDirectory]
  | 114 => [longWord nReverse]
  | 82 => [longWord nRecursive]
  | 83 => [longWith nSort vSize]
  | 2000 => [longWord nSort, e.optarg.getD []]
  | 116 => [longWith nSort nTime]
  | 2001 => [longWord nTime, e.optarg.getD []]
  | 117 => [longWith nTime vAtime]
  | 85 => [longWith nSort vNone]
  | 88 => [longWith nSort vExtension]
  | _ => []

/-- `process_ls_option`. -/
def processLsOption (o : LsOptions) (e : OptEvent) : LsOptions where
  program := o.program
  options := o.options ++ lsWords e
  directory := o.directory || e.c = 100

section
variable {δ φ : Type}

/-- What `list_command` leaves, with the call of `list_files` if there is one. -/
structure ListCommandResult (φ δ : Type) where
  options : LsOptions
  data : Data
  list : Option (ListResult φ δ)

/-- The body of the loop; a bad option ends the command. -/
def listOption (o : LsOptions) (e : OptEvent) : Except LsOptions LsOptions :=
  if e.c = questionMark then .error o else .ok (processLsOption o e)

/-- `list_command`. -/
def listCommand (posixlyCorrect : Bool) (fuel : Nat) (env : ListEnv δ) (d : Data) (args : List CString)
    (o : LsOptions) (w : WorkDir δ) (s : Session φ) : Option (ListCommandResult φ δ) :=
  let o := { o with options := [], directory := false }
  (getoptLoop lsTable posixlyCorrect listOption fuel { d with optind := 0 } args o).map fun r =>
    match r.result with
    | .error o => ⟨o, r.data, none⟩
    | .ok o => ⟨o, r.data, some (listFiles o env (r.argv.drop r.data.optind) w s)⟩

/-! ### The operands of `ls` -/

/-- The arguments that are not skipped because they are directories. -/
def keptArgs (o : LsOptions) (env : ListEnv δ) : List CString → List CString
  | [] => []
  | arg :: args =>
    if env.isDirectory (arg :: args) && !o.directory then keptArgs o env args else arg :: keptArgs o env args

/-- A directory that is the only argument is entered. -/
def lsOperands (o : LsOptions) (env : ListEnv δ) (args : List CString) : List CString :=
  if entersDirectory o env args then [dot] else keptArgs o env args

variable {o : LsOptions} {env : ListEnv δ} {args lsArgs : List CString} {firstdir : Option CString} {w w' : WorkDir δ}
  {s : Session φ} {x : Option CString × List CString}

theorem listArgs_kept (h : listArgs o env args false firstdir lsArgs w = (w', some x)) :
    x.2 = lsArgs ++ keptArgs o env args := by
  induction args generalizing firstdir lsArgs w with
  | nil =>
    cases h
    exact (List.append_nil _).symm
  | cons arg args ih =>
    unfold listArgs at h
    rw [if_neg (by simp), keptArgs] at *
    split at h
    · rename_i hdir
      rw [if_pos hdir]
      exact ih h
    · rename_i hdir
      rw [if_neg hdir, ih h]
      simp

theorem prepareLs_args (h : prepareLs o env args w = (w', some x)) :
    x.2 = [o.program, quotingStyleC] ++ o.options ++ [dashes] ++ lsOperands o env args := by
  unfold prepareLs at h
  rw [lsOperands]
  cases hent : entersDirectory o env args with
  | true =>
    rw [listArgs_enters hent] at h
    dsimp only at h
    split at h
    · cases h
      rfl
    · cases h
  | false =>
    cases args with
    | nil =>
      cases h
      exact (List.append_nil _).symm
    | cons arg args =>
      unfold listArgs at h
      split at h
      · rename_i hone
        obtain ⟨hdirectory, hempty⟩ : o.directory = false ∧ args = [] := by simpa using hone
        have hdir : env.isDirectory (arg :: args) = false := by
          simpa [entersDirectory, hdirectory, hempty] using hent
        rw [hdir, if_neg (by simp)] at h
        rw [listArgs_kept h, keptArgs, hdir, if_neg (by simp)]
        simp [dashes]
      · split at h
        · rename_i hdir
          rw [listArgs_kept h, keptArgs, if_pos hdir]
          rfl
        · rename_i hdir
          rw [listArgs_kept h, keptArgs, if_neg hdir]
          simp [dashes]

theorem listFiles_child {v : List CString} (h : (listFiles o env args w s).child = some v) :
    v = o.program :: (quotingStyleC :: o.options ++ dashes :: lsOperands o env args) := by
  unfold listFiles at h
  split at h
  · cases h
  · rename_i firstdir lsArgs hprepare
    have hargs := prepareLs_args hprepare
    dsimp only at h hargs
    have hchild : (if env.pipe && env.fork then some lsArgs else none) = some v := by
      split at h
      · exact h
      · split at h <;> exact h
    split at hchild
    · cases hchild
      rw [hargs]
      simp
    · cases hchild
end

/-! ### The table of `ls` -/

/-- The options that `ls` is given. -/
def lsNames : List (CString × HasArg) :=
  [(nAll, .no), (nAlmostAll, .no), (nIgnoreBackups, .no), (nDirectory, .no), (nReverse, .no), (nRecursive, .no),
    (nSort, .required), (nTime, .required), (nQuotingStyle, .required)]

/-- `ls` knows them. -/
def AcceptsLs (T : OptTable) : Prop :=
  ∀ n ∈ lsNames, ∃ val, T.longopts.find? (·.name = n.1) = some ⟨n.1, n.2, val⟩

/-- What `ls` gets from `getopt_long` for a long option. -/
def lsTold (T : OptTable) (name : CString) (arg : Option CString) : OptEvent where
  c := ((T.longopts.find? (·.name = name)).map (·.val)).getD 0
  optarg := arg

/-- What `ls` is to be told for an option of `list`. -/
def lsMeaning (T : OptTable) (e : OptEvent) : List OptEvent :=
  match e.c with
  | 97 => [lsTold T nAll none]
  | 65 => [lsTold T nAlmostAll none]
  | 66 => [lsTold T nIgnoreBackups none]
  | 99 => [lsTold T nTime (some vCtime)]
  | 100 => [lsTold T nDirectory none]
  | 114 => [lsTold T nReverse none]
  | 82 => [lsTold T nRecursive none]
  | 83 => [lsTold T nSort (some vSize)]
  | 2000 => [lsTold T nSort (some (e.optarg.getD []))]
  | 116 => [lsTold T nSort (some nTime)]
  | 2001 => [lsTold T nTime (some (e.optarg.getD []))]
  | 117 => [lsTold T nTime (some vAtime)]
  | 85 => [lsTold T nSort (some vNone)]
  | 88 => [lsTold T nSort (some vExtension)]
  | _ => []

section
variable {T : OptTable} {posix : Bool} {name value arg : CString} {found : LongOption} {e : OptEvent}

theorem longMatch_exact {ps : List LongOption} (h : ps.find? (·.name = name) = some found)
    (pfound : Option LongOption) (ambig : List LongOption) : longMatch name ps pfound ambig = (some found, []) := by
  induction ps generalizing pfound ambig with
  | nil => cases h
  | cons p ps ih =>
    unfold longMatch
    by_cases hname : p.name = name
    · rw [List.find?_cons_of_pos (by simpa using hname)] at h
      cases h
      rw [if_pos (by rw [← hname, List.take_length]), if_pos (by rw [hname])]
    · rw [List.find?_cons_of_neg (by simpa using hname)] at h
      split
      · rename_i hpre
        have hlength : name.length ≠ p.name.length := fun hlen => by
          rw [hlen, List.take_length] at hpre
          exact hname hpre
        rw [if_neg hlength]
        cases pfound with
        | none => exact ih h _ _
        | some q => exact ih h _ _
      · exact ih h _ _

theorem takeWhile_name (hequals : equals ∉ name) (tail : CString) :
    (name ++ tail).takeWhile (· ≠ equals) = name ++ tail.takeWhile (· ≠ equals) := by
  refine List.takeWhile_append_of_pos fun c hc => decide_eq_true ?_
  rintro rfl
  exact hequals hc

theorem wordKind_long (hne : name ≠ []) (tail : CString) :
    T.wordKind (dashes ++ name ++ tail) = T.longKind (dashes ++ name ++ tail) (name ++ tail) := by
  obtain ⟨c, name, rfl⟩ := List.exists_cons_of_ne_nil hne
  rw [OptTable.wordKind, if_neg (by simp [dashes]), if_neg (by simp [isNonoption, dashes])]
  exact if_pos rfl

theorem reads_long (h : T.longopts.find? (·.name = name) = some found) (hno : found.hasArg = .no) (hne : name ≠ [])
    (hequals : equals ∉ name) : (T.grammar posix).Reads [longWord name] [lsTold T name none] := by
  refine reads_options ?_
  have hword := wordKind_long (T := T) hne []
  rw [List.append_nil, List.append_nil] at hword
  have htake : name.takeWhile (· ≠ equals) = name := by simpa using takeWhile_name hequals []
  refine hword.trans ?_
  unfold OptTable.longKind
  simp only [htake, longMatch_exact h]
  rw [if_neg (by simpa using hequals), if_neg (by rw [hno]; nofun), lsTold, h]
  rfl

theorem reads_longWith (h : T.longopts.find? (·.name = name) = some found) (hrequired : found.hasArg = .required)
    (hne : name ≠ []) (hequals : equals ∉ name) (value : CString) :
    (T.grammar posix).Reads [longWith name value] [lsTold T name (some value)] := by
  refine reads_options ?_
  have htake : (name ++ equals :: value).takeWhile (· ≠ equals) = name := by
    rw [takeWhile_name hequals]
    simp
  refine (wordKind_long hne (equals :: value)).trans ?_
  unfold OptTable.longKind
  simp only [htake, longMatch_exact h]
  rw [if_pos (by simp), if_neg (by rw [hrequired]; nofun), lsTold, h]
  simp

theorem reads_longTakes (h : T.longopts.find? (·.name = name) = some found) (hrequired : found.hasArg = .required)
    (hne : name ≠ []) (hequals : equals ∉ name) (value : CString) :
    (T.grammar posix).Reads [longWord name, value] [lsTold T name (some value)] := by
  have hword := wordKind_long (T := T) hne []
  rw [List.append_nil, List.append_nil] at hword
  have htake : name.takeWhile (· ≠ equals) = name := by simpa using takeWhile_name hequals []
  have hkind : (T.grammar posix).kind (longWord name) =
      .takes [] (T.argument found.val (.requiresArgument found.name)) := by
    refine hword.trans ?_
    unfold OptTable.longKind
    simp only [htake, longMatch_exact h]
    rw [if_neg (by simpa using hequals), if_pos hrequired]
  have hevent : T.argument found.val (.requiresArgument found.name) (some value) = lsTold T name (some value) := by
    rw [lsTold, h]
    rfl
  rw [← hevent]
  exact reads_takes hkind value

theorem reads_lsWords (hT : AcceptsLs T) (e : OptEvent) : (T.grammar posix).Reads (lsWords e) (lsMeaning T e) := by
  have hno : ∀ {name}, (name, HasArg.no) ∈ lsNames → name ≠ [] → equals ∉ name →
      (T.grammar posix).Reads [longWord name] [lsTold T name none] := fun hmem hne hequals => by
    obtain ⟨val, hval⟩ := hT _ hmem
    exact reads_long hval rfl hne hequals
  have hwith : ∀ {name}, (name, HasArg.required) ∈ lsNames → name ≠ [] → equals ∉ name → ∀ value,
      (T.grammar posix).Reads [longWith name value] [lsTold T name (some value)] := fun hmem hne hequals value => by
    obtain ⟨val, hval⟩ := hT _ hmem
    exact reads_longWith hval rfl hne hequals value
  have htakes : ∀ {name}, (name, HasArg.required) ∈ lsNames → name ≠ [] → equals ∉ name → ∀ value,
      (T.grammar posix).Reads [longWord name, value] [lsTold T name (some value)] := fun hmem hne hequals value => by
    obtain ⟨val, hval⟩ := hT _ hmem
    exact reads_longTakes hval rfl hne hequals value
  unfold lsWords lsMeaning
  split <;> first
    | exact hno (by decide) (by decide) (by decide)
    | exact hwith (by decide) (by decide) (by decide) _
    | exact htakes (by decide) (by decide) (by decide) _
    | exact reads_nil

theorem listOption_bad {events : List OptEvent} (h : events.any (·.c = questionMark) = true) (o : LsOptions) :
    ∃ o', events.foldlM listOption o = .error o' := by
  induction events generalizing o with
  | nil => cases h
  | cons e events ih =>
    rw [List.foldlM_cons, listOption]
    by_cases hbad : e.c = questionMark
    · rw [if_pos hbad]
      exact ⟨o, rfl⟩
    · rw [if_neg hbad]
      exact ih (by simpa [hbad] using h) _

theorem listOption_good {events : List OptEvent} (h : events.any (·.c = questionMark) = false) (o : LsOptions) :
    events.foldlM listOption o =
      .ok ⟨o.program, o.options ++ events.flatMap lsWords, o.directory || events.any (·.c = 100)⟩ := by
  induction events generalizing o with
  | nil => simp [pure, Except.pure]
  | cons e events ih =>
    rw [List.any_cons, Bool.or_eq_false_iff, decide_eq_false_iff_not] at h
    rw [List.foldlM_cons, listOption, if_neg h.1]
    refine (ih h.2 _).trans ?_
    simp [processLsOption, Bool.or_assoc]

theorem parse_lsArgs (hT : AcceptsLs T) (events : List OptEvent) (operands : List CString) :
    ∃ options, (T.grammar posix).parse (quotingStyleC :: events.flatMap lsWords ++ dashes :: operands) =
      ⟨lsTold T nQuotingStyle (some [99]) :: events.flatMap (lsMeaning T), options, operands⟩ := by
  obtain ⟨val, hval⟩ := hT (nQuotingStyle, .required) (by decide)
  have hquoting : (T.grammar posix).Reads [quotingStyleC] [lsTold T nQuotingStyle (some [99])] :=
    reads_longWith hval rfl (by decide) (by decide) [99]
  have hdashes : (T.grammar posix).kind dashes = .terminator := (if_pos rfl : T.wordKind dashes = .terminator)
  have hall := hquoting.append (reads_flatMap (reads_lsWords hT) events)
  exact ⟨_, hall.terminated hdashes operands⟩
end

/-- The words after `list` are read as `parse` reads them. A bad option ends the command, and nothing is listed. Else
`list_files` lists the operands, and the `ls` that it runs reads its own arguments to the options that were typed, after
`--quoting-style=c`, and to the operands that were typed, without the directories that are skipped. Neither what earlier
commands have left to `getopt_long` nor the options that they had matter. -/
theorem listCommand_ls {δ φ : Type} {T : OptTable} (hT : AcceptsLs T) (posixlyCorrect posixlyCorrectLs : Bool)
    (env : ListEnv δ) (d : Data) (prog : CString) (args : List CString) (o : LsOptions) (w : WorkDir δ) (s : Session φ)
    {fuel : Nat} (hfuel : ((lsTable.grammar posixlyCorrect).parse args).events.length < fuel) :
    let p := (lsTable.grammar posixlyCorrect).parse args
    let o' : LsOptions := ⟨o.program, p.events.flatMap lsWords, p.events.any (·.c = 100)⟩
    ∃ r, listCommand posixlyCorrect fuel env d (prog :: args) o w s = some r ∧
      if p.events.any (·.c = questionMark) then r.list = none
      else
        r.list = some (listFiles o' env p.operands w s) ∧
          ∀ v, (listFiles o' env p.operands w s).child = some v → ∃ ls options,
            Ends T posixlyCorrectLs {} v ⟨lsTold T nQuotingStyle (some [99]) :: p.events.flatMap (lsMeaning T), ls,
              o.program :: (options ++ lsOperands o' env p.operands)⟩ ∧
            ls.optind = 1 + options.length := by
  intro p o'
  obtain ⟨d', argv', hloop, hend⟩ := getoptLoop_ends lsTable posixlyCorrect listOption
    (d := { d with optind := 0 }) (.inl rfl) prog args { o with options := [], directory := false } hfuel
  unfold listCommand
  dsimp only
  rw [hloop]
  refine ⟨_, rfl, ?_⟩
  by_cases hbad : p.events.any (·.c = questionMark) = true
  · obtain ⟨o₁, herror⟩ := listOption_bad hbad { o with options := [], directory := false }
    rw [if_pos hbad, herror]
  · have hgood := listOption_good (Bool.eq_false_iff.mpr hbad) { o with options := [], directory := false }
    obtain ⟨hargv, hoptind⟩ := hend _ hgood
    have hdrop : argv'.drop d'.optind = p.operands := by
      rw [hargv, hoptind, Nat.add_comm, List.drop_succ_cons, List.drop_left]
    rw [if_neg hbad, hgood]
    dsimp only
    rw [hdrop, List.nil_append, Bool.false_or]
    refine ⟨rfl, fun v hv => ?_⟩
    rw [listFiles_child hv]
    obtain ⟨options, hparse⟩ := @parse_lsArgs T posixlyCorrectLs hT p.events (lsOperands o' env p.operands)
    obtain ⟨ls, hends, hoptind⟩ := ends_parse (d := {}) T posixlyCorrectLs (.inr ⟨rfl, rfl⟩) o.program
      (quotingStyleC :: p.events.flatMap lsWords ++ dashes :: lsOperands o' env p.operands)
    rw [hparse] at hends hoptind
    exact ⟨ls, options, hends, hoptind⟩

/-- `list -a x`, where `x` is a file. -/
theorem listCommand_ls_all :
    let T : OptTable := { optstring := [], longopts := lsNames.map fun n => ⟨n.1, n.2, n.1.length⟩ }
    let env : ListEnv Unit := { isDirectory := fun _ => false, chdir := none, lines := [.entry [120]] }
    let o : LsOptions := ⟨[108, 115], [], false⟩
    let w : WorkDir Unit := ⟨dot, .none, ()⟩
    let s : Session Nat := .initial (Table.empty.put [120] 1) false .destinationOnly {}
    ∃ r v ls options, listCommand false 2 env {} [[108], [dash, 97], [120]] o w s = some r ∧
      r.list.bind (·.child) = some v ∧
      Ends T false {} v ⟨[lsTold T nQuotingStyle (some [99]), lsTold T nAll none], ls,
        o.program :: (options ++ [[120]])⟩ ∧ ls.optind = 1 + options.length := by
  intro T env o w s
  have hT : AcceptsLs T := fun n hn => ⟨n.1.length, by revert n; decide⟩
  obtain ⟨r, hr, hlist⟩ := listCommand_ls hT false false env {} [108] [[dash, 97], [120]] o w s (show 1 < 2 by decide)
  obtain ⟨hlisted, hchild⟩ := hlist
  obtain ⟨ls, options, hends, hoptind⟩ := hchild _ rfl
  exact ⟨r, _, ls, options, hr, by rw [hlisted]; rfl, hends, hoptind⟩

end Renameutils
