import Mathlib.Data.List.DropRight
import Renameutils.IcmdLaunch

/-!
# From the arguments to the command (`main`, `icmd.c`)

`icmdMain` is `main`: its own options, the files, and the loop in which the user edits the new name. It ends with
a command only if there is a new name, other than the old one, and asks before that is the name of a file
(`icmdMain_launches`).
-/

namespace Renameutils
open CString

/-- `--help`. -/
def helpOption : CString := [45, 45, 104, 101, 108, 112]

/-- `--version`. -/
def versionOption : CString := [45, 45, 118, 101, 114, 115, 105, 111, 110]

/-- `--command`. -/
def commandOption : CString := [45, 45, 99, 111, 109, 109, 97, 110, 100]

/-- `--arg-options`. -/
def argOptionsOption : CString := [45, 45, 97, 114, 103, 45, 111, 112, 116, 105, 111, 110, 115]

/-- `--pass-through`. -/
def passThroughOption : CString := [45, 45, 112, 97, 115, 115, 45, 116, 104, 114, 111, 117, 103, 104]

/-- `--command=`. -/
def commandEquals : CString := [45, 45, 99, 111, 109, 109, 97, 110, 100, 61]

/-- `--arg-options=`. -/
def argOptionsEquals : CString := [45, 45, 97, 114, 103, 45, 111, 112, 116, 105, 111, 110, 115, 61]

/-- `imv`. -/
def imv : CString := [105, 109, 118]

/-- `icp`. -/
def icp : CString := [105, 99, 112]

/-- `mv`. -/
def mvCommand : CString := [109, 118]

/-- `cp`. -/
def cpCommand : CString := [99, 112]

/-- `S,reply,suffix`. -/
def mvReqArgOptions : CString := [83, 44, 114, 101, 112, 108, 121, 44, 115, 117, 102, 102, 105, 120]

/-- `S,Z,no-preserve,sparse,suffix,context`. -/
def cpReqArgOptions : CString :=
  [83, 44, 90, 44, 110, 111, 45, 112, 114, 101, 115, 101, 114, 118, 101, 44, 115, 112, 97, 114, 115, 101, 44,
    115, 117, 102, 102, 105, 120, 44, 99, 111, 110, 116, 101, 120, 116]

/-! ### The options of `main` itself -/

structure OwnOptions where
  argOptions : CString := []
  command : Option CString := none
  passThrough : Bool := false

/-- How the loop over the own options ends: with the arguments from `argv[first_cmd_opt]` on, or before. -/
inductive OwnEnd
  | help
  | version
  | requiresArgument (option : CString)
  | done (o : OwnOptions) (rest : List CString)

def ownOptions (o : OwnOptions) : List CString → OwnEnd
  | [] => .done o []
  | arg :: args =>
    if arg = helpOption then .help
    else if arg = versionOption then .version
    else if arg = commandOption then
      match args with
      | [] => .requiresArgument (arg.drop 2)
      | value :: args => ownOptions { o with command := some value } args
    else if arg = argOptionsOption then
      match args with
      | [] => .requiresArgument (arg.drop 2)
      | value :: args => ownOptions { o with argOptions := value } args
    else if arg = passThroughOption then ownOptions { o with passThrough := true } args
    else if commandEquals.isPrefixOf arg then ownOptions { o with command := some (arg.drop 10) } args
    else if argOptionsEquals.isPrefixOf arg then ownOptions { o with argOptions := arg.drop 14 } args
    else .done o (arg :: args)

/-- What the name of the program sets. -/
def programOptions (programBaseName : CString) : OwnOptions :=
  if programBaseName = imv then { argOptions := mvReqArgOptions, command := some mvCommand }
  else if programBaseName = icp then { argOptions := cpReqArgOptions, command := some cpCommand }
  else {}

/-! ### The new name -/

/-- The bytes are moved to the front of the string that they are in; `memcpy` is taken to do that. -/
def trim (isspace : UInt8 → Bool) (str : CString) : CString := (str.rdropWhile isspace).dropWhile isspace

def isSlash (c : UInt8) : Bool := c = slash

/-- The loop of `last_component` of Gnulib. -/
def lastComponentLoop : CString → CString → Bool → CString
  | [], base, _ => base
  | c :: p, base, sawSlash =>
    if isSlash c then lastComponentLoop p base true
    else if sawSlash then lastComponentLoop p (c :: p) false
    else lastComponentLoop p base sawSlash

def lastComponent (name : CString) : CString :=
  let base := name.dropWhile isSlash
  lastComponentLoop base base false

/-- The loop of `base_len` of Gnulib. -/
def baseLenLoop (name : CString) : Nat → Nat
  | 0 => 0
  | 1 => 1
  | len + 2 => if isSlash (name.getD (len + 1) 0) then baseLenLoop name (len + 1) else len + 2

def baseLen (name : CString) : Nat := baseLenLoop name name.length

/-- `strip_trailing_slashes` of Gnulib. -/
def stripTrailingSlashes (file : CString) : CString :=
  let base := lastComponent file
  let base := if base = [] then file else base
  file.take (file.length - base.length + baseLen base)

/-- What the user does at a prompt: the line that `readline` gives, `none` at the end of the input, and what
`yesno` says if it is asked. -/
structure Answer where
  line : Option CString
  yes : Bool

/-- The name that the line gives. -/
def Answer.newname (isspace : UInt8 → Bool) (answer : Answer) : Option CString :=
  answer.line.map fun line => stripTrailingSlashes (trim isspace line)

inductive Prompted
  | launch (newname : CString)
  | noChanges

/-- The `for (;;)` of `main`: the texts that `readline` starts with, and how the loop ends. `none`: it waits for
the user. -/
def promptLoop (isspace : UInt8 → Bool) (fileExists : CString → Bool) (source : CString) :
    CString → List Answer → List CString × Option Prompted
  | firstText, [] => ([firstText], none)
  | firstText, answer :: answers =>
    match answer.newname isspace with
    | none => ([firstText], some .noChanges)
    | some newname =>
      if newname ≠ [] ∧ newname ≠ source then
        if fileExists newname && !answer.yes then
          let (texts, result) := promptLoop isspace fileExists source newname answers
          (firstText :: texts, result)
        else ([firstText], some (.launch newname))
      else ([firstText], some .noChanges)

/-! ### `main` -/

/-- What `main` depends on but for its arguments. -/
structure IcmdEnv where
  programBaseName : CString
  posixlyCorrect : Bool
  isspace : UInt8 → Bool
  lstat : CString → Bool
  fileExists : CString → Bool
  answers : List Answer

/-- How `main` ends: with a message, or with a call of `execvp`. -/
inductive IcmdEnd
  | help
  | version
  | requiresArgument (option : CString)
  | noCommand
  | badArguments (after : AfterScan)
  | exec (command : CString) (args : List CString)
  | cannotStat (srcfile : CString)
  | noChanges

/-- `main`, whose arguments from `argv[1]` on are `argv`. `none`: it waits for the user. The elements of `files[]`
are also those of `args[]`: the first argument that is not an own option has index 1. -/
def icmdMain (env : IcmdEnv) (argv : List CString) : Option IcmdEnd :=
  match ownOptions (programOptions env.programBaseName) argv with
  | .help => some .help
  | .version => some .version
  | .requiresArgument option => some (.requiresArgument option)
  | .done o rest =>
    match o.command with
    | none => some .noCommand
    | some command =>
      let s := scanArgs o.argOptions env.posixlyCorrect 1 rest .init
      match s.after o.passThrough with
      | .passEverything => some (.exec command (command :: rest))
      | .editName src =>
        let srcfile := (command :: rest).getD src []
        if !env.lstat srcfile then some (.cannotStat srcfile)
        else
          let source := stripTrailingSlashes srcfile
          match (promptLoop env.isspace env.fileExists source source env.answers).2 with
          | none => none
          | some .noChanges => some .noChanges
          | some (.launch newname) =>
            some (.exec command (command :: launchArgs env.posixlyCorrect s.noMoreOpts rest newname))
      | after => some (.badArguments after)

/-! ### Trailing slashes -/

section
variable {isspace : UInt8 → Bool} {fileExists : CString → Bool} {source firstText newname name : CString}
  {answers : List Answer}

theorem baseLenLoop_eq {len : Nat} (h : len ≤ name.length) : baseLenLoop name len =
    if (name.take len).all isSlash then min 1 len else ((name.take len).rdropWhile isSlash).length := by
  induction len with
  | zero => rfl
  | succ len ih =>
    have htake : name.take (len + 1) = name.take len ++ [name.getD len 0] := by
      rw [List.take_succ_eq_append_getElem h, List.getD_eq_getElem?_getD, List.getElem?_eq_getElem h, Option.getD_some]
    have hlength : (name.take len).length = len := List.length_take_of_le (Nat.le_of_succ_le h)
    cases len with
    | zero =>
      rw [htake, List.take_zero, List.nil_append, List.rdropWhile_singleton, baseLenLoop]
      generalize name.getD 0 0 = c
      cases hc : isSlash c <;> simp [hc]
    | succ len =>
      rw [baseLenLoop, htake, List.all_append, List.rdropWhile_concat, ih (Nat.le_of_succ_le h)]
      generalize name.getD (len + 1) 0 = c
      cases hc : isSlash c with
      | true => simp [hc]
      | false => simp [hc, hlength]

theorem lastComponentLoop_eq (p comp slashes : CString) (hne : comp ≠ []) (hcomp : ∀ c ∈ comp, isSlash c = false)
    (hslashes : slashes.all isSlash = true) :
    ∃ dir comp' slashes', comp ++ slashes ++ p = dir ++ (comp' ++ slashes') ∧ comp' ≠ [] ∧
      (∀ c ∈ comp', isSlash c = false) ∧ slashes'.all isSlash = true ∧
      lastComponentLoop p (comp ++ slashes ++ p) (!slashes.isEmpty) = comp' ++ slashes' := by
  induction p generalizing comp slashes with
  | nil => exact ⟨[], comp, slashes, by simp, hne, hcomp, hslashes, by simp [lastComponentLoop]⟩
  | cons c p ih =>
    rw [lastComponentLoop]
    cases hc : isSlash c with
    | true =>
      obtain ⟨dir, comp', slashes', heq, hrest⟩ := ih comp (slashes ++ [c]) hne hcomp
        (by simp [hslashes, hc])
      refine ⟨dir, comp', slashes', by rw [← heq]; simp, ?_⟩
      have hflag : (!(slashes ++ [c]).isEmpty) = true := by simp
      rw [hflag] at hrest
      rw [if_pos rfl, show comp ++ slashes ++ c :: p = comp ++ (slashes ++ [c]) ++ p by simp]
      exact hrest
    | false =>
      rw [if_neg (by decide)]
      cases slashes with
      | nil =>
        obtain ⟨dir, comp', slashes', heq, hrest⟩ := ih (comp ++ [c]) [] (by simp)
          (by simpa [or_imp, forall_and, hc] using hcomp) rfl
        refine ⟨dir, comp', slashes', by rw [← heq]; simp, ?_⟩
        rw [show comp ++ [] ++ c :: p = comp ++ [c] ++ [] ++ p by simp]
        exact hrest
      | cons d slashes =>
        obtain ⟨dir, comp', slashes', heq, hrest⟩ := ih [c] [] (by simp) (by simp [hc]) rfl
        refine ⟨comp ++ d :: slashes ++ dir, comp', slashes', ?_, ?_⟩
        · rw [List.append_assoc _ dir, ← heq]
          simp
        · exact hrest

theorem lastComponent_eq (hall : name.all isSlash = false) : ∃ dir comp slashes,
    name = dir ++ (comp ++ slashes) ∧ comp ≠ [] ∧ (∀ c ∈ comp, isSlash c = false) ∧
      slashes.all isSlash = true ∧ lastComponent name = comp ++ slashes := by
  have hname := List.takeWhile_append_dropWhile (p := isSlash) (l := name)
  unfold lastComponent
  cases hbase : name.dropWhile isSlash with
  | nil =>
    rw [hbase, List.append_nil] at hname
    rw [← hname, List.all_takeWhile] at hall
    cases hall
  | cons c p =>
    have hc : isSlash c = false := by
      have := List.head?_dropWhile_not isSlash name
      rw [hbase] at this
      simpa using this
    obtain ⟨dir, comp, slashes, heq, hrest⟩ := lastComponentLoop_eq p [c] [] (by simp) (by simp [hc]) rfl
    refine ⟨name.takeWhile isSlash ++ dir, comp, slashes, ?_, ?_⟩
    · rw [hbase] at hname
      rw [List.append_assoc, ← heq]
      exact hname.symm
    · dsimp only
      rw [lastComponentLoop, hc, if_neg (by decide), if_neg (by decide)]
      exact hrest

theorem rdropWhile_append_slashes {l slashes : CString} (hslashes : slashes.all isSlash = true)
    (hl : ∀ hne : l ≠ [], isSlash (l.getLast hne) = false) : (l ++ slashes).rdropWhile isSlash = l := by
  have hdrop : (l ++ slashes).rdropWhile isSlash = l.rdropWhile isSlash := by
    rw [List.rdropWhile, List.reverse_append, List.dropWhile_append_of_pos, List.rdropWhile]
    intro c hc
    exact List.all_eq_true.mp hslashes c (List.mem_reverse.mp hc)
  rw [hdrop, List.rdropWhile_eq_self_iff]
  intro hne
  rw [hl hne]
  decide

/-- `strip_trailing_slashes` removes the slashes at the end, and all but one of a string of slashes. -/
theorem stripTrailingSlashes_eq (name : CString) :
    stripTrailingSlashes name = if name.all isSlash then name.take 1 else name.rdropWhile isSlash := by
  cases hall : name.all isSlash with
  | true =>
    have hlast : lastComponent name = [] := by
      have : name.dropWhile isSlash = [] := by
        rw [List.dropWhile_eq_nil_iff]
        exact List.all_eq_true.mp hall
      simp [lastComponent, this, lastComponentLoop]
    have hlength : baseLen name = min 1 name.length := by
      rw [baseLen, baseLenLoop_eq (Nat.le_refl _), List.take_length, if_pos hall]
    rw [stripTrailingSlashes, hlast]
    simp only [if_true, Nat.sub_self, Nat.zero_add, hlength]
    exact List.take_eq_take_min.symm
  | false =>
    obtain ⟨dir, comp, slashes, rfl, hne, hcomp, hslashes, hlast⟩ := lastComponent_eq hall
    have hcomplast : ∀ hne : comp ≠ [], isSlash (comp.getLast hne) = false := fun hne =>
      hcomp _ (List.getLast_mem hne)
    have hcompall : (comp ++ slashes).all isSlash = false := by
      rw [List.all_append, hslashes, Bool.and_true, List.all_eq_false]
      exact ⟨_, List.getLast_mem hne, by simp [hcomplast hne]⟩
    have hlength : baseLen (comp ++ slashes) = comp.length := by
      rw [baseLen, baseLenLoop_eq (Nat.le_refl _), List.take_length, hcompall, if_neg (by decide),
        rdropWhile_append_slashes hslashes hcomplast]
    have hdir : ∀ hne' : dir ++ comp ≠ [], isSlash ((dir ++ comp).getLast hne') = false := by
      intro hne'
      rw [List.getLast_append_of_ne_nil _ hne]
      exact hcomplast hne
    have hbase : comp ++ slashes ≠ [] := by simp [hne]
    have hbefore : (dir ++ (comp ++ slashes)).length - (comp ++ slashes).length + comp.length =
        (dir ++ comp).length := by
      simp only [List.length_append]
      omega
    rw [stripTrailingSlashes, hlast, if_neg hbase, hlength, hbefore, ← List.append_assoc, List.take_left,
      if_neg (by decide), rdropWhile_append_slashes hslashes hdir]

theorem getLast?_stripTrailingSlashes (h : (stripTrailingSlashes name).getLast? = some slash) :
    stripTrailingSlashes name = [slash] := by
  rw [stripTrailingSlashes_eq] at h ⊢
  split
  · rename_i hall
    rw [if_pos hall] at h
    cases name with
    | nil => cases h
    | cons c name =>
      have hc : isSlash c = true := List.all_eq_true.mp hall c List.mem_cons_self
      rw [List.take_succ_cons, List.take_zero]
      exact congrArg (fun c => [c]) (of_decide_eq_true hc)
  · rename_i hall
    rw [if_neg hall] at h
    have hne : name.rdropWhile isSlash ≠ [] := by
      intro hnil
      rw [hnil] at h
      cases h
    have hnot := List.rdropWhile_last_not isSlash name hne
    rw [List.getLast?_eq_some_getLast hne] at h
    rw [Option.some.inj h] at hnot
    exact absurd rfl hnot

/-! ### The prompts -/

theorem promptLoop_launch
    (h : (promptLoop isspace fileExists source firstText answers).2 = some (.launch newname)) :
    newname ≠ [] ∧ newname ≠ source ∧
      ∃ answer ∈ answers, answer.newname isspace = some newname ∧ (fileExists newname = true → answer.yes = true) := by
  induction answers generalizing firstText with
  | nil => cases h
  | cons answer answers ih =>
    rw [promptLoop] at h
    cases hentered : answer.newname isspace with
    | none =>
      rw [hentered] at h
      cases h
    | some entered =>
      rw [hentered] at h
      dsimp only at h
      split at h
      · rename_i hname
        split at h
        · obtain ⟨hne, hsource, answer', hmem, hrest⟩ := ih h
          exact ⟨hne, hsource, answer', List.mem_cons_of_mem _ hmem, hrest⟩
        · rename_i hasks
          cases h
          refine ⟨hname.1, hname.2, answer, List.mem_cons_self, hentered, fun hexists => ?_⟩
          simpa [hexists] using hasks
      · cases h

/-! ### The command -/

/-- The command that is run on the name that the user has edited: `rest` are the arguments that are not options of
`main`, and its file is the one at `src`. -/
structure LaunchesEdited (env : IcmdEnv) (o : OwnOptions) (rest : List CString) (command : CString)
    (args : List CString) (src : Nat) (newname : CString) : Prop where
  vector : args = command ::
    launchArgs env.posixlyCorrect (scanArgs o.argOptions env.posixlyCorrect 1 rest .init).noMoreOpts rest newname
  files : (scanArgs o.argOptions env.posixlyCorrect 1 rest .init).files = [src]
  source : ∃ srcfile, args[src]? = some srcfile ∧ env.lstat srcfile = true ∧
    newname ≠ stripTrailingSlashes srcfile
  nonempty : newname ≠ []
  slash : newname.getLast? = some slash → newname = [Renameutils.slash]
  entered : ∃ answer ∈ env.answers, answer.newname env.isspace = some newname ∧
    (env.fileExists newname = true → answer.yes = true)
  operands : ∀ opts, o.argOptions = csvOf opts →
    agrees env.posixlyCorrect .bothRead (rest.map (argKind opts)) = true →
    endsAlike opts env.posixlyCorrect rest (scanArgs o.argOptions env.posixlyCorrect 1 rest .init).noMoreOpts = true →
    ∃ i, Renameutils.operands opts env.posixlyCorrect 1 args.tail = [src, i] ∧ args[i]? = some newname

end

theorem ownOptions_rest {o o' : OwnOptions} {args rest : List CString} (h : ownOptions o args = .done o' rest) :
    rest <:+ args := by
  have htwo : ∀ {arg value : CString} {args}, rest <:+ args → rest <:+ arg :: value :: args := fun h =>
    h.trans ((List.suffix_cons _ _).trans (List.suffix_cons _ _))
  have hone : ∀ {arg : CString} {args}, rest <:+ args → rest <:+ arg :: args := fun h =>
    h.trans (List.suffix_cons _ _)
  fun_induction ownOptions o args with
  | case1 => cases h; exact List.suffix_refl _
  | case2 => cases h
  | case3 => cases h
  | case4 => cases h
  | case5 => rename_i ih; exact htwo (ih h)
  | case6 => cases h
  | case7 => rename_i ih; exact htwo (ih h)
  | case8 => rename_i ih; exact hone (ih h)
  | case9 => rename_i ih; exact hone (ih h)
  | case10 => rename_i ih; exact hone (ih h)
  | case11 => cases h; exact List.suffix_refl _

section
variable {argOptions : CString} {posix : Bool} {c src : Nat} {rest args : List CString} {s : Scan}

theorem files_step (s : Scan) (argOptions : CString) (posix : Bool) (c : Nat) (arg : CString) :
    (s.step argOptions posix c arg).files = s.files ∨ (s.step argOptions posix c arg).files = s.files ++ [c] := by
  have hlong : (s.longOption argOptions arg).files = s.files := by
    unfold Scan.longOption
    dsimp only
    split <;> split <;> rfl
  have hshort : ∀ cluster, (s.shortOptions argOptions cluster).files = s.files := by
    intro cluster
    induction cluster with
    | nil => rfl
    | cons option rest ih =>
      rw [Scan.shortOptions]
      split
      · rfl
      · exact ih
  unfold Scan.step
  split
  · exact .inl rfl
  split
  · exact .inr rfl
  split
  · exact .inl rfl
  split
  · exact .inl hlong
  split
  · exact .inl (hshort _)
  · exact .inr rfl

theorem lt_of_mem_files {x : Nat} (h : x ∈ (scanArgs argOptions posix c rest s).files) :
    x ∈ s.files ∨ x < c + rest.length := by
  induction rest generalizing c s with
  | nil => exact .inl h
  | cons arg rest ih =>
    rw [List.length_cons]
    rcases ih h with hx | hx
    · rcases files_step s argOptions posix c arg with heq | heq <;> rw [heq] at hx
      · exact .inl hx
      · rcases List.mem_append.mp hx with hx | hx
        · exact .inl hx
        · obtain rfl := List.mem_singleton.mp hx
          exact .inr (by omega)
    · exact .inr (by omega)

theorem getElem?_newnameIndex (command newname : CString) (noMore : Bool) :
    (command :: launchArgs posix noMore rest newname)[newnameIndex posix noMore 1 rest]? = some newname := by
  unfold launchArgs newnameIndex
  split
  · rw [Nat.add_comm, List.getElem?_cons_succ, List.getElem?_append_right (Nat.le_refl _), Nat.sub_self]
    rfl
  · rw [show 1 + rest.length + 1 = rest.length + 1 + 1 by omega, List.getElem?_cons_succ,
      List.getElem?_append_right (Nat.le_succ _)]
    show [dashes, newname][rest.length + 1 - rest.length]? = some newname
    rw [Nat.add_sub_cancel_left]
    rfl

theorem getElem?_launchArgs (command newname : CString) (noMore : Bool) (h : src < 1 + rest.length) :
    (command :: launchArgs posix noMore rest newname)[src]? = some ((command :: rest).getD src []) := by
  have hlt : src < (command :: rest).length := by rw [List.length_cons]; omega
  have happend : ∀ tail, (command :: (rest ++ tail))[src]? = some ((command :: rest).getD src []) := by
    intro tail
    rw [← List.cons_append, List.getElem?_append_left hlt, List.getD_eq_getElem?_getD,
      List.getElem?_eq_getElem hlt, Option.getD_some]
  unfold launchArgs
  split
  · exact happend _
  · exact happend _

/-- When `main` ends with a command, all was passed to it as it is, or the user has edited a name. -/
theorem icmdMain_launches {env : IcmdEnv} {argv : List CString} {command : CString}
    (h : icmdMain env argv = some (.exec command args)) :
    ∃ o rest, ownOptions (programOptions env.programBaseName) argv = .done o rest ∧ rest <:+ argv ∧
      o.command = some command ∧
      (((scanArgs o.argOptions env.posixlyCorrect 1 rest .init).after o.passThrough = .passEverything ∧
          args = command :: rest) ∨
        ∃ src newname, LaunchesEdited env o rest command args src newname) := by
  unfold icmdMain at h
  split at h
  · cases h
  · cases h
  · cases h
  rename_i o rest hown
  split at h
  · cases h
  rename_i command' hcommand
  dsimp only at h
  split at h
  · rename_i hafter
    cases h
    exact ⟨o, rest, hown, ownOptions_rest hown, hcommand, .inl ⟨hafter, rfl⟩⟩
  · rename_i src hafter
    split at h
    · cases h
    rename_i hlstat
    split at h
    · cases h
    · cases h
    rename_i newname hprompt
    cases h
    have hfiles := Scan.files_of_editName hafter
    have hsrc : src < 1 + rest.length := by
      rcases lt_of_mem_files (hfiles ▸ List.mem_singleton_self src) with hmem | hlt
      · cases hmem
      · exact hlt
    obtain ⟨hne, hchanged, answer, hmem, hentered, hyes⟩ := promptLoop_launch hprompt
    obtain ⟨line, _, hnewname⟩ := Option.map_eq_some_iff.mp hentered
    refine ⟨o, rest, hown, ownOptions_rest hown, hcommand, .inr ⟨src, newname, rfl, hfiles,
      ⟨_, getElem?_launchArgs _ _ _ hsrc, by simpa using hlstat, hchanged⟩, hne, ?_, ⟨answer, hmem, hentered, hyes⟩,
      fun opts hopts hagrees hends => ?_⟩⟩
    · rw [← hnewname]
      exact getLast?_stripTrailingSlashes
    · rw [hopts] at hafter hends ⊢
      obtain ⟨htaken, hmore⟩ := taken_of_editName hafter
      exact ⟨_, operands_launchArgs_eq ((operandsBy_eq_iff htaken).mpr hagrees) hends hmore newname,
        getElem?_newnameIndex _ _ _⟩
  · cases h

end

/-- `imv a`, where the user enters `b`, a file that is to stay, and then `-c/`. -/
theorem icmdMain_launches_declined :
    let env : IcmdEnv := ⟨imv, false, (· = space), (· = [97]), (· = [98]),
      [⟨some [98, space], false⟩, ⟨some [dash, 99, slash], false⟩]⟩
    let args : List CString := [mvCommand, [97], dashes, [dash, 99]]
    icmdMain env [[97]] = some (.exec mvCommand args) ∧
      ∃ o, ownOptions (programOptions imv) [[97]] = .done o [[97]] ∧
        ∃ src newname, LaunchesEdited env o [[97]] mvCommand args src newname := by
  intro env args
  have hmain : icmdMain env [[97]] = some (.exec mvCommand args) := rfl
  obtain ⟨o, rest, hown, -, -, hend⟩ := icmdMain_launches hmain
  have hdone : ownOptions (programOptions imv) [[97]] = .done (programOptions imv) [[97]] := rfl
  cases hdone.symm.trans hown
  refine ⟨hmain, _, hdone, hend.resolve_left fun hpass => ?_⟩
  cases hpass.1

end Renameutils
