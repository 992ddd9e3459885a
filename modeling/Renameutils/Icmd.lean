import Renameutils.CString

/-!
# Files and options on the command line (`icmd.c`)

`main` collects in `files[]` the arguments that it takes for files; they are pointers into `argv`, here
indices. `operands` is what `getopt` leaves. Both depend on the arguments through their kinds alone
(`scanArgs_files`, `operands_eq`), and `Phase` says which of the two skips the next one.
-/

namespace Renameutils
open CString

def comma : UInt8 := 44
def equals : UInt8 := 61

/-- `--`. -/
def dashes : CString := [dash, dash]

/-- `--target-directory`. -/
def targetDirectory : CString :=
  [45, 45, 116, 97, 114, 103, 101, 116, 45, 100, 105, 114, 101, 99, 116, 111, 114, 121]

/-- The loop of `string_in_csv`; `n` is the number of characters from `p0` to `rest`, where `strchr` is. -/
def stringInCsvLoop (sep : UInt8) (value p0 : CString) (n : Nat) : CString → Bool
  | [] => p0 = value
  | c :: rest =>
    if c = sep then (n = value.length && p0.take value.length = value) || stringInCsvLoop sep value rest 0 rest
    else stringInCsvLoop sep value p0 (n + 1) rest

/-- `string_in_csv`. -/
def stringInCsv (csv : CString) (sep : UInt8) (value : CString) : Bool := stringInCsvLoop sep value csv 0 csv

/-- The variables of `main` that the loop over the arguments changes. -/
structure Scan where
  skipOptArg : Bool
  noMoreOpts : Bool
  hasTargetDir : Bool
  lastLongOpt : Option CString
  lastShortOpt : UInt8
  files : List Nat

namespace Scan

def init : Scan :=
  { skipOptArg := false, noMoreOpts := false, hasTargetDir := false, lastLongOpt := none, lastShortOpt := 0,
    files := [] }

/-- The branch for long options. -/
def longOption (s : Scan) (argOptions arg : CString) : Scan :=
  let s := if !arg.contains equals && stringInCsv argOptions comma (arg.drop 2) then
      { s with skipOptArg := true, lastLongOpt := some (arg.drop 2), lastShortOpt := 0 }
    else s
  if targetDirectory.isPrefixOf arg then { s with hasTargetDir := true } else s

/-- The branch for short options: the first of them that is in the list. -/
def shortOptions (s : Scan) (argOptions : CString) : CString → Scan
  | [] => s
  | option :: rest =>
    if stringInCsv argOptions comma [option] then
      { s with skipOptArg := true, lastLongOpt := none, lastShortOpt := option }
    else shortOptions s argOptions rest

/-- One turn of the loop: the argument `argv[c]`. -/
def step (s : Scan) (argOptions : CString) (posixlyCorrect : Bool) (c : Nat) (arg : CString) : Scan :=
  if s.skipOptArg then { s with skipOptArg := false }
  else if s.noMoreOpts then { s with files := s.files ++ [c] }
  else if arg = dashes then { s with noMoreOpts := true }
  else if arg.take 2 = dashes then s.longOption argOptions arg
  else if arg.head? = some dash then s.shortOptions argOptions arg.tail
  else { s with files := s.files ++ [c], noMoreOpts := s.noMoreOpts || posixlyCorrect }

end Scan

/-- The loop over the arguments from `argv[c]` on. -/
def scanArgs (argOptions : CString) (posixlyCorrect : Bool) : Nat → List CString → Scan → Scan
  | _, [], s => s
  | c, arg :: args, s => scanArgs argOptions posixlyCorrect (c + 1) args (s.step argOptions posixlyCorrect c arg)

/-- What `main` does after the loop. -/
inductive AfterScan
  | longRequiresArgument (option : CString)
  | shortRequiresArgument (option : UInt8)
  | missingFile
  | tooManyArguments
  | passEverything
  | editName (srcfile : Nat)

def Scan.after (s : Scan) (passThrough : Bool) : AfterScan :=
  if s.skipOptArg then
    match s.lastLongOpt with
    | some option => .longRequiresArgument option
    | none => .shortRequiresArgument s.lastShortOpt
  else
    match s.files with
    | [] => .missingFile
    | srcfile :: more =>
      if !passThrough && !more.isEmpty then .tooManyArguments
      else if !more.isEmpty || s.hasTargetDir then .passEverything
      else .editName srcfile

/-! ### The operands -/

/-- An option that requires an argument, as a list names it. -/
inductive ArgOption
  | short (letter : UInt8) (h : letter ≠ comma)
  | long (name : CString) (h : comma ∉ name)

namespace ArgOption

def text : ArgOption → CString
  | short letter _ => [letter]
  | long name _ => name

def isShort (letter : UInt8) : ArgOption → Bool
  | short l _ => l = letter
  | long _ _ => false

def isLong (name : CString) : ArgOption → Bool
  | short _ _ => false
  | long n _ => n = name

end ArgOption

/-- The list as `--arg-options` takes it. -/
def csvOf (opts : List ArgOption) : CString := [comma].intercalate (opts.map ArgOption.text)

/-- The first option of the cluster that is in the list takes the rest as its argument, or the next one. -/
def clusterConsumes (opts : List ArgOption) : CString → Bool
  | [] => false
  | option :: rest => if opts.any (·.isShort option) then rest.isEmpty else clusterConsumes opts rest

/-- The option `arg` takes the argument after it. -/
def consumesNext (opts : List ArgOption) (arg : CString) : Bool :=
  if arg.take 2 = dashes then !arg.contains equals && opts.any (·.isLong (arg.drop 2))
  else clusterConsumes opts arg.tail

/-- The operands among the arguments from `argv[c]` on. -/
def operands (opts : List ArgOption) (posixlyCorrect : Bool) : Nat → List CString → List Nat
  | _, [] => []
  | c, arg :: args =>
    if arg = dashes then List.range' (c + 1) args.length
    else if arg = [dash] ∨ arg.head? ≠ some dash then
      c :: if posixlyCorrect then List.range' (c + 1) args.length else operands opts posixlyCorrect (c + 1) args
    else if consumesNext opts arg then
      match args with
      | [] => []
      | _ :: args => operands opts posixlyCorrect (c + 2) args
    else operands opts posixlyCorrect (c + 1) args

/-! ### Kinds of arguments -/

/-- `greedy`: an option that `main` takes the next argument for, and `getopt` does not. -/
inductive ArgKind
  | terminator
  | dash
  | operand
  | consumes
  | greedy
  | other

/-- The option `arg` sets `skip_opt_arg`. -/
def skipsNext (argOptions arg : CString) : Bool :=
  if arg.take 2 = dashes then !arg.contains equals && stringInCsv argOptions comma (arg.drop 2)
  else arg.tail.any fun option => stringInCsv argOptions comma [option]

def argKind (opts : List ArgOption) (arg : CString) : ArgKind :=
  if arg = dashes then .terminator
  else if arg = [dash] then .dash
  else if arg.head? ≠ some dash then .operand
  else if consumesNext opts arg then .consumes
  else if skipsNext (csvOf opts) arg then .greedy
  else .other

/-- Who skips the next argument, because it is taken for the argument of an option. -/
inductive Phase
  | bothRead
  | icmdSkips
  | getoptSkips
  | bothSkip

/-- All that follows is taken, although options are still looked for. -/
def allTaken (posixlyCorrect : Bool) (p : ArgKind → Bool) (kinds : List ArgKind) : Bool :=
  if posixlyCorrect then kinds.head?.all p else kinds.all p

def ArgKind.isOperand : ArgKind → Bool
  | operand => true
  | _ => false

def ArgKind.isOperandOrDash : ArgKind → Bool
  | operand | dash => true
  | _ => false

/-- What one of the two skips alone is an option, not an operand. -/
def agrees (posixlyCorrect : Bool) : Phase → List ArgKind → Bool
  | _, [] => true
  | .bothRead, k :: kinds =>
    match k with
    | .terminator => true
    | .dash => false
    | .operand => posixlyCorrect || agrees posixlyCorrect .bothRead kinds
    | .consumes => agrees posixlyCorrect .bothSkip kinds
    | .greedy => agrees posixlyCorrect .icmdSkips kinds
    | .other => agrees posixlyCorrect .bothRead kinds
  | .icmdSkips, k :: kinds =>
    match k with
    | .terminator => allTaken posixlyCorrect ArgKind.isOperand kinds
    | .dash | .operand => false
    | .consumes => agrees posixlyCorrect .getoptSkips kinds
    | .greedy | .other => agrees posixlyCorrect .bothRead kinds
  | .getoptSkips, k :: kinds =>
    match k with
    | .terminator => allTaken posixlyCorrect ArgKind.isOperandOrDash kinds
    | .operand => false
    | .consumes | .greedy => agrees posixlyCorrect .icmdSkips kinds
    | .dash | .other => agrees posixlyCorrect .bothRead kinds
  | .bothSkip, _ :: kinds => agrees posixlyCorrect .bothRead kinds

/-! ### The list of options -/

theorem stringInCsvLoop_iff {sep : UInt8} {value p0 rest : CString} {n : Nat} (piece : CString)
    (hp0 : p0 = piece ++ rest) (hn : n = piece.length) (hsep : sep ∉ piece) :
    stringInCsvLoop sep value p0 n rest = true ↔ value ∈ p0.splitOn sep := by
  subst hp0 hn
  induction rest generalizing piece with
  | nil =>
    rw [List.append_nil, List.splitOn_eq_singleton hsep, List.mem_singleton, stringInCsvLoop,
      decide_eq_true_eq]
    exact eq_comm
  | cons c rest ih =>
    unfold stringInCsvLoop
    by_cases hc : c = sep
    · subst hc
      have hrest := ih [] (by simp)
      rw [List.nil_append, List.length_nil] at hrest
      rw [if_pos rfl, Bool.or_eq_true, hrest, List.splitOn_append_cons_self_of_not_mem hsep, List.mem_cons]
      refine or_congr ?_ Iff.rfl
      simp only [Bool.and_eq_true, decide_eq_true_eq]
      constructor
      · rintro ⟨hlen, htake⟩
        rw [← htake, ← hlen, List.take_left]
      · rintro rfl
        exact ⟨rfl, List.take_left⟩
    · have hpiece : sep ∉ piece ++ [c] := by simp [hsep, Ne.symm hc]
      have := ih (piece ++ [c]) hpiece
      rw [List.append_assoc, List.singleton_append, List.length_append] at this
      rw [if_neg hc]
      exact this

theorem stringInCsv_iff {csv value : CString} {sep : UInt8} :
    stringInCsv csv sep value = true ↔ value ∈ csv.splitOn sep :=
  stringInCsvLoop_iff [] rfl rfl (by simp)

section
variable {opts : List ArgOption} {posix : Bool} {arg : CString} {c : Nat} {kinds : List ArgKind}

theorem mem_csvOf {o : ArgOption} (h : o ∈ opts) : stringInCsv (csvOf opts) comma o.text = true := by
  have hcomma : ∀ text ∈ opts.map ArgOption.text, comma ∉ text := by
    intro text htext
    obtain ⟨o, _, rfl⟩ := List.mem_map.mp htext
    cases o with
    | short letter h => simpa [ArgOption.text] using Ne.symm h
    | long name h => exact h
  have hne : opts.map ArgOption.text ≠ [] := by simpa using List.ne_nil_of_mem h
  rw [stringInCsv_iff, csvOf, List.splitOn_intercalate comma hcomma hne]
  exact List.mem_map_of_mem h

theorem skipsNext_of_consumesNext (h : consumesNext opts arg = true) : skipsNext (csvOf opts) arg = true := by
  unfold consumesNext at h
  unfold skipsNext
  split
  · rename_i hlong
    rw [if_pos hlong, Bool.and_eq_true, List.any_eq_true] at h
    obtain ⟨hequals, o, ho, hname⟩ := h
    cases o with
    | short letter _ => cases hname
    | long name hcomma =>
      simp only [ArgOption.isLong, decide_eq_true_eq] at hname
      subst hname
      rw [hequals, Bool.true_and]
      exact mem_csvOf ho
  · rename_i hlong
    rw [if_neg hlong] at h
    generalize arg.tail = cluster at h ⊢
    induction cluster with
    | nil => cases h
    | cons option rest ih =>
      rw [clusterConsumes] at h
      rw [List.any_cons, Bool.or_eq_true]
      split at h
      · rename_i hshort
        obtain ⟨o, ho, hletter⟩ := List.any_eq_true.mp hshort
        cases o with
        | short letter hcomma =>
          simp only [ArgOption.isShort, decide_eq_true_eq] at hletter
          subst hletter
          exact .inl (mem_csvOf ho)
        | long name _ => cases hletter
      · exact .inr (ih h)

/-! ### The loop by kinds -/

/-- The arguments that the loop takes for files, from the flags `skip_opt_arg` and `no_more_opts`. -/
def taken (posix : Bool) : Bool → Bool → Nat → List ArgKind → List Nat
  | _, _, _, [] => []
  | true, noMore, c, _ :: kinds => taken posix false noMore (c + 1) kinds
  | false, true, c, _ :: kinds => c :: taken posix false true (c + 1) kinds
  | false, false, c, k :: kinds =>
    match k with
    | .terminator => taken posix false true (c + 1) kinds
    | .operand => c :: taken posix false posix (c + 1) kinds
    | .consumes | .greedy => taken posix true false (c + 1) kinds
    | .dash | .other => taken posix false false (c + 1) kinds

/-- The operands, where the first argument may be skipped. -/
def operandsBy (posix : Bool) : Bool → Nat → List ArgKind → List Nat
  | _, _, [] => []
  | true, c, _ :: kinds => operandsBy posix false (c + 1) kinds
  | false, c, k :: kinds =>
    match k with
    | .terminator => List.range' (c + 1) kinds.length
    | .dash | .operand =>
      c :: if posix then List.range' (c + 1) kinds.length else operandsBy posix false (c + 1) kinds
    | .consumes => operandsBy posix true (c + 1) kinds
    | .greedy | .other => operandsBy posix false (c + 1) kinds

/-- The three variables that decide which arguments are files. -/
def Scan.flags (s : Scan) : Bool × Bool × List Nat := (s.skipOptArg, s.noMoreOpts, s.files)

theorem flags_shortOptions (s : Scan) (argOptions cluster : CString) :
    (s.shortOptions argOptions cluster).flags =
      (s.skipOptArg || cluster.any (fun option => stringInCsv argOptions comma [option]), s.noMoreOpts, s.files) := by
  induction cluster with
  | nil => simp [Scan.shortOptions, Scan.flags]
  | cons option rest ih =>
    rw [Scan.shortOptions, List.any_cons]
    split
    · rename_i h
      simp [Scan.flags, h]
    · rename_i h
      rw [ih, Bool.eq_false_iff.mpr h, Bool.false_or]

theorem flags_longOption (s : Scan) (argOptions arg : CString) :
    (s.longOption argOptions arg).flags =
      (s.skipOptArg || (!arg.contains equals && stringInCsv argOptions comma (arg.drop 2)), s.noMoreOpts, s.files) := by
  unfold Scan.longOption
  by_cases h : (!arg.contains equals && stringInCsv argOptions comma (arg.drop 2)) = true
  · rw [if_pos h, h, Bool.or_true]
    split <;> rfl
  · rw [if_neg h, Bool.eq_false_iff.mpr h, Bool.or_false]
    split <;> rfl

theorem flags_step_option {s : Scan} (hskip : s.skipOptArg = false) (hmore : s.noMoreOpts = false)
    (hdashes : arg ≠ dashes) (hdash : arg.head? = some dash) :
    (s.step (csvOf opts) posix c arg).flags = (skipsNext (csvOf opts) arg, false, s.files) := by
  rw [Scan.step, if_neg (by simp [hskip]), if_neg (by simp [hmore]), if_neg hdashes, skipsNext]
  by_cases hlong : arg.take 2 = dashes
  · rw [if_pos hlong, if_pos hlong, flags_longOption, hskip, hmore, Bool.false_or]
  · rw [if_neg hlong, if_neg hlong, if_pos hdash, flags_shortOptions, hskip, hmore, Bool.false_or]

theorem flags_step {s : Scan} (hskip : s.skipOptArg = false) (hmore : s.noMoreOpts = false) :
    (s.step (csvOf opts) posix c arg).flags =
      match argKind opts arg with
      | .terminator => (false, true, s.files)
      | .operand => (false, posix, s.files ++ [c])
      | .consumes | .greedy => (true, false, s.files)
      | .dash | .other => (false, false, s.files) := by
  unfold argKind
  by_cases hdashes : arg = dashes
  · rw [if_pos hdashes, Scan.step, if_neg (by simp [hskip]), if_neg (by simp [hmore]), if_pos hdashes]
    simp [Scan.flags, hskip]
  rw [if_neg hdashes]
  by_cases hdash : arg = [dash]
  · rw [if_pos hdash, flags_step_option hskip hmore hdashes (by rw [hdash]; rfl), hdash]
    rfl
  rw [if_neg hdash]
  by_cases hhead : arg.head? = some dash
  · rw [if_neg (not_not.mpr hhead), flags_step_option hskip hmore hdashes hhead]
    by_cases hconsumes : consumesNext opts arg = true
    · rw [if_pos hconsumes, skipsNext_of_consumesNext hconsumes]
    · rw [if_neg hconsumes]
      by_cases hskips : skipsNext (csvOf opts) arg = true
      · rw [if_pos hskips, hskips]
      · rw [if_neg hskips, Bool.eq_false_iff.mpr hskips]
  · have hlong : arg.take 2 ≠ dashes := by
      intro h
      have := congrArg List.head? h
      rw [List.head?_take] at this
      exact hhead this
    rw [if_pos hhead, Scan.step, if_neg (by simp [hskip]), if_neg (by simp [hmore]), if_neg hdashes,
      if_neg hlong, if_neg hhead]
    simp [Scan.flags, hskip, hmore]

theorem scanArgs_files (args : List CString) (c : Nat) (s : Scan) :
    (scanArgs (csvOf opts) posix c args s).files =
      s.files ++ taken posix s.skipOptArg s.noMoreOpts c (args.map (argKind opts)) := by
  induction args generalizing c s with
  | nil => exact (List.append_nil _).symm
  | cons arg args ih =>
    rw [scanArgs, ih, List.map_cons]
    cases hskip : s.skipOptArg with
    | true =>
      have hstep : s.step (csvOf opts) posix c arg = { s with skipOptArg := false } := by
        rw [Scan.step, if_pos hskip]
      rw [hstep, taken]
    | false =>
      cases hmore : s.noMoreOpts with
      | true =>
        have hstep : s.step (csvOf opts) posix c arg = { s with files := s.files ++ [c] } := by
          rw [Scan.step, if_neg (by simp [hskip]), if_pos hmore]
        rw [hstep, taken, List.append_assoc, List.singleton_append, hskip, hmore]
      | false =>
        have hflags : (s.step (csvOf opts) posix c arg).flags = _ := flags_step hskip hmore
        cases hkind : argKind opts arg <;>
          (simp only [Scan.flags, hkind, Prod.mk.injEq] at hflags
           obtain ⟨h₁, h₂, h₃⟩ := hflags
           simp only [taken, h₁, h₂, h₃, List.append_assoc, List.singleton_append])

theorem operands_eq (args : List CString) (c : Nat) :
    operands opts posix c args = operandsBy posix false c (args.map (argKind opts)) := by
  induction hlen : args.length using Nat.strong_induction_on generalizing args c with
  | _ n ih =>
    cases args with
    | nil => rfl
    | cons arg args =>
      have htail : operands opts posix (c + 1) args = operandsBy posix false (c + 1) (args.map (argKind opts)) :=
        ih args.length (by simp at hlen; omega) args (c + 1) rfl
      rw [operands.eq_def, List.map_cons, argKind]
      dsimp only
      by_cases hdashes : arg = dashes
      · rw [if_pos hdashes, if_pos hdashes, operandsBy, List.length_map]
      rw [if_neg hdashes, if_neg hdashes]
      by_cases hdash : arg = [dash]
      · rw [if_pos (.inl hdash), if_pos hdash, htail, operandsBy, List.length_map]
      rw [if_neg hdash]
      by_cases hhead : arg.head? = some dash
      · rw [if_neg (not_or.mpr ⟨hdash, not_not.mpr hhead⟩), if_neg (not_not.mpr hhead)]
        by_cases hconsumes : consumesNext opts arg = true
        · rw [if_pos hconsumes, if_pos hconsumes, operandsBy]
          cases args with
          | nil => rfl
          | cons value args => exact ih args.length (by simp at hlen; omega) args (c + 2) rfl
        · rw [if_neg hconsumes, if_neg hconsumes, htail]
          by_cases hskips : skipsNext (csvOf opts) arg = true
          · rw [if_pos hskips, operandsBy]
          · rw [if_neg hskips, operandsBy]
      · rw [if_pos (.inr hhead), if_pos hhead, htail, operandsBy, List.length_map]

/-! ### Where the two agree -/

theorem le_of_mem_taken {skip noMore : Bool} {x : Nat} (h : x ∈ taken posix skip noMore c kinds) : c ≤ x := by
  induction kinds generalizing c skip noMore with
  | nil => simp [taken] at h
  | cons k kinds ih =>
    have hlater : ∀ skip noMore, x ∈ taken posix skip noMore (c + 1) kinds → c ≤ x := fun _ _ h =>
      Nat.le_of_succ_le (ih h)
    revert h
    cases skip with
    | true => exact hlater _ _
    | false =>
      have hcons : ∀ noMore, x ∈ c :: taken posix false noMore (c + 1) kinds → c ≤ x := fun _ h =>
        (List.mem_cons.mp h).elim (fun h => Nat.le_of_eq h.symm) (hlater _ _)
      cases noMore with
      | true => exact hcons _
      | false => cases k <;> first | exact hcons _ | exact hlater _ _

theorem le_of_mem_operandsBy {skip : Bool} {x : Nat} (h : x ∈ operandsBy posix skip c kinds) : c ≤ x := by
  have hrange : ∀ {c n}, x ∈ List.range' (c + 1) n → c ≤ x := fun h => by
    have := List.mem_range'_1.mp h
    omega
  induction kinds generalizing c skip with
  | nil => simp [operandsBy] at h
  | cons k kinds ih =>
    have hlater : ∀ skip, x ∈ operandsBy posix skip (c + 1) kinds → c ≤ x := fun _ h => Nat.le_of_succ_le (ih h)
    have hcons : x ∈ c :: (if posix then List.range' (c + 1) kinds.length else operandsBy posix false (c + 1) kinds) →
        c ≤ x := fun h => by
      rcases List.mem_cons.mp h with rfl | h
      · exact Nat.le_refl _
      · split at h
        · exact hrange h
        · exact hlater _ h
    revert h
    cases skip with
    | true => exact hlater _
    | false => cases k <;> first | exact hrange | exact hcons | exact hlater _

theorem taken_noMore (posix : Bool) (c : Nat) (kinds : List ArgKind) :
    taken posix false true c kinds = List.range' c kinds.length := by
  induction kinds generalizing c with
  | nil => rfl
  | cons k kinds ih => rw [taken, ih, List.length_cons, List.range'_succ]

theorem ne_cons_of_lt {xs ys : List Nat} (h : ∀ x ∈ xs, c < x) : xs ≠ c :: ys := by
  rintro rfl
  exact Nat.lt_irrefl c (h c List.mem_cons_self)

theorem taken_ne_cons {skip noMore : Bool} {xs : List Nat} : taken posix skip noMore (c + 1) kinds ≠ c :: xs :=
  ne_cons_of_lt fun _ => le_of_mem_taken

theorem operandsBy_ne_cons {skip : Bool} {xs : List Nat} : operandsBy posix skip (c + 1) kinds ≠ c :: xs :=
  ne_cons_of_lt fun _ => le_of_mem_operandsBy

theorem taken_eq_range (posix : Bool) (c : Nat) (kinds : List ArgKind) :
    taken posix false false c kinds = List.range' c kinds.length ↔
      allTaken posix ArgKind.isOperand kinds = true := by
  induction kinds generalizing c with
  | nil => cases posix <;> simp [taken, allTaken]
  | cons k kinds ih =>
    have hother : k.isOperand = false →
        (taken posix false false c (k :: kinds) = c :: List.range' (c + 1) kinds.length ↔
          allTaken posix ArgKind.isOperand (k :: kinds) = true) := by
      intro hk
      refine iff_of_false ?_ (by cases posix <;> simp [allTaken, hk])
      cases k with
      | operand => cases hk
      | _ => exact taken_ne_cons
    rw [List.length_cons, List.range'_succ]
    cases k with
    | operand =>
      rw [taken, List.cons_inj_right]
      cases posix with
      | true => simp [taken_noMore, allTaken, ArgKind.isOperand]
      | false =>
        rw [ih]
        simp [allTaken, ArgKind.isOperand]
    | _ => exact hother rfl

theorem operandsBy_eq_range (posix : Bool) (c : Nat) (kinds : List ArgKind) :
    operandsBy posix false c kinds = List.range' c kinds.length ↔
      allTaken posix ArgKind.isOperandOrDash kinds = true := by
  induction kinds generalizing c with
  | nil => cases posix <;> simp [operandsBy, allTaken]
  | cons k kinds ih =>
    have hoperand : k.isOperandOrDash = true →
        (c :: (if posix then List.range' (c + 1) kinds.length else operandsBy posix false (c + 1) kinds) =
          c :: List.range' (c + 1) kinds.length ↔ allTaken posix ArgKind.isOperandOrDash (k :: kinds) = true) := by
      intro hk
      rw [List.cons_inj_right]
      cases posix with
      | true => simp [allTaken, hk]
      | false =>
        rw [if_neg (by decide), ih]
        simp [allTaken, hk]
    have hother : k.isOperandOrDash = false → ∀ {xs}, xs ≠ c :: List.range' (c + 1) kinds.length →
        (xs = c :: List.range' (c + 1) kinds.length ↔ allTaken posix ArgKind.isOperandOrDash (k :: kinds) = true) :=
      fun hk _ hne => iff_of_false hne (by cases posix <;> simp [allTaken, hk])
    rw [List.length_cons, List.range'_succ]
    cases k with
    | operand => exact hoperand rfl
    | dash => exact hoperand rfl
    | terminator =>
      exact hother rfl (ne_cons_of_lt fun x hx => (List.mem_range'_1.mp hx).1)
    | _ => exact hother rfl operandsBy_ne_cons

def Phase.icmd : Phase → Bool
  | icmdSkips | bothSkip => true
  | bothRead | getoptSkips => false

def Phase.getopt : Phase → Bool
  | getoptSkips | bothSkip => true
  | bothRead | icmdSkips => false

/-- An index that only one of the two has is never made up for: all that follow are greater. -/
theorem taken_eq_iff (phase : Phase) (c : Nat) (kinds : List ArgKind) :
    taken posix phase.icmd false c kinds = operandsBy posix phase.getopt c kinds ↔
      agrees posix phase kinds = true := by
  induction kinds generalizing c phase with
  | nil => cases phase <;> simp [taken, operandsBy, agrees]
  | cons k kinds ih =>
    have hfalse : ∀ {xs ys : List Nat}, xs ≠ ys → (xs = ys ↔ false = true) := fun h => iff_of_false h (nomatch ·)
    cases phase with
    | bothSkip => exact ih .bothRead (c + 1)
    | bothRead =>
      cases k with
      | terminator => exact iff_of_true (taken_noMore _ _ _) rfl
      | dash => exact hfalse taken_ne_cons
      | operand =>
        refine (List.cons_inj_right c).trans ?_
        cases posix with
        | true => simp [taken_noMore, agrees]
        | false => exact ih .bothRead (c + 1)
      | consumes => exact ih .bothSkip (c + 1)
      | greedy => exact ih .icmdSkips (c + 1)
      | other => exact ih .bothRead (c + 1)
    | icmdSkips =>
      cases k with
      | terminator => exact taken_eq_range posix (c + 1) kinds
      | dash => exact hfalse taken_ne_cons
      | operand => exact hfalse taken_ne_cons
      | consumes => exact ih .getoptSkips (c + 1)
      | greedy => exact ih .bothRead (c + 1)
      | other => exact ih .bothRead (c + 1)
    | getoptSkips =>
      cases k with
      | terminator =>
        refine Iff.trans ?_ (operandsBy_eq_range posix (c + 1) kinds)
        refine Iff.trans (Eq.congr_left (taken_noMore posix (c + 1) kinds)) eq_comm
      | dash => exact ih .bothRead (c + 1)
      | operand => exact hfalse (Ne.symm operandsBy_ne_cons)
      | consumes => exact ih .icmdSkips (c + 1)
      | greedy => exact ih .icmdSkips (c + 1)
      | other => exact ih .bothRead (c + 1)

end

theorem Scan.files_of_editName {s : Scan} {passThrough : Bool} {srcfile : Nat}
    (h : s.after passThrough = .editName srcfile) : s.files = [srcfile] := by
  unfold Scan.after at h
  split at h
  · split at h <;> cases h
  · split at h
    · cases h
    · rename_i file more hfiles
      split at h
      · cases h
      · split at h
        · cases h
        · rename_i hpass
          simp only [Bool.or_eq_true, not_or, Bool.not_eq_true, Bool.not_eq_false'] at hpass
          rw [hfiles, List.isEmpty_iff.mp hpass.1]
          cases h
          rfl

/-- The files are the operands exactly when no operand is the argument that one of the two alone skips, and
no `-` is read by both. -/
theorem files_eq_operands_iff (opts : List ArgOption) (posixlyCorrect : Bool) (firstCmdOpt : Nat)
    (args : List CString) :
    (scanArgs (csvOf opts) posixlyCorrect firstCmdOpt args .init).files =
        operands opts posixlyCorrect firstCmdOpt args ↔
      agrees posixlyCorrect .bothRead (args.map (argKind opts)) = true := by
  rw [scanArgs_files, operands_eq]
  exact taken_eq_iff .bothRead firstCmdOpt _

/-- `imv -Sfoo a` takes `a` for the suffix. -/
theorem files_ne_operands_attached :
    ¬ ∀ opts posixlyCorrect firstCmdOpt args,
      (scanArgs (csvOf opts) posixlyCorrect firstCmdOpt args .init).files =
        operands opts posixlyCorrect firstCmdOpt args := fun h =>
  absurd (h [.short 83 (by decide), .long [114, 101, 112, 108, 121] (by decide),
    .long [115, 117, 102, 102, 105, 120] (by decide)] false 1 [[45, 83, 102, 111, 111], [97]]) (by decide)

end Renameutils
