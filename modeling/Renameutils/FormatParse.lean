import Renameutils.Icmd
import Renameutils.IntUtil
import Renameutils.Lib.Subopt
import Renameutils.Session

/-!
# The options of the edit formats (`parse_options`, `editformats/*.c`)

The three `parse_options` are one loop over `getsubopt` and differ in `option_array`, in what `reset_options` sets
and in the `switch`. `EditFormat.readOptions` is what an options text means, said of the list of its suboptions:
the last one of a name counts, and the text is refused for its first bad suboption (`parseOptions_classified`).
The options that a text can leave are those that fit the variables (`parseOptions_leaves_iff`).
-/

namespace Renameutils
open CString

/-- `help`. -/
def helpName : CString := [104, 101, 108, 112]

/-- `swap`. -/
def swapName : CString := [115, 119, 97, 112]

/-- `separate`. -/
def separateName : CString := [115, 101, 112, 97, 114, 97, 116, 101]

/-- `spaces`. -/
def spacesName : CString := [115, 112, 97, 99, 101, 115]

/-- `tabsize`. -/
def tabsizeName : CString := [116, 97, 98, 115, 105, 122, 101]

/-- `width`. -/
def widthName : CString := [119, 105, 100, 116, 104]

/-- `autowidth`. -/
def autowidthName : CString := [97, 117, 116, 111, 119, 105, 100, 116, 104]

/-- `indicator1`. -/
def indicator1Name : CString := [105, 110, 100, 105, 99, 97, 116, 111, 114, 49]

/-- `indicator2`. -/
def indicator2Name : CString := [105, 110, 100, 105, 99, 97, 116, 111, 114, 50]

/-- What a warning of `parse_options` tells. -/
inductive OptionWarning
  | unknownSuboption (value : CString)
  | takesNoArgument (name : CString)
  | missingArgument (name : CString)
  | invalidNumber (value name : CString)
deriving DecidableEq, Repr

/-- How the `switch` ends: with `break`, with the help, or with a warning. -/
inductive Handled (ω : Type)
  | set (options : ω)
  | help
  | rejected (warning : OptionWarning)

/-- What `parse_options` returns, the options after it, and the warning if there is one. -/
structure ParsedOptions (ω : Type) where
  result : Bool
  options : ω
  warning : Option OptionWarning := none
deriving DecidableEq, Repr

/-- `NO_ARGUMENT`. -/
def noArgument {ω : Type} (name : CString) (value : Option CString) (o : ω) : Handled ω :=
  match value with
  | some _ => .rejected (.takesNoArgument name)
  | none => .set o

/-- `REQUIRE_ARGUMENT`. -/
def requireArgument {ω : Type} (name : CString) (value : Option CString) (set : CString → Handled ω) : Handled ω :=
  match value with
  | none => .rejected (.missingArgument name)
  | some value => set value

/-- `option_array`, the options that `reset_options` sets, and the `switch`. -/
structure OptionParser (α ω : Type) where
  optionArray : List (CString × α)
  defaults : ω
  handle : α → Option CString → ω → Handled ω

namespace OptionParser
variable {α ω : Type}

/-- `while (*options != '\0')`. -/
def loop (p : OptionParser α ω) (options : CString) (o : ω) : ParsedOptions ω :=
  if _hne : options = [] then ⟨true, o, none⟩
  else
    let found := Subopt.getsubopt comma equals p.optionArray options
    match found.option with
    | none => ⟨false, p.defaults, some (.unknownSuboption (found.value.getD []))⟩
    | some c =>
      match p.handle c found.value o with
      | .set o => p.loop found.options o
      | .help => ⟨false, o, none⟩
      | .rejected warning => ⟨false, p.defaults, some warning⟩
termination_by options.length
decreasing_by
  rw [Subopt.getsubopt_options]
  exact Subopt.next_snd_length _hne

/-- `parse_options`. -/
def parseOptions (p : OptionParser α ω) (options : CString) : ParsedOptions ω := p.loop options p.defaults

end OptionParser

namespace DestinationOnly

inductive Opt | help | separate

def parser : OptionParser Opt Options where
  optionArray := [(helpName, .help), (separateName, .separate)]
  defaults := {}
  handle
    | .help, _, _ => .help
    | .separate, value, o => noArgument separateName value { o with separate := true }

def parseOptions : CString → ParsedOptions Options := parser.parseOptions

end DestinationOnly

namespace SingleColumn

inductive Opt | help | swap | separate | indicator1 | indicator2

def parser : OptionParser Opt Options where
  optionArray := [(helpName, .help), (swapName, .swap), (separateName, .separate), (indicator1Name, .indicator1),
    (indicator2Name, .indicator2)]
  defaults := {}
  handle
    | .help, _, _ => .help
    | .swap, value, o => noArgument swapName value { o with swap := true }
    | .separate, value, o => noArgument separateName value { o with separate := true }
    | .indicator1, value, o => requireArgument indicator1Name value fun value => .set { o with indicator1 := value }
    | .indicator2, value, o => requireArgument indicator2Name value fun value => .set { o with indicator2 := value }

def parseOptions : CString → ParsedOptions Options := parser.parseOptions

end SingleColumn

namespace DualColumn

inductive Opt | help | swap | separate | spaces | tabsize | width | autowidth | indicator1 | indicator2

def parser : OptionParser Opt Options where
  optionArray := [(helpName, .help), (swapName, .swap), (separateName, .separate), (spacesName, .spaces),
    (tabsizeName, .tabsize), (widthName, .width), (autowidthName, .autowidth), (indicator1Name, .indicator1),
    (indicator2Name, .indicator2)]
  defaults := {}
  handle
    | .help, _, _ => .help
    | .swap, value, o => noArgument swapName value { o with swap := true }
    | .separate, value, o => noArgument separateName value { o with separate := true }
    | .spaces, value, o => noArgument spacesName value { o with useSpaces := true }
    | .tabsize, value, o => requireArgument tabsizeName value fun value =>
      let parsed := parseUint16 value o.tabsize
      if !parsed.result then .rejected (.invalidNumber value tabsizeName)
      else .set { o with tabsize := parsed.outint.toNat }
    | .width, value, o => requireArgument widthName value fun value =>
      let parsed := parseUint16 value o.width
      if !parsed.result then .rejected (.invalidNumber value widthName)
      else .set { o with width := parsed.outint.toNat, autowidth := false }
    | .autowidth, value, o => noArgument autowidthName value { o with autowidth := true }
    | .indicator1, value, o => requireArgument indicator1Name value fun value => .set { o with indicator1 := value }
    | .indicator2, value, o => requireArgument indicator2Name value fun value => .set { o with indicator2 := value }

def parseOptions : CString → ParsedOptions Options := parser.parseOptions

end DualColumn

/-- The options of one format are put beside those of the others. -/
def ParsedOptions.map {ω ω' : Type} (f : ω → ω') (r : ParsedOptions ω) : ParsedOptions ω' :=
  ⟨r.result, f r.options, r.warning⟩

/-- `format->parse_options`. -/
def EditFormat.parseOptions (o : FormatOptions) (options : CString) : EditFormat → ParsedOptions FormatOptions
  | destinationOnly => (DestinationOnly.parseOptions options).map fun d => { o with destinationOnly := d }
  | singleColumn => (SingleColumn.parseOptions options).map fun s => { o with singleColumn := s }
  | dualColumn => (DualColumn.parseOptions options).map fun d => { o with dualColumn := d }

/-! ### What an options text means -/

/-- A suboption as it is written. -/
abbrev Setting := CString × Option CString

/-- The kinds of suboptions. -/
inductive SettingKind
  | help
  | flag
  | number
  | text
deriving DecidableEq, Repr

/-- A numeral that fits `uint16_t`. The empty one is 0. -/
def fitsUint16 (value : CString) : Bool := value.all isDigit && numberAfter 0 value ≤ 65535

/-- What is wrong with a suboption of some kind. -/
def SettingKind.warning : SettingKind → Setting → Option OptionWarning
  | flag, (name, some _) => some (.takesNoArgument name)
  | number, (name, none) | text, (name, none) => some (.missingArgument name)
  | number, (name, some value) => if fitsUint16 value then none else some (.invalidNumber value name)
  | _, _ => none

/-- The setting of a name that counts. -/
def lastSetting (name : CString) (ss : List Setting) : Option (Option CString) := ss.reverse.lookup name

def isNamed (name : CString) (ss : List Setting) : Bool := (lastSetting name ss).isSome

def textOf (name : CString) (ss : List Setting) : CString := (lastSetting name ss).join.getD []

def numberOf (name : CString) (default : Nat) (ss : List Setting) : Nat :=
  (lastSetting name ss).join.elim default (numberAfter 0)

/-- No `width` comes after the last `autowidth`. -/
def autowidthOf (ss : List Setting) : Bool :=
  (ss.reverse.find? fun s => s.1 = widthName || s.1 = autowidthName).all fun s => s.1 = autowidthName

namespace EditFormat

/-- The suboptions of a format. -/
def kinds : EditFormat → List (CString × SettingKind)
  | destinationOnly => [(helpName, .help), (separateName, .flag)]
  | singleColumn => [(helpName, .help), (swapName, .flag), (separateName, .flag), (indicator1Name, .text),
    (indicator2Name, .text)]
  | dualColumn => [(helpName, .help), (swapName, .flag), (separateName, .flag), (spacesName, .flag),
    (tabsizeName, .number), (widthName, .number), (autowidthName, .flag), (indicator1Name, .text),
    (indicator2Name, .text)]

/-- The options that settings stand for. -/
def meaning (o : FormatOptions) (ss : List Setting) : EditFormat → FormatOptions
  | destinationOnly => { o with destinationOnly := { separate := isNamed separateName ss } }
  | singleColumn =>
    { o with
      singleColumn :=
        { swap := isNamed swapName ss
          separate := isNamed separateName ss
          indicator1 := textOf indicator1Name ss
          indicator2 := textOf indicator2Name ss } }
  | dualColumn =>
    { o with
      dualColumn :=
        { width := numberOf widthName 40 ss
          tabsize := numberOf tabsizeName 8 ss
          swap := isNamed swapName ss
          useSpaces := isNamed spacesName ss
          separate := isNamed separateName ss
          autowidth := autowidthOf ss
          indicator1 := textOf indicator1Name ss
          indicator2 := textOf indicator2Name ss } }

/-- What is wrong with a suboption. -/
def warning (format : EditFormat) (s : Setting) : Option OptionWarning :=
  match format.kinds.lookup s.1 with
  | none => some (.unknownSuboption (Subopt.write equals s.1 s.2))
  | some kind => kind.warning s

/-- Settings are read up to the first that is `help` or wrong. -/
def readSettings (format : EditFormat) (o : FormatOptions) (read : List Setting) :
    List Setting → ParsedOptions FormatOptions
  | [] => ⟨true, format.meaning o read, none⟩
  | s :: rest =>
    if s.1 = helpName then ⟨false, format.meaning o read, none⟩
    else match format.warning s with
      | some warning => ⟨false, format.meaning o [], some warning⟩
      | none => format.readSettings o (read ++ [s]) rest

/-- What `parse_options` should make of a text. -/
def readOptions (format : EditFormat) (o : FormatOptions) (options : CString) : ParsedOptions FormatOptions :=
  format.readSettings o [] (Subopt.suboptions comma equals options)

end EditFormat

/-! ### The loop and the settings -/

namespace OptionParser
variable {α ω : Type} {p : OptionParser α ω} {text : CString} {o : ω}

/-- What the `switch` does with a suboption, or the warning for one that is not in `option_array`. -/
def settle (p : OptionParser α ω) (s : Setting) (o : ω) : Handled ω :=
  match p.optionArray.lookup s.1 with
  | none => .rejected (.unknownSuboption (Subopt.write equals s.1 s.2))
  | some c => p.handle c s.2 o

/-- The loop, over the suboptions. -/
def run (p : OptionParser α ω) : List Setting → ω → ParsedOptions ω
  | [], o => ⟨true, o, none⟩
  | s :: rest, o =>
    match p.settle s o with
    | .set o => p.run rest o
    | .help => ⟨false, o, none⟩
    | .rejected warning => ⟨false, p.defaults, some warning⟩

theorem loop_eq (p : OptionParser α ω) (text : CString) (o : ω) :
    p.loop text o = p.run (Subopt.suboptions comma equals text) o := by
  induction text using Subopt.suboption_induction comma generalizing o with
  | nil => rw [loop, dif_pos rfl, Subopt.suboptions_nil, run]
  | next text hne ih =>
    rw [loop, dif_neg hne, Subopt.suboptions_eq hne, run, settle, Subopt.getsubopt_eq]
    cases p.optionArray.lookup (Subopt.parts equals (Subopt.next comma text).1).1 with
    | none => simp only [Subopt.write_parts, Option.getD_some]
    | some c =>
      simp only
      cases p.handle c (Subopt.parts equals (Subopt.next comma text).1).2 o with
      | set o => exact ih o
      | help => rfl
      | rejected warning => rfl

/-- `meaning` says what the settings make of the options, and `format` what the parser thinks of the next one. -/
structure Reads (p : OptionParser α ω) (format : EditFormat) (meaning : List Setting → ω) : Prop where
  defaults : p.defaults = meaning []
  settle : ∀ read s, p.settle s (meaning read) =
    if s.1 = helpName then .help
    else match format.warning s with
      | some warning => .rejected warning
      | none => .set (meaning (read ++ [s]))

theorem Reads.run_eq {format : EditFormat} {meaning : List Setting → ω} (h : p.Reads format meaning)
    {f : ω → FormatOptions} {o : FormatOptions} (hf : ∀ ss, f (meaning ss) = format.meaning o ss)
    (read ss : List Setting) : (p.run ss (meaning read)).map f = format.readSettings o read ss := by
  induction ss generalizing read with
  | nil =>
    rw [run, EditFormat.readSettings, ← hf]
    rfl
  | cons s ss ih =>
    rw [run, EditFormat.readSettings, h.settle]
    by_cases hhelp : s.1 = helpName
    · rw [if_pos hhelp, if_pos hhelp, ← hf]
      rfl
    · rw [if_neg hhelp, if_neg hhelp]
      cases format.warning s with
      | none => exact ih (read ++ [s])
      | some warning =>
        rw [← hf, ← h.defaults]
        rfl

end OptionParser

section
variable {name : CString} {ss : List Setting} {s : Setting}

@[simp] theorem lastSetting_snoc :
    lastSetting name (ss ++ [s]) = if s.1 = name then some s.2 else lastSetting name ss := by
  obtain ⟨name', value⟩ := s
  rw [lastSetting, List.reverse_append, List.reverse_singleton, List.singleton_append, List.lookup_cons]
  by_cases h : name' = name
  · simp [h]
  · rw [beq_eq_false_iff_ne.mpr (Ne.symm h), if_neg h, lastSetting]

@[simp] theorem isNamed_snoc : isNamed name (ss ++ [s]) = (decide (s.1 = name) || isNamed name ss) := by
  rw [isNamed, lastSetting_snoc]
  split
  · simp [*]
  · simp [*, isNamed]

@[simp] theorem textOf_snoc :
    textOf name (ss ++ [s]) = if s.1 = name then s.2.getD [] else textOf name ss := by
  rw [textOf, lastSetting_snoc]
  split
  · rfl
  · rfl

@[simp] theorem numberOf_snoc {n : Nat} :
    numberOf name n (ss ++ [s]) = if s.1 = name then s.2.elim n (numberAfter 0) else numberOf name n ss := by
  rw [numberOf, lastSetting_snoc]
  split
  · rfl
  · rfl

@[simp] theorem autowidthOf_snoc : autowidthOf (ss ++ [s]) =
    if s.1 = widthName then false else if s.1 = autowidthName then true else autowidthOf ss := by
  have hne : widthName ≠ autowidthName := by decide
  rw [autowidthOf, List.reverse_append, List.reverse_singleton, List.singleton_append, List.find?_cons]
  by_cases hwidth : s.1 = widthName
  · simp [hwidth, hne]
  · by_cases hauto : s.1 = autowidthName
    · simp [hauto, hne.symm]
    · simp [hwidth, hauto, autowidthOf]

end

theorem parseUint16_eq (value : CString) (outint : Int) :
    (parseUint16 value outint).result = fitsUint16 value ∧
      (fitsUint16 value = true → (parseUint16 value outint).outint = numberAfter 0 value) := by
  have hconv : ∀ x, 0 ≤ x → x ≤ (IntType.unsigned 16).max → (IntType.unsigned 16).convert x = x :=
    fun x => IntType.convert_unsigned 16
  have hspec := (positiveLoop_spec (n := 0) (s := value) hconv (by decide)).1
  have hmax : (IntType.unsigned 16).max = 65535 := by decide
  have hfits : fitsUint16 value = true ↔ (∀ ch ∈ value, isDigit ch = true) ∧ numberAfter 0 value ≤ 65535 := by
    rw [fitsUint16, Bool.and_eq_true, List.all_eq_true, decide_eq_true_eq]
  have hsome : fitsUint16 value = true →
      (positiveLoop (.unsigned 16) value 0).value = some (numberAfter 0 value : Int) := by
    intro h
    obtain ⟨hdigits, hle⟩ := hfits.mp h
    exact (hspec _).mpr ⟨hdigits, rfl, hmax ▸ Int.ofNat_le.mpr hle⟩
  constructor
  · rw [Bool.eq_iff_iff]
    constructor
    · intro h
      obtain ⟨v, hv⟩ := Option.isSome_iff_exists.mp h
      obtain ⟨hdigits, hval, hle⟩ := (hspec v).mp hv
      rw [hval, hmax] at hle
      exact hfits.mpr ⟨hdigits, Int.ofNat_le.mp hle⟩
    · intro h
      exact Option.isSome_iff_exists.mpr ⟨_, hsome h⟩
  · intro h
    exact congrArg (Option.getD · outint) (hsome h)

theorem lookup_columns {α κ : Type} (table : List (CString × α × κ)) (name : CString) :
    (∃ c kind, (name, c, kind) ∈ table ∧ (table.map fun x => (x.1, x.2.1)).lookup name = some c ∧
      (table.map fun x => (x.1, x.2.2)).lookup name = some kind) ∨
    (table.map fun x => (x.1, x.2.1)).lookup name = none ∧
      (table.map fun x => (x.1, x.2.2)).lookup name = none := by
  induction table with
  | nil => exact Or.inr ⟨rfl, rfl⟩
  | cons x table ih =>
    by_cases h : name = x.1
    · subst h
      exact Or.inl ⟨x.2.1, x.2.2, List.mem_cons_self, by simp, by simp⟩
    · have hbeq : (name == x.1) = false := beq_eq_false_iff_ne.mpr h
      rcases ih with ⟨c, kind, hmem, hc, hkind⟩ | ⟨hc, hkind⟩
      · refine Or.inl ⟨c, kind, List.mem_cons_of_mem _ hmem, ?_, ?_⟩
        · rw [List.map_cons, List.lookup_cons, hbeq]
          exact hc
        · rw [List.map_cons, List.lookup_cons, hbeq]
          exact hkind
      · refine Or.inr ⟨?_, ?_⟩
        · rw [List.map_cons, List.lookup_cons, hbeq]
          exact hc
        · rw [List.map_cons, List.lookup_cons, hbeq]
          exact hkind

section
variable {ω : Type} {name : CString} {value : Option CString} {o o' : ω}

theorem noArgument_eq (h : value = none → o = o') : noArgument name value o =
    match SettingKind.flag.warning (name, value) with
    | some warning => .rejected warning
    | none => .set o' := by
  cases value with
  | none => exact congrArg Handled.set (h rfl)
  | some value => rfl

theorem requireArgument_text {set : CString → Handled ω} (h : ∀ v, value = some v → set v = .set o') :
    requireArgument name value set =
      match SettingKind.text.warning (name, value) with
      | some warning => .rejected warning
      | none => .set o' := by
  cases value with
  | none => rfl
  | some value => exact h value rfl

theorem requireArgument_number {outint : Int} (set : Nat → ω)
    (h : ∀ v, value = some v → set (numberAfter 0 v) = o') :
    requireArgument name value (fun value =>
      let parsed := parseUint16 value outint
      if !parsed.result then .rejected (.invalidNumber value name) else .set (set parsed.outint.toNat)) =
      match SettingKind.number.warning (name, value) with
      | some warning => .rejected warning
      | none => .set o' := by
  cases value with
  | none => rfl
  | some value =>
    obtain ⟨hresult, houtint⟩ := parseUint16_eq value outint
    simp only [requireArgument, SettingKind.warning, hresult]
    cases hfits : fitsUint16 value with
    | false => rfl
    | true =>
      rw [houtint hfits, Int.toNat_natCast, h value rfl]
      rfl

end

/-- A parser reads the settings of a format if the `switch` does so with each suboption of a table that has its
constants and its kinds. -/
theorem OptionParser.reads_of_table {α ω : Type} {p : OptionParser α ω} {format : EditFormat}
    {meaning : List Setting → ω} (help : α) (table : List (CString × α × SettingKind))
    (harray : p.optionArray = (helpName, help) :: table.map fun x => (x.1, x.2.1))
    (hkinds : format.kinds = (helpName, .help) :: table.map fun x => (x.1, x.2.2))
    (hdefaults : p.defaults = meaning []) (hhelp : ∀ value o, p.handle help value o = .help)
    (hhandle : ∀ x ∈ table, ∀ read value, p.handle x.2.1 value (meaning read) =
      match x.2.2.warning (x.1, value) with
      | some warning => .rejected warning
      | none => .set (meaning (read ++ [(x.1, value)]))) : p.Reads format meaning where
  defaults := hdefaults
  settle := by
    rintro read ⟨name, value⟩
    unfold OptionParser.settle EditFormat.warning
    rw [harray, hkinds]
    simp only [List.lookup_cons]
    by_cases hname : name = helpName
    · subst hname
      rw [beq_self_eq_true, if_pos rfl]
      exact hhelp value _
    · rw [beq_eq_false_iff_ne.mpr hname, if_neg hname]
      rcases lookup_columns table name with ⟨c, kind, hmem, hc, hkind⟩ | ⟨hc, hkind⟩
      · simp only [hc, hkind]
        exact hhandle _ hmem read value
      · simp only [hc, hkind]

namespace DestinationOnly

/-- The suboptions other than `help`, with their constants and their kinds. -/
def table : List (CString × Opt × SettingKind) :=
  [(separateName, .separate, .flag)]

/-- The options that settings stand for. -/
def meaning (ss : List Setting) : Options := (EditFormat.destinationOnly.meaning {} ss).destinationOnly

theorem reads : parser.Reads .destinationOnly meaning := by
  refine OptionParser.reads_of_table .help table rfl rfl rfl (fun _ _ => rfl) ?_
  simp only [table, List.forall_mem_cons]
  refine ⟨?_, by simp⟩
  · intro read value
    refine noArgument_eq ?_
    rintro rfl
    simp +decide [meaning, EditFormat.meaning]

end DestinationOnly

namespace SingleColumn

/-- The suboptions other than `help`, with their constants and their kinds. -/
def table : List (CString × Opt × SettingKind) :=
  [(swapName, .swap, .flag), (separateName, .separate, .flag), (indicator1Name, .indicator1, .text),
    (indicator2Name, .indicator2, .text)]

/-- The options that settings stand for. -/
def meaning (ss : List Setting) : Options := (EditFormat.singleColumn.meaning {} ss).singleColumn

theorem reads : parser.Reads .singleColumn meaning := by
  refine OptionParser.reads_of_table .help table rfl rfl rfl (fun _ _ => rfl) ?_
  simp only [table, List.forall_mem_cons]
  refine ⟨?_, ?_, ?_, ?_, by simp⟩
  · intro read value
    refine noArgument_eq ?_
    rintro rfl
    simp +decide [meaning, EditFormat.meaning]
  · intro read value
    refine noArgument_eq ?_
    rintro rfl
    simp +decide [meaning, EditFormat.meaning]
  · intro read value
    refine requireArgument_text ?_
    rintro v rfl
    simp +decide [meaning, EditFormat.meaning]
  · intro read value
    refine requireArgument_text ?_
    rintro v rfl
    simp +decide [meaning, EditFormat.meaning]

end SingleColumn

namespace DualColumn

/-- The suboptions other than `help`, with their constants and their kinds. -/
def table : List (CString × Opt × SettingKind) :=
  [(swapName, .swap, .flag), (separateName, .separate, .flag), (spacesName, .spaces, .flag),
    (tabsizeName, .tabsize, .number), (widthName, .width, .number), (autowidthName, .autowidth, .flag),
    (indicator1Name, .indicator1, .text), (indicator2Name, .indicator2, .text)]

/-- The options that settings stand for. -/
def meaning (ss : List Setting) : Options := (EditFormat.dualColumn.meaning {} ss).dualColumn

theorem reads : parser.Reads .dualColumn meaning := by
  refine OptionParser.reads_of_table .help table rfl rfl rfl (fun _ _ => rfl) ?_
  simp only [table, List.forall_mem_cons]
  refine ⟨?_, ?_, ?_, ?_, ?_, ?_, ?_, ?_, by simp⟩
  · intro read value
    refine noArgument_eq ?_
    rintro rfl
    simp +decide [meaning, EditFormat.meaning]
  · intro read value
    refine noArgument_eq ?_
    rintro rfl
    simp +decide [meaning, EditFormat.meaning]
  · intro read value
    refine noArgument_eq ?_
    rintro rfl
    simp +decide [meaning, EditFormat.meaning]
  · intro read value
    refine requireArgument_number (fun n => { meaning read with tabsize := n }) ?_
    rintro v rfl
    simp +decide [meaning, EditFormat.meaning]
  · intro read value
    refine requireArgument_number (fun n => { meaning read with width := n, autowidth := false }) ?_
    rintro v rfl
    simp +decide [meaning, EditFormat.meaning]
  · intro read value
    refine noArgument_eq ?_
    rintro rfl
    simp +decide [meaning, EditFormat.meaning]
  · intro read value
    refine requireArgument_text ?_
    rintro v rfl
    simp +decide [meaning, EditFormat.meaning]
  · intro read value
    refine requireArgument_text ?_
    rintro v rfl
    simp +decide [meaning, EditFormat.meaning]

end DualColumn

theorem EditFormat.parseOptions_eq (format : EditFormat) (o : FormatOptions) (options : CString) :
    format.parseOptions o options = format.readOptions o options := by
  unfold EditFormat.parseOptions EditFormat.readOptions
  cases format with
  | destinationOnly =>
    rw [DestinationOnly.parseOptions, OptionParser.parseOptions, OptionParser.loop_eq]
    exact DestinationOnly.reads.run_eq (fun _ => rfl) [] _
  | singleColumn =>
    rw [SingleColumn.parseOptions, OptionParser.parseOptions, OptionParser.loop_eq]
    exact SingleColumn.reads.run_eq (fun _ => rfl) [] _
  | dualColumn =>
    rw [DualColumn.parseOptions, OptionParser.parseOptions, OptionParser.loop_eq]
    exact DualColumn.reads.run_eq (fun _ => rfl) [] _

/-! ### The options that can be set -/

/-- A text without a comma, as a C string. -/
def IsIndicator (text : CString) : Prop := comma ∉ text ∧ 0 ∉ text

namespace EditFormat

/-- The options of a format that its variables can have: `width` and `tabsize` are `uint16_t`. -/
def Settable (o : FormatOptions) : EditFormat → Prop
  | destinationOnly => True
  | singleColumn => IsIndicator o.singleColumn.indicator1 ∧ IsIndicator o.singleColumn.indicator2
  | dualColumn => o.dualColumn.width ≤ 65535 ∧ o.dualColumn.tabsize ≤ 65535 ∧
      IsIndicator o.dualColumn.indicator1 ∧ IsIndicator o.dualColumn.indicator2

/-- A suboption without a value, if it is set. -/
def flagSetting (name : CString) (flag : Bool) : List Setting := if flag then [(name, none)] else []

/-- Settings for the options of a format. -/
def settingsFor (o : FormatOptions) : EditFormat → List Setting
  | destinationOnly => flagSetting separateName o.destinationOnly.separate
  | singleColumn =>
    flagSetting swapName o.singleColumn.swap ++ flagSetting separateName o.singleColumn.separate ++
      [(indicator1Name, some o.singleColumn.indicator1), (indicator2Name, some o.singleColumn.indicator2)]
  | dualColumn =>
    flagSetting swapName o.dualColumn.swap ++ flagSetting separateName o.dualColumn.separate ++
      flagSetting spacesName o.dualColumn.useSpaces ++
      [(tabsizeName, some (decimal o.dualColumn.tabsize)), (widthName, some (decimal o.dualColumn.width))] ++
      flagSetting autowidthName o.dualColumn.autowidth ++
      [(indicator1Name, some o.dualColumn.indicator1), (indicator2Name, some o.dualColumn.indicator2)]

/-- A text that sets the options of a format. -/
def optionsText (format : EditFormat) (o : FormatOptions) : CString :=
  Subopt.writeAll comma equals (format.settingsFor o)

end EditFormat

theorem isDigit_of_mem_decimal {n : Nat} {ch : UInt8} (h : ch ∈ decimal n) : isDigit ch = true := by
  simp only [isDigit, Bool.and_eq_true, decide_eq_true_eq, UInt8.le_iff_toNat_le]
  exact decimal_bounds h

theorem numberAfter_decimal (n : Nat) : numberAfter 0 (decimal n) = n := by
  have hfold : ∀ (cs : List Char) (k : Nat), (∀ c ∈ cs, 48 ≤ c.toNat ∧ c.toNat ≤ 57) →
      numberAfter k (cs.map fun c => c.toNat.toUInt8) = Nat.ofDigitChars 10 cs k := by
    intro cs
    induction cs with
    | nil => exact fun k _ => rfl
    | cons c cs ih =>
      intro k hcs
      obtain ⟨hc, hcs⟩ := List.forall_mem_cons.mp hcs
      rw [List.map_cons, numberAfter_cons, ih _ hcs, Nat.ofDigitChars_cons]
      have hval : c.toNat.toUInt8.toNat = c.toNat := by
        simp only [Nat.toUInt8, UInt8.toNat_ofNat']
        omega
      rw [hval, Nat.mul_comm]
      rfl
  rw [decimal, hfold _ _ fun c hc => digit_bounds hc, Nat.ofDigitChars_ten_toDigits]

theorem fitsUint16_decimal {n : Nat} (h : n ≤ 65535) : fitsUint16 (decimal n) = true := by
  rw [fitsUint16, numberAfter_decimal, Bool.and_eq_true, List.all_eq_true, decide_eq_true_eq]
  exact ⟨fun ch hch => isDigit_of_mem_decimal hch, h⟩

namespace EditFormat
variable {format : EditFormat} {o new : FormatOptions} {read ss : List Setting} {s : Setting} {text : CString}

theorem mem_flagSetting {name : CString} {flag : Bool} :
    s ∈ flagSetting name flag ↔ flag = true ∧ s = (name, none) := by
  cases flag with
  | false => simp [flagSetting]
  | true => simp [flagSetting]

theorem readSettings_append (h : ∀ s ∈ ss, s.1 ≠ helpName ∧ format.warning s = none) (rest : List Setting) :
    format.readSettings o read (ss ++ rest) = format.readSettings o (read ++ ss) rest := by
  induction ss generalizing read with
  | nil => rw [List.nil_append, List.append_nil]
  | cons s ss ih =>
    obtain ⟨⟨hhelp, hwarning⟩, hss⟩ := List.forall_mem_cons.mp h
    rw [List.cons_append, readSettings, if_neg hhelp, hwarning]
    exact (ih hss).trans (by rw [List.append_assoc, List.singleton_append])

theorem readSettings_good (h : ∀ s ∈ ss, s.1 ≠ helpName ∧ format.warning s = none) :
    format.readSettings o [] ss = ⟨true, format.meaning o ss, none⟩ := by
  have happend : format.readSettings o [] (ss ++ []) = format.readSettings o ([] ++ ss) [] :=
    readSettings_append h []
  rwa [List.append_nil, List.nil_append, readSettings] at happend

theorem first_bad (h : ¬ ∀ s ∈ ss, s.1 ≠ helpName ∧ format.warning s = none) :
    ∃ pre s post, ss = pre ++ s :: post ∧ (∀ s ∈ pre, s.1 ≠ helpName ∧ format.warning s = none) ∧
      ¬ (s.1 ≠ helpName ∧ format.warning s = none) := by
  induction ss with
  | nil => exact absurd (by simp) h
  | cons s ss ih =>
    by_cases hs : s.1 ≠ helpName ∧ format.warning s = none
    · obtain ⟨pre, s', post, rfl, hpre, hs'⟩ := ih fun hss => h (List.forall_mem_cons.mpr ⟨hs, hss⟩)
      exact ⟨s :: pre, s', post, rfl, List.forall_mem_cons.mpr ⟨hs, hpre⟩, hs'⟩
    · exact ⟨[], s, ss, rfl, by simp, hs⟩

theorem readSettings_options (format : EditFormat) (o : FormatOptions) (read ss : List Setting) :
    ∃ pre, pre <+: ss ∧ (∀ s ∈ pre, format.warning s = none) ∧
      ((format.readSettings o read ss).options = format.meaning o (read ++ pre) ∨
        (format.readSettings o read ss).options = format.meaning o []) := by
  induction ss generalizing read with
  | nil => exact ⟨[], List.nil_prefix, by simp, Or.inl (by rw [readSettings, List.append_nil])⟩
  | cons s ss ih =>
    rw [readSettings]
    by_cases hhelp : s.1 = helpName
    · rw [if_pos hhelp]
      exact ⟨[], List.nil_prefix, by simp, Or.inl (by rw [List.append_nil])⟩
    · rw [if_neg hhelp]
      cases hwarning : format.warning s with
      | some warning => exact ⟨[], List.nil_prefix, by simp, Or.inr rfl⟩
      | none =>
        obtain ⟨pre, hpre, hgood, hoptions⟩ := ih (read ++ [s])
        refine ⟨s :: pre, List.cons_prefix_cons.mpr ⟨rfl, hpre⟩, List.forall_mem_cons.mpr ⟨hwarning, hgood⟩, ?_⟩
        rwa [List.append_assoc, List.singleton_append] at hoptions

theorem lastSetting_cons (name : CString) (s : Setting) (ss : List Setting) :
    lastSetting name (s :: ss) = (lastSetting name ss).or (if s.1 = name then some s.2 else none) := by
  induction ss using List.reverseRecOn with
  | nil => exact (lastSetting_snoc : lastSetting name ([] ++ [s]) = _)
  | append_singleton ss s' ih =>
    rw [← List.cons_append, lastSetting_snoc, lastSetting_snoc, ih]
    split
    · rfl
    · rfl

theorem lastSetting_append (name : CString) (ss ss' : List Setting) :
    lastSetting name (ss ++ ss') = (lastSetting name ss').or (lastSetting name ss) := by
  induction ss' using List.reverseRecOn with
  | nil => rw [List.append_nil]; rfl
  | append_singleton ss' s ih =>
    rw [← List.append_assoc, lastSetting_snoc, lastSetting_snoc, ih]
    split
    · rfl
    · rfl

theorem lastSetting_flagSetting (name name' : CString) (flag : Bool) :
    lastSetting name (flagSetting name' flag) = if flag = true ∧ name' = name then some none else none := by
  cases flag with
  | false => rfl
  | true =>
    rw [flagSetting, if_pos rfl, lastSetting_cons]
    simp [lastSetting]

theorem meaning_settingsFor (format : EditFormat) (o new : FormatOptions) :
    format.meaning o (format.settingsFor new) = o.parsed new format := by
  unfold meaning settingsFor FormatOptions.parsed
  obtain ⟨⟨separate⟩, ⟨swap₁, separate₁, first₁, second₁⟩,
    ⟨width, tabsize, swap, useSpaces, separate₂, autowidth, first, second⟩⟩ := new
  cases format with
  | destinationOnly => cases separate <;> rfl
  | singleColumn =>
    cases swap₁ <;> cases separate₁ <;> rfl
  | dualColumn =>
    refine congrArg (fun d => { o with dualColumn := d }) ?_
    rw [DualColumn.Options.mk.injEq]
    have hnil : ∀ name, lastSetting name [] = none := fun _ => rfl
    have hflag : ∀ flag : Bool, (if flag = true then some (none : Option CString) else none).isSome = flag := by decide
    have hauto : ∀ ss : List Setting, autowidthOf (ss ++ (widthName, some (decimal width)) ::
        (flagSetting autowidthName autowidth ++ [(indicator1Name, some first), (indicator2Name, some second)])) =
          autowidth := by
      intro ss
      cases autowidth with
      | false => simp +decide [autowidthOf, flagSetting]
      | true => simp +decide [autowidthOf, flagSetting]
    have hauto := hauto (flagSetting swapName swap ++ flagSetting separateName separate₂ ++
      flagSetting spacesName useSpaces ++ [(tabsizeName, some (decimal tabsize))])
    simp only [List.append_assoc, List.cons_append, List.nil_append] at hauto
    simp +decide [isNamed, textOf, numberOf, lastSetting_append, lastSetting_cons, lastSetting_flagSetting,
      numberAfter_decimal, hnil, hflag, hauto]

/-- A setting that is accepted, and read back as it is written. -/
structure Good (format : EditFormat) (s : Setting) : Prop where
  accepted : s.1 ≠ helpName ∧ format.warning s = none
  name : equals ∉ s.1 ∧ comma ∉ s.1 ∧ 0 ∉ s.1
  value : ∀ v ∈ s.2, IsIndicator v

theorem Good.of_kind {name : CString} {value : Option CString} {kind : SettingKind}
    (hname : name ≠ helpName ∧ equals ∉ name ∧ comma ∉ name ∧ 0 ∉ name)
    (hkind : format.kinds.lookup name = some kind) (hwarning : kind.warning (name, value) = none)
    (hvalue : ∀ v ∈ value, IsIndicator v) : format.Good (name, value) where
  accepted := ⟨hname.1, by rw [EditFormat.warning, hkind]; exact hwarning⟩
  name := hname.2
  value := hvalue

theorem Good.write_notMem (h : format.Good s) : IsIndicator (Subopt.write equals s.1 s.2) := by
  obtain ⟨name, value⟩ := s
  obtain ⟨_, ⟨_, hcomma, hzero⟩, hvalue⟩ := h
  cases value with
  | none => exact ⟨hcomma, hzero⟩
  | some value =>
    obtain ⟨hcomma', hzero'⟩ := hvalue value rfl
    constructor
    · simp only [Subopt.write, List.mem_append, List.mem_cons, not_or]
      exact ⟨hcomma, by decide, hcomma'⟩
    · simp only [Subopt.write, List.mem_append, List.mem_cons, not_or]
      exact ⟨hzero, by decide, hzero'⟩

theorem isIndicator_decimal (n : Nat) : IsIndicator (decimal n) := by
  constructor
  · intro hmem
    exact absurd (isDigit_of_mem_decimal hmem) (by decide)
  · intro hmem
    exact absurd (isDigit_of_mem_decimal hmem) (by decide)

theorem settingsFor_good (h : format.Settable o) (hs : s ∈ format.settingsFor o) : format.Good s := by
  have hnumber : ∀ {name : CString} {n : Nat}, n ≤ 65535 →
      SettingKind.number.warning (name, some (decimal n)) = none :=
    fun hn => if_pos (fitsUint16_decimal hn)
  have hvalue : ∀ {value : CString}, IsIndicator value → ∀ v ∈ some value, IsIndicator v := by
    rintro value hvalue v hv
    exact Option.some.inj hv ▸ hvalue
  unfold settingsFor at hs
  cases format with
  | destinationOnly =>
    obtain ⟨-, rfl⟩ := mem_flagSetting.mp hs
    exact .of_kind (by decide) rfl rfl (by simp)
  | singleColumn =>
    obtain ⟨hfirst, hsecond⟩ := h
    simp only [List.mem_append, mem_flagSetting, List.mem_cons, List.not_mem_nil, or_false] at hs
    rcases hs with (⟨-, rfl⟩ | ⟨-, rfl⟩) | rfl | rfl
    · exact .of_kind (by decide) rfl rfl (by simp)
    · exact .of_kind (by decide) rfl rfl (by simp)
    · exact .of_kind (by decide) rfl rfl (hvalue hfirst)
    · exact .of_kind (by decide) rfl rfl (hvalue hsecond)
  | dualColumn =>
    obtain ⟨hwidth, htabsize, hfirst, hsecond⟩ := h
    simp only [List.mem_append, mem_flagSetting, List.mem_cons, List.not_mem_nil, or_false] at hs
    rcases hs with ((((⟨-, rfl⟩ | ⟨-, rfl⟩) | ⟨-, rfl⟩) | rfl | rfl) | ⟨-, rfl⟩) | rfl | rfl
    · exact .of_kind (by decide) rfl rfl (by simp)
    · exact .of_kind (by decide) rfl rfl (by simp)
    · exact .of_kind (by decide) rfl rfl (by simp)
    · exact .of_kind (by decide) rfl (hnumber htabsize) (hvalue (isIndicator_decimal _))
    · exact .of_kind (by decide) rfl (hnumber hwidth) (hvalue (isIndicator_decimal _))
    · exact .of_kind (by decide) rfl rfl (by simp)
    · exact .of_kind (by decide) rfl rfl (hvalue hfirst)
    · exact .of_kind (by decide) rfl rfl (hvalue hsecond)

theorem parseOptions_text (h : format.Settable new) :
    format.parseOptions o (format.optionsText new) = ⟨true, o.parsed new format, none⟩ := by
  have hgood : ∀ s ∈ format.settingsFor new, format.Good s := fun s hs => settingsFor_good h hs
  have hread : Subopt.suboptions comma equals (format.optionsText new) = format.settingsFor new :=
    Subopt.suboptions_writeAll fun s hs => ⟨(hgood s hs).name.1, (hgood s hs).write_notMem.1⟩
  rw [parseOptions_eq, readOptions, hread, readSettings_good fun s hs => (hgood s hs).accepted, meaning_settingsFor]

theorem zero_notMem_optionsText (h : format.Settable new) : 0 ∉ format.optionsText new := by
  intro hmem
  obtain ⟨s, hs, hmem⟩ := List.mem_flatMap.mp hmem
  rcases List.mem_append.mp hmem with hmem | hmem
  · exact (settingsFor_good h hs).write_notMem.2 hmem
  · exact absurd (List.mem_singleton.mp hmem) (by decide)

theorem mem_of_lastSetting {name : CString} {value : Option CString} (h : lastSetting name ss = some value) :
    (name, value) ∈ ss := by
  induction ss using List.reverseRecOn with
  | nil => cases h
  | append_singleton ss s ih =>
    rw [lastSetting_snoc] at h
    split at h
    · rename_i hname
      obtain rfl := Option.some.inj h
      exact List.mem_append_right _ (List.mem_singleton.mpr (Prod.ext hname.symm rfl))
    · exact List.mem_append_left _ (ih h)

theorem textOf_isIndicator (h : ∀ s ∈ ss, ∀ v ∈ s.2, IsIndicator v) (name : CString) :
    IsIndicator (textOf name ss) := by
  unfold textOf
  rcases hlast : lastSetting name ss with _ | _ | v
  · exact ⟨List.not_mem_nil, List.not_mem_nil⟩
  · exact ⟨List.not_mem_nil, List.not_mem_nil⟩
  · exact h _ (mem_of_lastSetting hlast) v rfl

theorem numberOf_le {name : CString} {n : Nat} (hn : n ≤ 65535) (hkind : format.kinds.lookup name = some .number)
    (h : ∀ s ∈ ss, format.warning s = none) : numberOf name n ss ≤ 65535 := by
  unfold numberOf
  rcases hlast : lastSetting name ss with _ | _ | v
  · exact hn
  · exact hn
  · have hwarning := h _ (mem_of_lastSetting hlast)
    rw [warning, hkind] at hwarning
    simp only [SettingKind.warning] at hwarning
    split at hwarning
    · rename_i hfits
      rw [fitsUint16, Bool.and_eq_true, decide_eq_true_eq] at hfits
      exact hfits.2
    · cases hwarning

theorem meaning_settable (hgood : ∀ s ∈ ss, format.warning s = none) (hvalue : ∀ s ∈ ss, ∀ v ∈ s.2, IsIndicator v) :
    format.Settable (format.meaning o ss) := by
  have htext := textOf_isIndicator hvalue
  cases format with
  | destinationOnly => trivial
  | singleColumn => exact ⟨htext _, htext _⟩
  | dualColumn =>
    exact ⟨numberOf_le (by decide) rfl hgood, numberOf_le (by decide) rfl hgood, htext _, htext _⟩

theorem value_of_mem_suboptions (hzero : 0 ∉ text) (hs : s ∈ Subopt.suboptions comma equals text) :
    ∀ v ∈ s.2, IsIndicator v := by
  obtain ⟨hcomma, hsub⟩ := Subopt.write_of_mem_suboptions hs
  obtain ⟨name, value⟩ := s
  rintro v rfl
  have hv : v ⊆ Subopt.write equals name (some v) :=
    List.subset_append_of_subset_right _ (List.subset_cons_self _ _)
  exact ⟨fun hmem => hcomma (hv hmem), fun hmem => hzero (hsub (hv hmem))⟩

theorem parsed_meaning (format : EditFormat) (o : FormatOptions) (ss : List Setting) :
    format.meaning o ss = o.parsed (format.meaning o ss) format := by
  cases format with
  | destinationOnly => rfl
  | singleColumn => rfl
  | dualColumn => rfl

theorem parseOptions_settable (format : EditFormat) (o : FormatOptions) (hzero : 0 ∉ text) :
    ∃ new, format.Settable new ∧ (format.parseOptions o text).options = o.parsed new format := by
  rw [parseOptions_eq, readOptions]
  obtain ⟨pre, hpre, hgood, hoptions⟩ := readSettings_options format o [] (Subopt.suboptions comma equals text)
  have hvalue : ∀ s ∈ pre, ∀ v ∈ s.2, IsIndicator v := fun s hs => value_of_mem_suboptions hzero (hpre.subset hs)
  rcases hoptions with hoptions | hoptions
  · rw [hoptions, List.nil_append]
    exact ⟨_, meaning_settable hgood hvalue, parsed_meaning ..⟩
  · rw [hoptions]
    exact ⟨_, meaning_settable (by simp) (by simp), parsed_meaning ..⟩

end EditFormat

/-- A text is accepted if all its suboptions are; otherwise it is read up to `help`, or refused for its first bad
suboption with the defaults put back. -/
theorem parseOptions_classified (format : EditFormat) (o : FormatOptions) (text : CString) :
    let ss := Subopt.suboptions comma equals text
    let r := format.parseOptions o text
    ((∀ s ∈ ss, s.1 ≠ helpName ∧ format.warning s = none) ∧ r = ⟨true, format.meaning o ss, none⟩) ∨
    ∃ pre s post, ss = pre ++ s :: post ∧ (∀ s ∈ pre, s.1 ≠ helpName ∧ format.warning s = none) ∧
      (s.1 = helpName ∧ r = ⟨false, format.meaning o pre, none⟩ ∨
        s.1 ≠ helpName ∧ ∃ w, format.warning s = some w ∧ r = ⟨false, format.meaning o [], some w⟩) := by
  intro ss r
  have hr : r = format.readSettings o [] ss := format.parseOptions_eq o text
  by_cases hall : ∀ s ∈ ss, s.1 ≠ helpName ∧ format.warning s = none
  · exact Or.inl ⟨hall, hr.trans (EditFormat.readSettings_good hall)⟩
  · obtain ⟨pre, s, post, hss, hpre, hs⟩ := EditFormat.first_bad hall
    refine Or.inr ⟨pre, s, post, hss, hpre, ?_⟩
    rw [hr, hss, EditFormat.readSettings_append hpre, List.nil_append, EditFormat.readSettings]
    by_cases hhelp : s.1 = helpName
    · exact Or.inl ⟨hhelp, if_pos hhelp⟩
    · rw [if_neg hhelp]
      cases hwarning : format.warning s with
      | none => exact absurd ⟨hhelp, hwarning⟩ hs
      | some w => exact Or.inr ⟨hhelp, w, rfl, rfl⟩

/-- What a text leaves in the options of its format is what the variables can have; and all of that has a text that
is accepted. -/
theorem parseOptions_leaves_iff (format : EditFormat) (o o' : FormatOptions) :
    ((∃ text, 0 ∉ text ∧ (format.parseOptions o text).options = o') ↔
      ∃ new, format.Settable new ∧ o' = o.parsed new format) ∧
    ∀ new, format.Settable new → 0 ∉ format.optionsText new ∧
      format.parseOptions o (format.optionsText new) = ⟨true, o.parsed new format, none⟩ := by
  have hreads : ∀ new, format.Settable new → 0 ∉ format.optionsText new ∧
      format.parseOptions o (format.optionsText new) = ⟨true, o.parsed new format, none⟩ :=
    fun new hnew => ⟨EditFormat.zero_notMem_optionsText hnew, EditFormat.parseOptions_text hnew⟩
  refine ⟨⟨?_, ?_⟩, hreads⟩
  · rintro ⟨text, hzero, rfl⟩
    exact format.parseOptions_settable o hzero
  · rintro ⟨new, hnew, rfl⟩
    obtain ⟨hzero, hparse⟩ := hreads new hnew
    exact ⟨_, hzero, congrArg ParsedOptions.options hparse⟩

end Renameutils
