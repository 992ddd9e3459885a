import Renameutils.Icmd
import Renameutils.Lib.Exchange
import Renameutils.Lib.ArgSyntax

/-!
# Reading options (`getopt_long`, `gnulib-lib/getopt.c`)

`getopt_long` gives back one option at a time and moves the operands that it has passed behind the options. `OptTable` is
what its callers hand over each time: `optstring` and `longopts`. `Data` is `struct _getopt_data`, which outlives the
calls; `nextchar` is the rest of the word that it points into. `getoptLoop` is the loop of a caller.
-/

namespace Renameutils
open CString

namespace Getopt

def colon : UInt8 := 58
def semicolon : UInt8 := 59
def plus : UInt8 := 43
def letterW : UInt8 := 87

inductive HasArg where
  | no
  | required
  | optional
deriving DecidableEq

/-- `struct option`; `flag` is `NULL`. -/
structure LongOption where
  name : CString
  hasArg : HasArg
  val : Nat
deriving DecidableEq

/-- With `W;` in `optstring` the option `-W foo` would mean `--foo`; no caller has it. -/
structure OptTable where
  optstring : CString
  longopts : List LongOption
  noLongW : ¬ [letterW, semicolon] <:+: optstring := by decide

/-- What is printed when an option is refused. -/
inductive Message where
  | ambiguous (word : CString) (possibilities : List CString)
  | allowsNoArgument (name : CString)
  | requiresArgument (name : CString)
  | unrecognized (nextchar : CString)
  | invalid (c : UInt8)
  | shortRequiresArgument (c : UInt8)
deriving DecidableEq

/-- What a call returns, and `optarg`. -/
structure OptEvent where
  c : Nat
  optarg : Option CString := none
  message : Option Message := none
deriving DecidableEq

structure Data where
  optind : Nat := 1
  initialized : Bool := false
  nextchar : Option CString := none
  ordering : ArgSyntax.Order := .permute
  firstNonopt : Nat := 0
  lastNonopt : Nat := 0

/-- `event` is `none` where the call returns -1. -/
structure Call where
  event : Option OptEvent
  data : Data
  argv : List CString

/-! ### The table -/

/-- `'?'`, which is also what is returned for a bad option. -/
def questionMark : Nat := 63

/-- `optstring` after `_getopt_initialize`. -/
def OptTable.shortopts (t : OptTable) : CString :=
  if t.optstring.head? = some dash ∨ t.optstring.head? = some plus then t.optstring.tail else t.optstring

/-- The short options start with a colon. -/
def OptTable.silent (t : OptTable) : Bool := t.shortopts.head? = some colon

def OptTable.ordering (t : OptTable) (posixlyCorrect : Bool) : ArgSyntax.Order :=
  if t.optstring.head? = some dash then .pass
  else if t.optstring.head? = some plus then .stop
  else if posixlyCorrect then .stop
  else .permute

def OptTable.refuse (t : OptTable) (c : Nat) (message : Message) : OptEvent where
  c := c
  message := if t.silent then none else some message

/-- The argument of an option is missing. -/
def OptTable.missing (t : OptTable) (message : Message) : OptEvent :=
  t.refuse (if t.silent then colon.toNat else questionMark) message

/-- The loop over `longopts`: `pfound` and `ambig_list`. An exact match ends it. -/
def longMatch (name : CString) : List LongOption → Option LongOption → List LongOption →
    Option LongOption × List LongOption
  | [], pfound, ambig => (pfound, ambig)
  | p :: ps, pfound, ambig =>
    if p.name.take name.length = name then
      if name.length = p.name.length then (some p, [])
      else
        match pfound with
        | none => longMatch name ps (some p) ambig
        | some found =>
          longMatch name ps (some found) (if found.hasArg ≠ p.hasArg ∨ found.val ≠ p.val then p :: ambig else ambig)
    else longMatch name ps pfound ambig

/-- What `optstring` says of the option `c`, from where `strchr` finds it. -/
def OptTable.shortHasArg (t : OptTable) (c : UInt8) : Option HasArg :=
  match t.shortopts.dropWhile (· ≠ c) with
  | [] => none
  | _ :: more =>
    if c = colon ∨ c = semicolon then none
    else if more.head? ≠ some colon then some .no
    else if more.tail.head? ≠ some colon then some .required
    else some .optional

/-! ### One call -/

/-- `exchange`. -/
def exchange (argv : List CString) (d : Data) : Data × List CString :=
  ({ d with firstNonopt := d.firstNonopt + (d.optind - d.lastNonopt), lastNonopt := d.optind },
    Exchange.exchange argv d.firstNonopt d.lastNonopt d.optind)

/-- `_getopt_initialize`. -/
def getoptInitialize (t : OptTable) (posixlyCorrect : Bool) (d : Data) : Data where
  optind := if d.optind = 0 then 1 else d.optind
  initialized := true
  nextchar := none
  ordering := t.ordering posixlyCorrect
  firstNonopt := if d.optind = 0 then 1 else d.optind
  lastNonopt := if d.optind = 0 then 1 else d.optind

/-- `NONOPTION_P`. -/
def isNonoption (arg : CString) : Bool := arg.head? ≠ some dash || arg.tail = []

/-- A long option. -/
def decodeLong (t : OptTable) (d : Data) (argv : List CString) (nextchar : CString) : Call :=
  let name := nextchar.takeWhile (· ≠ equals)
  let word := argv.getD d.optind []
  let d := { d with nextchar := some [], optind := d.optind + 1 }
  match longMatch name t.longopts none [] with
  | (found, p :: ambig) =>
    ⟨some (t.refuse questionMark (.ambiguous word ((found.toList ++ p :: ambig).map (·.name)))), d, argv⟩
  | (some found, []) =>
    if nextchar.contains equals then
      if found.hasArg = .no then ⟨some (t.refuse questionMark (.allowsNoArgument found.name)), d, argv⟩
      else ⟨some { c := found.val, optarg := some (nextchar.drop (name.length + 1)) }, d, argv⟩
    else if found.hasArg = .required then
      match argv[d.optind]? with
      | some arg => ⟨some { c := found.val, optarg := some arg }, { d with optind := d.optind + 1 }, argv⟩
      | none => ⟨some (t.missing (.requiresArgument found.name)), d, argv⟩
    else ⟨some { c := found.val }, d, argv⟩
  | (none, []) => ⟨some (t.refuse questionMark (.unrecognized nextchar)), d, argv⟩

/-- The short option `c`, with the rest of the word. `optind` goes on when its last character is looked at. -/
def decodeShort (t : OptTable) (d : Data) (argv : List CString) (c : UInt8) (rest : CString) : Call :=
  let d := { d with nextchar := some rest, optind := if rest = [] then d.optind + 1 else d.optind }
  match t.shortHasArg c with
  | none => ⟨some (t.refuse questionMark (.invalid c)), d, argv⟩
  | some .no => ⟨some { c := c.toNat }, d, argv⟩
  | some .optional =>
    if rest = [] then ⟨some { c := c.toNat }, { d with nextchar := none }, argv⟩
    else ⟨some { c := c.toNat, optarg := some rest }, { d with nextchar := none, optind := d.optind + 1 }, argv⟩
  | some .required =>
    if rest = [] then
      match argv[d.optind]? with
      | some arg =>
        ⟨some { c := c.toNat, optarg := some arg }, { d with nextchar := none, optind := d.optind + 1 }, argv⟩
      | none => ⟨some (t.missing (.shortRequiresArgument c)), { d with nextchar := none }, argv⟩
    else ⟨some { c := c.toNat, optarg := some rest }, { d with nextchar := none, optind := d.optind + 1 }, argv⟩

/-- The rest of the word at `optind`. -/
def decode (t : OptTable) (d : Data) (argv : List CString) : Call :=
  let nextchar := d.nextchar.getD []
  if (argv.getD d.optind []).tail.head? = some dash then decodeLong t d argv nextchar
  else decodeShort t d argv (nextchar.headD 0) nextchar.tail

/-- The options that come after operands are moved before them. -/
def moveOptions (d : Data) (argv : List CString) : Data × List CString :=
  if d.firstNonopt ≠ d.lastNonopt ∧ d.lastNonopt ≠ d.optind then exchange argv d
  else if d.lastNonopt ≠ d.optind then ({ d with firstNonopt := d.optind }, argv)
  else (d, argv)

/-- More operands are passed. -/
def skipNonoptions (d : Data) (argv : List CString) : Data :=
  let optind := d.optind + ((argv.drop d.optind).takeWhile isNonoption).length
  { d with optind := optind, lastNonopt := optind }

/-- `--`. -/
def endOptions (d : Data) (argv : List CString) : Data × List CString :=
  let d := { d with optind := d.optind + 1 }
  let moved :=
    if d.firstNonopt ≠ d.lastNonopt ∧ d.lastNonopt ≠ d.optind then exchange argv d
    else if d.firstNonopt = d.lastNonopt then ({ d with firstNonopt := d.optind }, argv)
    else (d, argv)
  ({ moved.1 with lastNonopt := argv.length, optind := argv.length }, moved.2)

/-- The word at `optind`, when no operand is left to pass. -/
def readWord (t : OptTable) (d : Data) (argv : List CString) : Call :=
  match argv[d.optind]? with
  | none => ⟨none, if d.firstNonopt ≠ d.lastNonopt then { d with optind := d.firstNonopt } else d, argv⟩
  | some arg =>
    if isNonoption arg then
      if d.ordering = .stop then ⟨none, d, argv⟩
      else ⟨some { c := 1, optarg := some arg }, { d with optind := d.optind + 1 }, argv⟩
    else
      decode t { d with nextchar := some (arg.drop (if arg.tail.head? = some dash then 2 else 1)) } argv

/-- The words from `optind` on, of which the first may end the options. -/
def readElement (t : OptTable) (d : Data) (argv : List CString) : Call :=
  let ended := if argv[d.optind]? = some dashes then endOptions d argv else (d, argv)
  readWord t ended.1 ended.2

/-- Advance to the next word. -/
def nextElement (t : OptTable) (d : Data) (argv : List CString) : Call :=
  let d := { d with lastNonopt := min d.lastNonopt d.optind, firstNonopt := min d.firstNonopt d.optind }
  let permuted :=
    if d.ordering = .permute then
      let moved := moveOptions d argv
      (skipNonoptions moved.1 moved.2, moved.2)
    else (d, argv)
  readElement t permuted.1 permuted.2

/-- `getopt_long`, with `_getopt_internal_r`. -/
def getoptLong (t : OptTable) (posixlyCorrect : Bool) (d : Data) (argv : List CString) : Call :=
  if argv = [] then ⟨none, d, argv⟩
  else
    let d := if d.optind = 0 ∨ d.initialized = false then getoptInitialize t posixlyCorrect d else d
    if d.nextchar.getD [] = [] then nextElement t d argv
    else decode t d argv

/-! ### A loop of calls -/

/-- All options, one call after the other. -/
structure Read where
  events : List OptEvent
  data : Data
  argv : List CString

def getoptEvents (t : OptTable) (posixlyCorrect : Bool) : Nat → Data → List CString → Option Read
  | 0, _, _ => none
  | fuel + 1, d, argv =>
    let r := getoptLong t posixlyCorrect d argv
    match r.event with
    | none => some ⟨[], r.data, r.argv⟩
    | some e => (getoptEvents t posixlyCorrect fuel r.data r.argv).map fun r => { r with events := e :: r.events }

/-- The result of a loop; `.error` is where its body leaves it. -/
structure LoopEnd (ρ σ : Type) where
  result : Except ρ σ
  data : Data
  argv : List CString

/-- `while ((c = getopt_long(...)) != -1) body`. -/
def getoptLoop {ρ σ : Type} (t : OptTable) (posixlyCorrect : Bool) (body : σ → OptEvent → Except ρ σ) :
    Nat → Data → List CString → σ → Option (LoopEnd ρ σ)
  | 0, _, _, _ => none
  | fuel + 1, d, argv, s =>
    let r := getoptLong t posixlyCorrect d argv
    match r.event with
    | none => some ⟨.ok s, r.data, r.argv⟩
    | some e =>
      match body s e with
      | .error x => some ⟨.error x, r.data, r.argv⟩
      | .ok s => getoptLoop t posixlyCorrect body fuel r.data r.argv s

end Getopt

end Renameutils
