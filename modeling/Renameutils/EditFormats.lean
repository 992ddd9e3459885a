import Renameutils.EditInput
import Renameutils.Quote
import Renameutils.TabUtils

/-!
# The edit formats (`editformats/*.c`)

`output` writes the names of the specs to the edit file, and `input` reads it back and assigns the new
names. `isprint` is what the locale says of bytes.
-/

namespace Renameutils
open CString

/-- The blank line between two records of a format with the option `separate`: `next` reads on after
it. -/
def readSeparator {σ : Type} (separate hasNext : Bool) (file : TextFile) (next : TextFile → Record σ) :
    Record σ :=
  if separate && hasNext then
    match readLine file with
    | (.line emptyLine, file) => if lineString (chompLine emptyLine) ≠ [] then .rejected else next file
    | _ => .rejected
  else next file

/-- The blank line that `output` writes after each record but the last. -/
def separator (separate hasNext : Bool) : CString := if separate && hasNext then [newline] else []

/-- The loop of an `output` function: `record hasNext spec` is the text of one record. -/
def outputLoop (record : Bool → SpecId → CString) : List SpecId → CString
  | [] => []
  | spec :: rest => record (!rest.isEmpty) spec ++ outputLoop record rest

/-! ### `destination-only.c` -/

namespace DestinationOnly

structure Options where
  separate : Bool := false
deriving DecidableEq, Repr

def output (isprint : UInt8 → Bool) (o : Options) (h : Heap) : List SpecId → CString :=
  outputLoop fun hasNext spec =>
    quoteOutputFile isprint (h.newName spec) ++ newline :: separator o.separate hasNext

def record (o : Options) (_oldName : CString) (hasNext : Bool) (file : TextFile) : Record TextFile :=
  match readLine file with
  | (.line fileNew, file) =>
    readSeparator o.separate hasNext file fun file =>
      match dequoteOutputFile (lineString (chompLine fileNew)) with
      | none => .undefined -- `file_new[0]`
      | some [] => ⟨none, .accepted file⟩
      | some name => ⟨some (some name), .accepted file⟩
  | _ => .rejected

def input (o : Options) (files : List SpecId) (file : TextFile) (specs : EditSpecs) : InputResult :=
  inputLoop (record o) (fun _ => true) files file specs

end DestinationOnly

/-! ### `single-column.c` -/

namespace SingleColumn

structure Options where
  swap : Bool := false
  separate : Bool := false
  indicator1 : CString := []
  indicator2 : CString := []
deriving DecidableEq, Repr

def output (isprint : UInt8 → Bool) (o : Options) (h : Heap) : List SpecId → CString :=
  outputLoop fun hasNext spec =>
    o.indicator1 ++ quoteOutputFile isprint (h.oldName spec) ++ newline ::
      (o.indicator2 ++ quoteOutputFile isprint (h.newName spec) ++ newline :: separator o.separate hasNext)

/-- The two names of a record. `NULL` is not a string to compare. -/
def assign (oldName : CString) (fileOld fileNew : Option CString) (file : TextFile) : Record TextFile :=
  match fileOld with
  | none => .undefined
  | some fileOld =>
    if fileOld ≠ oldName then ⟨none, .accepted file⟩
    else match fileNew with
      | none => .undefined
      | some [] => ⟨none, .accepted file⟩
      | some name => ⟨some (some name), .accepted file⟩

def record (o : Options) (oldName : CString) (hasNext : Bool) (file : TextFile) : Record TextFile :=
  let (r₁, file) := readLine file
  let (r₂, file) := readLine file
  match r₁, r₂ with
  | .line fileOld, .line fileNew =>
    readSeparator o.separate hasNext file fun file =>
      let fileOld := lineString (chompLine fileOld)
      let fileNew := lineString (chompLine fileNew)
      if !fileOld.startsWith o.indicator1 then .rejected
      else
        let name₁ := dequoteOutputFile (fileOld.drop o.indicator1.length)
        if !fileNew.startsWith o.indicator2 then .rejected
        else
          let name₂ := dequoteOutputFile (fileNew.drop o.indicator2.length)
          if o.swap then assign oldName name₂ name₁ file else assign oldName name₁ name₂ file
  | _, _ => .rejected

def input (o : Options) (files : List SpecId) (file : TextFile) (specs : EditSpecs) : InputResult :=
  inputLoop (record o) (fun _ => true) files file specs

end SingleColumn

/-! ### `dual-column.c` -/

namespace DualColumn

structure Options where
  width : Nat := 40
  tabsize : Nat := 8
  swap : Bool := false
  useSpaces : Bool := false
  separate : Bool := false
  autowidth : Bool := true
  indicator1 : CString := []
  indicator2 : CString := []
deriving DecidableEq, Repr

def isBlank (c : UInt8) : Bool := c = space || c = tab

/-- The characters up to index `d` are blank. -/
def blankTo (str : CString) (d : Nat) : Bool := d ≤ (str.takeWhile isBlank).length

/-- `none`: the last character of an empty name is read. -/
def quoteFirstLast (o : Options) (realWidth : Nat) (oldName : CString) : Option CString :=
  if realWidth = 0 then some oldName
  else do
    let last ← oldName.getLast?
    let d := tabIndex oldName realWidth o.tabsize
    let newName := if blankTo oldName d then backslash :: oldName else oldName
    return if last = space then newName.dropLast ++ [backslash, space] else newName

/-- The list of quoted old and new names, and `real_width` after it. -/
def prepare (isprint : UInt8 → Bool) (o : Options) (h : Heap) :
    List SpecId → Nat → Option (List (CString × CString) × Nat)
  | [], realWidth => some ([], realWidth)
  | spec :: rest, realWidth => do
    let oldName ← quoteFirstLast o realWidth (quoteOutputFile isprint (h.oldName spec))
    let newName := quoteOutputFile isprint (h.newName spec)
    let realWidth :=
      if o.autowidth then max realWidth ((if o.swap then newName else oldName).length + 1) else realWidth
    let (names, realWidth) ← prepare isprint o h rest realWidth
    return ((oldName, newName) :: names, realWidth)

def outputRecord (o : Options) (realWidth : Nat) (hasNext : Bool) (oldName newName : CString) : CString :=
  let ilen := o.indicator1.length
  let tabsize := if o.useSpaces then 0 else o.tabsize
  let first :=
    if oldName.length ≥ realWidth + ilen then
      o.indicator1 ++ oldName ++ newline :: tabTo 0 realWidth tabsize
    else o.indicator1 ++ oldName ++ tabTo (oldName.length + ilen) realWidth tabsize
  first ++ (o.indicator2 ++ newName ++ newline :: separator o.separate hasNext)

def outputNames (o : Options) (realWidth : Nat) : List (CString × CString) → CString
  | [] => []
  | (oldName, newName) :: rest =>
    outputRecord o realWidth (!rest.isEmpty) oldName newName ++ outputNames o realWidth rest

/-- `output`: the text, and `real_width`. -/
def output (isprint : UInt8 → Bool) (o : Options) (h : Heap) (files : List SpecId) :
    Option (CString × Nat) := do
  let (names, realWidth) ← prepare isprint o h files o.width
  return (outputNames o realWidth names, realWidth)

/-- The file and the lines that were read but are to be read again. -/
structure Input where
  unreadLines : List (List UInt8)
  file : TextFile
deriving DecidableEq, Repr

def Input.unreadLine (i : Input) (line : List UInt8) : Input := { i with unreadLines := line :: i.unreadLines }

def Input.readUnreadLine (i : Input) : ReadResult × Input :=
  match i.unreadLines with
  | line :: rest => (.line line, { i with unreadLines := rest })
  | [] => let (r, file) := readLine i.file; (r, { i with file := file })

/-- The end of `process_dual_line` and `process_single_line`, with the names as they stand in the
columns. The new name may be `NULL`. -/
def assign (o : Options) (oldName : CString) (first second : Option CString) (i : Input) : Record Input :=
  let (fileOld, fileNew) := if o.swap then (second, first) else (first, second)
  match fileOld with
  | none => .undefined
  | some name => if oldName ≠ name then .rejected else ⟨some fileNew, .accepted i⟩

def processDualLine (o : Options) (realWidth : Nat) (oldName : CString) (line1 line2 : List UInt8)
    (i : Input) : Record Input :=
  if !(lineString line1).startsWith o.indicator1 then .rejected
  else
    let line1 := chompLine line1
    let line2 := lineString (chompLine line2)
    match (stringAt line1 o.indicator1.length).bind dequoteOutputFile with
    | none => .undefined -- `string_strip_trailing` of `NULL`
    | some first =>
      let first := first.stringStripTrailing [space, tab]
      let d := tabIndex line2 realWidth o.tabsize
      if !blankTo line2 d then .rejected
      else if !(CString.startsWith (line2.drop d) o.indicator2) then .rejected
      else assign o oldName (some first) (dequoteOutputFile (line2.drop (d + o.indicator2.length))) i

/-- The index of the last character before index `d` that is not blank. `none` if there is none, where
the source reads on before the line. -/
def lastNonBlank (line : List UInt8) : Nat → Option Nat
  | 0 => none
  | d + 1 => if isBlank (line.getD d 0) then lastNonBlank line d else some d

def processSingleLine (o : Options) (realWidth : Nat) (oldName : CString) (line : List UInt8) (i : Input) :
    Record Input :=
  if !(lineString line).startsWith o.indicator1 then .rejected
  else
    let line := chompLine line
    let d := tabIndex (lineString line) realWidth o.tabsize
    match charAt line d with
    | none => .undefined
    | some 0 => .rejected
    | some _ =>
      match lastNonBlank line d with
      | none => .undefined
      | some c =>
        if c + 1 = d then .rejected
        else
          -- an escaped blank belongs to the name
          let c := if line.getD c 0 = backslash then c + 1 else c
          let line := line.set (c + 1) 0
          let first := (stringAt line o.indicator1.length).bind dequoteOutputFile
          match stringAt line d with
          | none => .undefined
          | some rest =>
            if !rest.startsWith o.indicator2 then .rejected
            else assign o oldName first (dequoteOutputFile (rest.drop o.indicator2.length)) i

/-- The blank line between two records. There is no check for the end of the file. -/
def checkSeparator (o : Options) (hasNext : Bool) (r : Record Input) : Record Input :=
  match r.verdict with
  | .accepted i =>
    if o.separate && hasNext then
      match i.readUnreadLine with
      | (.line line, i) =>
        { r with verdict := if lineString (chompLine line) ≠ [] then .rejected else .accepted i }
      | _ => { r with verdict := .undefined }
    else r
  | _ => r

def record (o : Options) (realWidth : Nat) (oldName : CString) (hasNext : Bool) (i : Input) :
    Record Input :=
  match i.readUnreadLine with
  | (.line line1, i) =>
    match i.readUnreadLine with
    | (.line line2, i) =>
      let d := tabIndex (lineString line2) realWidth o.tabsize
      checkSeparator o hasNext <|
        if blankTo (lineString line2) d then processDualLine o realWidth oldName line1 line2 i
        else processSingleLine o realWidth oldName line1 (i.unreadLine line2)
    | (.error, _) => .rejected
    | (.eof, i) =>
      if hasNext then .rejected
      else checkSeparator o hasNext (processSingleLine o realWidth oldName line1 i)
  | _ => .rejected

/-- The file has no more lines. -/
def finish (i : Input) : Bool := i.readUnreadLine.1 = .eof

def input (o : Options) (realWidth : Nat) (files : List SpecId) (file : TextFile) (specs : EditSpecs) :
    InputResult :=
  inputLoop (record o realWidth) finish files ⟨[], file⟩ specs

end DualColumn

/-! ### Any format -/

inductive EditFormat where
  | destinationOnly
  | singleColumn
  | dualColumn
deriving DecidableEq, Repr

/-- The options of the formats, which each format keeps for itself. -/
structure FormatOptions where
  destinationOnly : DestinationOnly.Options := {}
  singleColumn : SingleColumn.Options := {}
  dualColumn : DualColumn.Options := {}
deriving DecidableEq, Repr

namespace EditFormat

/-- `format->output`: the text, and `real_width` after it. -/
def output (isprint : UInt8 → Bool) (o : FormatOptions) (h : Heap) (files : List SpecId)
    (realWidth : Nat) : EditFormat → Option (CString × Nat)
  | destinationOnly => some (DestinationOnly.output isprint o.destinationOnly h files, realWidth)
  | singleColumn => some (SingleColumn.output isprint o.singleColumn h files, realWidth)
  | dualColumn => DualColumn.output isprint o.dualColumn h files

/-- `format->input`. -/
def input (o : FormatOptions) (realWidth : Nat) (files : List SpecId) (file : TextFile)
    (specs : EditSpecs) : EditFormat → InputResult
  | destinationOnly => DestinationOnly.input o.destinationOnly files file specs
  | singleColumn => SingleColumn.input o.singleColumn files file specs
  | dualColumn => DualColumn.input o.dualColumn realWidth files file specs

end EditFormat

end Renameutils
