import Renameutils.ImportFile
import Renameutils.ListFiles
import Renameutils.StrBuf

/-!
# The output of `ls` (`process_ls_output`, `list.c`)

`ListFiles` has the lines that `ls` prints and `lsEntries`, the entries in them. Here is the text: `LsPrinted`
says which texts `ls --quoting-style=c` may print, and `processLsOutput_eq` that `process_ls_output` reads the
entries from all of them.
-/

namespace Renameutils
open CString

def doubleQuote : UInt8 := 34
def colon : UInt8 := 58

/-- `dequote_output_file(&line[1])` after `line[i] = '\0'`. -/
def dequoteUpTo (line : CString) (i : Nat) : Option CString := dequoteOutputFile (lineString ((line.set i 0).drop 1))

/-- The directory of a header: `tmp` with a slash after it. -/
def headerDir (dir : StrBuf) (tmp : CString) : StrBuf :=
  let dir := dir.set tmp
  if dir.charAt (dir.length - 1) ≠ slash then dir.appendChar slash else dir

/-- The loop of `process_ls_output`: the entries, each with the contents of `dir`, and `ferror` after it. It
is `none` where an `ls_assert` fails. -/
def processLsLoop : TextFile → StrBuf → Option (List (CString × CString) × Bool)
  | .line buf :: file, dir =>
    let line := lineString (chompLine buf)
    if line = [] then processLsLoop file dir
    else if line.head? ≠ some doubleQuote then none
    else if line.getLast? = some colon then -- then it denotes a directory
      if line.getD (line.length - 2) 0 ≠ doubleQuote then none
      else do
        let tmp ← dequoteUpTo line (line.length - 2)
        processLsLoop file (headerDir dir tmp)
    else if line.getLast? ≠ some doubleQuote then none
    else do
      let tmp ← dequoteUpTo line (line.length - 1)
      let (entries, ferror) ← processLsLoop file dir
      return ((dir, tmp) :: entries, ferror)
  | .error :: _, _ => some ([], true)
  | .eof :: _, _ | [], _ => some ([], false)

/-- `dir` before the loop. -/
def startDir (isDirectory : Bool) : Option CString → StrBuf
  | none => []
  | some firstdir =>
    if firstdir ≠ dot ∧ isDirectory = true then
      let dir := StrBuf.set [] firstdir
      if firstdir.getLast? ≠ some slash then dir.appendChar slash else dir
    else []

/-- `process_ls_output`: the memory, `files` and the result. -/
def processLs (fdopen isDirectory : Bool) (firstdir : Option CString) (output : TextFile) (h : Heap) :
    Option (Heap × List SpecId × Bool) :=
  if !fdopen then some (h, [], false)
  else do
    let (entries, ferror) ← processLsLoop output (startDir isDirectory firstdir)
    let (h, files) := loadFiles entries Table.empty h
    return (h, files, !ferror)

/-! ### What `ls` prints -/

/-- How `ls` writes one byte of a name. -/
inductive LsByte : UInt8 → CString → Prop
  | raw {c : UInt8} (hquote : c ≠ doubleQuote) (hbackslash : c ≠ backslash) (hnewline : c ≠ newline) : LsByte c [c]
  | letter {c : UInt8} (i : Fin 7) (hc : c.toNat = 7 + i) : LsByte c [backslash, cAbbrevs.get i]
  | octal {c : UInt8} (i j k : Fin 8) (hc : c.toNat = i * 64 + j * 8 + k) :
    LsByte c [backslash, octalDigit i, octalDigit j, octalDigit k]
  | doubleQuote : LsByte doubleQuote [backslash, doubleQuote]
  | backslash : LsByte backslash [backslash, backslash]

inductive LsName : CString → CString → Prop
  | nil : LsName [] []
  | cons {c : UInt8} {w s e : CString} (hw : LsByte c w) (h : LsName s e) : LsName (c :: s) (w ++ e)

/-- The texts of the lines `lines`, and of blank ones between them. -/
inductive LsPrinted : List LsLine → List UInt8 → Prop
  | nil : LsPrinted [] []
  | blank {lines : List LsLine} {text : List UInt8} (h : LsPrinted lines text) : LsPrinted lines (newline :: text)
  | directory {name e : CString} {lines : List LsLine} {text : List UInt8} (hne : name ≠ []) (hname : 0 ∉ name)
    (he : LsName name e) (h : LsPrinted lines text) :
    LsPrinted (.directory name :: lines) (doubleQuote :: e ++ doubleQuote :: colon :: newline :: text)
  | entry {name e : CString} {lines : List LsLine} {text : List UInt8} (hname : 0 ∉ name)
    (he : LsName name e) (h : LsPrinted lines text) :
    LsPrinted (.entry name :: lines) (doubleQuote :: e ++ doubleQuote :: newline :: text)

section
variable {c : UInt8} {w name e dir tmp : CString} {lines : List LsLine} {text : List UInt8} {file : TextFile}

theorem LsByte.encodes (h : LsByte c w) : EncodesByte c w := by
  cases h with
  | raw _ hbackslash _ => exact .raw hbackslash
  | letter i hc => exact .letter i hc
  | octal i j k hc =>
    have := c.toNat_lt
    exact .octal i j k (by omega)
  | doubleQuote => exact .self (by decide) (by decide)
  | backslash => exact .self (by decide) (by decide)

theorem LsName.encodes (h : LsName name e) : Encodes name e := by
  induction h with
  | nil => exact .nil
  | cons hw _ ih => exact .cons hw.encodes ih

theorem LsByte.notMem (h : LsByte c w) (hc : c ≠ 0) : 0 ∉ w ∧ newline ∉ w := by
  have hletter : ∀ i : Fin 7, 0 ∉ [CString.backslash, cAbbrevs.get i] ∧
      newline ∉ [CString.backslash, cAbbrevs.get i] := by
    decide
  have hdigit : ∀ i : Fin 8, octalDigit i ≠ 0 ∧ octalDigit i ≠ newline := by decide
  have hb : (0 : UInt8) ≠ CString.backslash ∧ newline ≠ CString.backslash := by decide
  cases h with
  | raw _ _ hnewline => simp [Ne.symm hc, Ne.symm hnewline]
  | letter i hc => exact hletter i
  | octal i j k hc =>
    simp [hb, Ne.symm (hdigit i).1, Ne.symm (hdigit i).2, Ne.symm (hdigit j).1, Ne.symm (hdigit j).2,
      Ne.symm (hdigit k).1, Ne.symm (hdigit k).2]
  | doubleQuote => decide
  | backslash => decide

theorem LsName.notMem (h : LsName name e) (hname : 0 ∉ name) : 0 ∉ e ∧ newline ∉ e := by
  induction h with
  | nil => simp
  | @cons c w s e hw _ ih =>
    obtain ⟨h0, hn⟩ := hw.notMem fun h => hname (h ▸ List.mem_cons_self)
    obtain ⟨h0', hn'⟩ := ih fun h => hname (List.mem_cons_of_mem _ h)
    simp [h0, hn, h0', hn']

theorem dequoteUpTo_name (hname : 0 ∉ name) (he : LsName name e) (rest : CString) :
    dequoteUpTo (doubleQuote :: e ++ doubleQuote :: rest) (e.length + 1) = some name := by
  have hset : (doubleQuote :: e ++ doubleQuote :: rest).set (e.length + 1) 0 = doubleQuote :: (e ++ 0 :: rest) := by
    rw [List.cons_append, List.set_cons_succ, List.set_append_right _ _ (Nat.le_refl _), Nat.sub_self,
      List.set_cons_zero]
  rw [dequoteUpTo, hset, List.drop_succ_cons, List.drop_zero, lineString_append_zero (he.notMem hname).1]
  exact he.encodes.dequote hname

theorem headerDir_eq (hne : tmp ≠ []) : headerDir dir tmp = withSlash tmp := by
  have hslash : slash ≠ 0 := by decide
  rw [headerDir, StrBuf.set_eq, StrBuf.charAt_last tmp hne, withSlash, List.getLast?_eq_some_getLast hne]
  by_cases h : tmp.getLast hne = slash
  · rw [if_neg (not_not.mpr h), if_pos (congrArg some h)]
  · rw [if_pos h, if_neg fun h' => h (Option.some.inj h'), StrBuf.appendChar_of_ne _ hslash]

theorem startDir_eq (isDirectory : Bool) (firstdir : CString) : startDir isDirectory (some firstdir) =
    if firstdir ≠ dot ∧ isDirectory = true then withSlash firstdir else [] := by
  have hslash : slash ≠ 0 := by decide
  rw [startDir, StrBuf.set_eq]
  dsimp only
  rw [StrBuf.appendChar_of_ne _ hslash, ite_not]
  rfl

theorem processLsLoop_line {line : CString} (hzero : 0 ∉ line) (hnewline : newline ∉ line)
    (hquote : line.head? = some doubleQuote) (text : List UInt8) (dir : StrBuf) :
    processLsLoop (textLines (line ++ newline :: text)) dir =
      if line.getLast? = some colon then
        if line.getD (line.length - 2) 0 ≠ doubleQuote then none
        else (dequoteUpTo line (line.length - 2)).bind fun tmp =>
          processLsLoop (textLines text) (headerDir dir tmp)
      else if line.getLast? ≠ some doubleQuote then none
      else (dequoteUpTo line (line.length - 1)).bind fun tmp =>
        (processLsLoop (textLines text) dir).bind fun r => some ((dir, tmp) :: r.1, r.2) := by
  have hne : line ≠ [] := by
    rintro rfl
    cases hquote
  rw [textLines_line hnewline, processLsLoop, lineString_chompLine hzero]
  dsimp only
  rw [if_neg hne, if_neg (not_not.mpr hquote)]
  rfl

theorem processLsLoop_eq (h : LsPrinted lines text) (dir : StrBuf) :
    processLsLoop (textLines text) dir = some (lsEntries dir lines, false) := by
  have hmem : ∀ {e : CString}, 0 ∉ e ∧ newline ∉ e → ∀ rest : CString, 0 ∉ rest ∧ newline ∉ rest →
      0 ∉ doubleQuote :: e ++ doubleQuote :: rest ∧ newline ∉ doubleQuote :: e ++ doubleQuote :: rest := by
    intro e he rest hrest
    have hquote : 0 ≠ doubleQuote ∧ newline ≠ doubleQuote := by decide
    simp [he, hrest, hquote]
  induction h generalizing dir with
  | nil => rfl
  | @blank lines text _ ih =>
    have hline : lineString (chompLine [newline]) = [] := by decide
    rw [textLines_newline, processLsLoop, hline]
    exact ih dir
  | @directory name e lines text hne hname he _ ih =>
    obtain ⟨h0, hn⟩ := hmem (he.notMem hname) [colon] (by decide)
    have hlen : (doubleQuote :: e ++ [doubleQuote, colon]).length - 2 = e.length + 1 := by simp
    have hat : (doubleQuote :: e ++ [doubleQuote, colon]).getD (e.length + 1) 0 = doubleQuote := by simp
    have hlast : (doubleQuote :: e ++ [doubleQuote, colon]).getLast? = some colon := by
      rw [List.getLast?_append_of_ne_nil _ (by simp)]
      rfl
    have hline := processLsLoop_line h0 hn rfl text dir
    rw [if_pos hlast, hlen, hat, if_neg (not_not.mpr rfl), dequoteUpTo_name hname he, Option.bind_some,
      headerDir_eq hne, ih] at hline
    rw [List.append_assoc] at hline
    exact hline
  | @entry name e lines text hname he _ ih =>
    obtain ⟨h0, hn⟩ := hmem (he.notMem hname) [] (by simp)
    have hlen : (doubleQuote :: e ++ [doubleQuote]).length - 1 = e.length + 1 := by simp
    have hlast : (doubleQuote :: e ++ [doubleQuote]).getLast? = some doubleQuote := List.getLast?_concat
    have hcolon : doubleQuote ≠ colon := by decide
    have hline := processLsLoop_line h0 hn rfl text dir
    rw [if_neg fun h => hcolon (Option.some.inj (hlast.symm.trans h)), if_neg (not_not.mpr hlast), hlen,
      dequoteUpTo_name hname he, Option.bind_some, ih, Option.bind_some, List.append_assoc] at hline
    exact hline

end

/-- `process_ls_output` reads what `ListFiles` says of the lines. -/
theorem processLs_read {δ : Type} (env : ListEnv δ) (firstdir : Option CString) {text : List UInt8}
    (h : LsPrinted env.lines text) (hopen : env.fdopen = true) (heap : Heap) :
    processLs env.fdopen env.firstdirIsDirectory firstdir (textLines text) heap =
      some ((loadFiles (processLsOutput env firstdir) Table.empty heap).1,
        (loadFiles (processLsOutput env firstdir) Table.empty heap).2, true) := by
  have hentries : processLsOutput env firstdir = lsEntries (startDir env.firstdirIsDirectory firstdir) env.lines := by
    cases firstdir with
    | none =>
      rw [processLsOutput.eq_def, hopen]
      rfl
    | some dir =>
      rw [processLsOutput.eq_def, hopen, startDir_eq]
      rfl
  rw [processLs, hopen, hentries, processLsLoop_eq h]
  rfl

/-- From all that `ls` may print, the list gets each entry but "." and "..", once, with the directory of its
section before it, and renamed to itself. -/
theorem processLs_printed {lines : List LsLine} {text : List UInt8} (h : LsPrinted lines text) (isDirectory : Bool)
    {firstdir : Option CString} (hfirst : firstdir = none ∨ firstdir = some dot) (heap : Heap) :
    ∃ heap' files, processLs true isDirectory firstdir (textLines text) heap = some (heap', files, true) ∧
      files.map heap'.oldName = (listedNames (lsEntries [] lines)).eraseDups ∧
      ∀ t ∈ files, heap'.newName t = heap'.oldName t ∧ heap'.status t = .unchecked := by
  have hstart : startDir isDirectory firstdir = [] := by
    rcases hfirst with rfl | rfl
    · rfl
    · rw [startDir_eq, if_neg fun h : dot ≠ dot ∧ isDirectory = true => h.1 rfl]
  have hload := loadFiles_loaded (lsEntries [] lines) Table.empty heap
  refine ⟨_, _, ?_, loadFiles_listedNames _ heap, fun t ht => ⟨(hload.new t ht).1, (hload.new t ht).2.2.2⟩⟩
  rw [processLs, hstart, processLsLoop_eq h]
  rfl

/-- `"a"` in `"d":`, listed twice. -/
theorem processLs_printed_twice : ∃ heap' files,
    processLs true false none (textLines [34, 100, 34, 58, 10, 34, 97, 34, 10, 34, 97, 34, 10]) .empty =
      some (heap', files, true) ∧ files.map heap'.oldName = [[100, 47, 97]] := by
  have hquoted : ∀ c : UInt8, c ≠ doubleQuote → c ≠ backslash → c ≠ newline → LsName [c] [c] :=
    fun _ h₁ h₂ h₃ => .cons (.raw h₁ h₂ h₃) .nil
  have hprinted : LsPrinted [.directory [100], .entry [97], .entry [97]]
      [34, 100, 34, 58, 10, 34, 97, 34, 10, 34, 97, 34, 10] :=
    .directory (by decide) (by decide) (hquoted 100 (by decide) (by decide) (by decide))
      (.entry (by decide) (hquoted 97 (by decide) (by decide) (by decide))
        (.entry (by decide) (hquoted 97 (by decide) (by decide) (by decide)) .nil))
  obtain ⟨heap', files, hls, hnames, _⟩ := processLs_printed hprinted false (.inl rfl) .empty
  exact ⟨heap', files, hls, hnames.trans (by decide)⟩

end Renameutils
