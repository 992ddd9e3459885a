import Renameutils.EditRejected

/-!
# Records that pass and records with faults

The `input` functions use what `dequote_output_file` gives without a look at it. For a format, `Passes`
says which records are accepted and what names they give, `Refused` which are rejected, and `Fault` which
records have a name that is `NULL` where it is used or are read outside of their line. `SafeText` is a text
without faults that leaves no spec without a name; `Describes.safeInput_loop` says that `input` is safe on
these texts and on no others. `KeepsText` is a text that changes no name unless it is accepted
(`Describes.keeps_loop`). Here are the records of `destination-only.c` and `single-column.c`.
-/

namespace Renameutils
open CString

/-- `input` returns, and when it returns true every spec has a new name that is not empty. -/
def SafeInput (files : List SpecId) (r : InputResult) : Prop :=
  ∃ result specs, r = .returned result specs ∧
    (result = true → ∀ s ∈ files, ∃ n, n ≠ [] ∧ specs.newName s = some n)

/-! ### Any format -/

section
variable {σ : Type}

theorem Record.eq_of_verdict {r : Record σ} {verdict : Verdict σ} (h : r.verdict = verdict) :
    r = ⟨r.newName, verdict⟩ := by
  rw [← h]

/-- `Reads passes oldName files file names left rest`: after records that pass, the reading has got to the
specs `left` and to `rest`. The records give `names`. -/
inductive Reads (passes : CString → Bool → σ → Option (Option CString) → σ → Prop)
    (oldName : SpecId → CString) :
    List SpecId → σ → List (SpecId × Option CString) → List SpecId → σ → Prop
  | here {files : List SpecId} {file : σ} : Reads passes oldName files file [] files file
  | next {spec : SpecId} {files left : List SpecId} {file file' rest : σ} {given : Option (Option CString)}
    {names : List (SpecId × Option CString)} (h : passes (oldName spec) (!files.isEmpty) file given file')
    (t : Reads passes oldName files file' names left rest) :
    Reads passes oldName (spec :: files) file (given.toList.map (spec, ·) ++ names) left rest

/-- A text without faults. If it ends after the records of all specs, then the last name that is given to a
spec is not empty, and a spec that is given none had one. -/
structure SafeText (passes : CString → Bool → σ → Option (Option CString) → σ → Prop)
    (fault : CString → Bool → σ → Prop) (ends : σ → Prop) (files : List SpecId) (file : σ)
    (specs : EditSpecs) : Prop where
  faultless : ∀ {names spec left rest}, Reads passes specs.oldName files file names (spec :: left) rest →
    ¬ fault (specs.oldName spec) (!left.isEmpty) rest
  given : ∀ {names rest}, Reads passes specs.oldName files file names [] rest → ends rest →
    ∀ s ∈ files, ∀ name, names.reverse.lookup s = some name → ∃ n, n ≠ [] ∧ name = some n
  kept : ∀ {names rest}, Reads passes specs.oldName files file names [] rest → ends rest →
    ∀ s ∈ files, names.reverse.lookup s = none → ∃ n, n ≠ [] ∧ specs.newName s = some n

/-- Where the text is rejected, at a record or for what follows the last one, the names given so far are those
that the specs have. -/
structure KeepsText (passes : CString → Bool → σ → Option (Option CString) → σ → Prop)
    (refused : CString → Bool → σ → Option (Option CString) → Prop) (ends : σ → Prop) (files : List SpecId)
    (file : σ) (specs : EditSpecs) : Prop where
  refused : ∀ {names spec left rest given}, Reads passes specs.oldName files file names (spec :: left) rest →
    refused (specs.oldName spec) (!left.isEmpty) rest given →
    KeepsNames (names ++ given.toList.map (spec, ·)) specs.newName
  trailing : ∀ {names rest}, Reads passes specs.oldName files file names [] rest → ¬ ends rest →
    KeepsNames names specs.newName

/-- `passes`, `refused` and `fault` say what `record` does. -/
structure Describes (record : CString → Bool → σ → Record σ)
    (passes : CString → Bool → σ → Option (Option CString) → σ → Prop)
    (refused : CString → Bool → σ → Option (Option CString) → Prop)
    (fault : CString → Bool → σ → Prop) : Prop where
  accepted : ∀ oldName hasNext file given rest,
    record oldName hasNext file = ⟨given, .accepted rest⟩ ↔ passes oldName hasNext file given rest
  rejected : ∀ oldName hasNext file given,
    record oldName hasNext file = ⟨given, .rejected⟩ ↔ refused oldName hasNext file given
  undefined : ∀ oldName hasNext file,
    (record oldName hasNext file).verdict = .undefined ↔ fault oldName hasNext file

variable {record : CString → Bool → σ → Record σ}
  {passes : CString → Bool → σ → Option (Option CString) → σ → Prop}
  {refused : CString → Bool → σ → Option (Option CString) → Prop} {fault : CString → Bool → σ → Prop}
  {oldName : SpecId → CString} {files : List SpecId} {file rest : σ}
  {names : List (SpecId × Option CString)}

theorem reads_nil_iff : Reads passes oldName files file names [] rest ↔
    match files with
    | [] => names = [] ∧ rest = file
    | spec :: files => ∃ given file' names', passes (oldName spec) (!files.isEmpty) file given file' ∧
        Reads passes oldName files file' names' [] rest ∧ names = given.toList.map (spec, ·) ++ names' := by
  constructor
  · intro h
    cases h with
    | here => exact ⟨rfl, rfl⟩
    | next h t => exact ⟨_, _, _, h, t, rfl⟩
  · cases files with
    | nil => rintro ⟨rfl, rfl⟩; exact .here
    | cons spec files => rintro ⟨given, file', names', h, t, rfl⟩; exact .next h t

theorem Describes.readRecords_accepted (d : Describes record passes refused fault) :
    readRecords record oldName files file = (names, .accepted rest) ↔
      Reads passes oldName files file names [] rest := by
  induction files generalizing file names with
  | nil => simp [reads_nil_iff, readRecords, eq_comm]
  | cons spec files ih =>
    rw [reads_nil_iff, readRecords]
    dsimp only
    constructor
    · intro h
      cases hv : (record (oldName spec) (!files.isEmpty) file).verdict with
      | accepted file' =>
        rw [hv] at h
        obtain ⟨rfl, hrest⟩ := Prod.mk.inj h
        exact ⟨_, file', _, (d.accepted ..).mp (Record.eq_of_verdict hv), ih.mp (Prod.ext rfl hrest), rfl⟩
      | rejected => rw [hv] at h; cases h
      | undefined => rw [hv] at h; cases h
    · rintro ⟨given, file', names', h, t, rfl⟩
      rw [(d.accepted ..).mpr h]
      dsimp only
      rw [ih.mpr t]

theorem Describes.readRecords_rejected (d : Describes record passes refused fault) :
    readRecords record oldName files file = (names, .rejected) ↔
      ∃ before spec left rest given, Reads passes oldName files file before (spec :: left) rest ∧
        refused (oldName spec) (!left.isEmpty) rest given ∧ names = before ++ given.toList.map (spec, ·) := by
  induction files generalizing file names with
  | nil =>
    refine iff_of_false (by simp [readRecords]) ?_
    rintro ⟨_, _, _, _, _, h, _⟩
    cases h
  | cons spec files ih =>
    rw [readRecords]
    dsimp only
    constructor
    · intro h
      cases hv : (record (oldName spec) (!files.isEmpty) file).verdict with
      | accepted file' =>
        rw [hv] at h
        obtain ⟨rfl, hrest⟩ := Prod.mk.inj h
        obtain ⟨before, spec', left, rest, given, hr, hf, hnames⟩ := ih.mp (Prod.ext rfl hrest)
        refine ⟨_, spec', left, rest, given, .next ((d.accepted ..).mp (Record.eq_of_verdict hv)) hr, hf, ?_⟩
        rw [List.append_assoc]
        exact congrArg _ hnames
      | rejected =>
        rw [hv] at h
        obtain ⟨rfl, _⟩ := Prod.mk.inj h
        exact ⟨[], spec, files, file, _, .here, (d.rejected ..).mp (Record.eq_of_verdict hv), rfl⟩
      | undefined => rw [hv] at h; cases h
    · rintro ⟨before, spec', left, rest, given, hr, hf, rfl⟩
      cases hr with
      | here =>
        rw [(d.rejected ..).mpr hf]
        rfl
      | next h t =>
        rw [(d.accepted ..).mpr h]
        dsimp only
        rw [ih.mpr ⟨_, spec', left, rest, given, t, hf, rfl⟩, List.append_assoc]

theorem Describes.readRecords_undefined (d : Describes record passes refused fault) :
    (readRecords record oldName files file).2 = .undefined ↔
      ∃ names spec left rest, Reads passes oldName files file names (spec :: left) rest ∧
        fault (oldName spec) (!left.isEmpty) rest := by
  induction files generalizing file with
  | nil =>
    refine iff_of_false (by simp [readRecords]) ?_
    rintro ⟨_, _, _, _, h, _⟩
    cases h
  | cons spec files ih =>
    rw [readRecords]
    dsimp only
    constructor
    · intro h
      cases hv : (record (oldName spec) (!files.isEmpty) file).verdict with
      | accepted file' =>
        rw [hv] at h
        obtain ⟨names, spec', left, rest, hr, hf⟩ := ih.mp h
        exact ⟨_, spec', left, rest, .next ((d.accepted ..).mp (Record.eq_of_verdict hv)) hr, hf⟩
      | rejected => rw [hv] at h; cases h
      | undefined => exact ⟨[], spec, files, file, .here, (d.undefined ..).mp hv⟩
    · rintro ⟨names, spec', left, rest, hr, hf⟩
      cases hr with
      | here => rw [(d.undefined ..).mpr hf]
      | next h t =>
        rw [(d.accepted ..).mpr h]
        exact ih.mpr ⟨_, spec', left, rest, t, hf⟩

theorem Describes.safeInput_loop (d : Describes record passes refused fault) {finish : σ → Bool} {ends : σ → Prop}
    (hends : ∀ rest, finish rest = true ↔ ends rest) (specs : EditSpecs) :
    SafeInput files (inputLoop record finish files file specs) ↔
      SafeText passes fault ends files file specs := by
  rw [inputLoop_eq]
  constructor
  · rintro ⟨result, specs', heq, hnamed⟩
    have hlast : ∀ {names rest}, Reads passes specs.oldName files file names [] rest → ends rest →
        ∀ s ∈ files, ∃ n, n ≠ [] ∧ (names.reverse.lookup s).getD (specs.newName s) = some n := by
      intro names rest hr hend s hs
      rw [d.readRecords_accepted.mpr hr] at heq
      obtain ⟨hresult, rfl⟩ := InputResult.returned.inj heq
      obtain ⟨n, hn, hname⟩ := hnamed (hresult ▸ (hends rest).mpr hend) s hs
      exact ⟨n, hn, by rw [← hname, EditSpecs.assign_newName]⟩
    refine ⟨fun hr hf => ?_, fun hr hend s hs name hname => ?_, fun hr hend s hs hnone => ?_⟩
    · rw [d.readRecords_undefined.mpr ⟨_, _, _, _, hr, hf⟩] at heq
      cases heq
    · have hn := hlast hr hend s hs
      rwa [hname] at hn
    · have hn := hlast hr hend s hs
      rwa [hnone] at hn
  · intro safe
    rcases hr : readRecords record specs.oldName files file with ⟨names, verdict⟩
    cases verdict with
    | accepted rest =>
      refine ⟨_, _, rfl, fun hend s hs => ?_⟩
      have hreads := d.readRecords_accepted.mp hr
      have hrest := (hends rest).mp hend
      rw [EditSpecs.assign_newName]
      cases hname : names.reverse.lookup s with
      | none => exact safe.kept hreads hrest s hs hname
      | some name => exact safe.given hreads hrest s hs name hname
    | rejected => exact ⟨false, _, rfl, nofun⟩
    | undefined =>
      obtain ⟨_, _, _, _, hreads, hf⟩ := d.readRecords_undefined.mp (congrArg Prod.snd hr)
      exact absurd hf (safe.faultless hreads)

theorem Describes.keeps_loop (d : Describes record passes refused fault) {finish : σ → Bool} {ends : σ → Prop}
    (hends : ∀ rest, finish rest = true ↔ ends rest) (specs : EditSpecs) :
    (∀ specs', inputLoop record finish files file specs = .returned false specs' →
      specs'.newName = specs.newName ∧ specs'.status = specs.status) ↔
      KeepsText passes refused ends files file specs := by
  have hkeeps : ∀ names, KeepsNames names specs.newName ↔ (specs.assign names).newName = specs.newName :=
    fun names => keepsNames_iff
  rw [inputLoop_eq]
  constructor
  · refine fun h => ⟨fun hr hf => ?_, fun hr hend => ?_⟩
    · rw [d.readRecords_rejected.mpr ⟨_, _, _, _, _, hr, hf, rfl⟩] at h
      exact (hkeeps _).mpr (h _ rfl).1
    · rw [d.readRecords_accepted.mpr hr] at h
      have hfinish : finish _ = false := Bool.eq_false_iff.mpr fun hf => hend ((hends _).mp hf)
      exact (hkeeps _).mpr (h _ (by simp only [Verdict.result, hfinish])).1
  · intro keeps specs' heq
    rcases hr : readRecords record specs.oldName files file with ⟨names, verdict⟩
    rw [hr] at heq
    cases verdict with
    | accepted rest =>
      obtain ⟨hfinish, rfl⟩ := InputResult.returned.inj heq
      have hend : ¬ ends rest := fun hend => by rw [(hends rest).mpr hend] at hfinish; cases hfinish
      exact ⟨(hkeeps _).mp (keeps.trailing (d.readRecords_accepted.mp hr) hend), EditSpecs.assign_status⟩
    | rejected =>
      obtain ⟨_, rfl⟩ := InputResult.returned.inj heq
      obtain ⟨before, spec, left, rest, given, hreads, hf, rfl⟩ := d.readRecords_rejected.mp hr
      exact ⟨(hkeeps _).mp (keeps.refused hreads hf), EditSpecs.assign_status⟩
    | undefined => cases heq

end

/-! ### Lines -/

/-- A line as a string, without its newline. -/
def lineText (line : List UInt8) : CString := lineString (chompLine line)

/-- What follows the blank line between two records. -/
def Separated (separate hasNext : Bool) (file rest : TextFile) : Prop :=
  if separate && hasNext then ∃ line, lineText line = [] ∧ file = .line line :: rest else file = rest

theorem readSeparator_cases {σ : Type} (separate hasNext : Bool) (file : TextFile)
    (next : TextFile → Record σ) :
    (∃ rest, (∀ rest', Separated separate hasNext file rest' ↔ rest' = rest) ∧
        readSeparator separate hasNext file next = next rest) ∨
      (∀ rest, ¬ Separated separate hasNext file rest) ∧
        readSeparator separate hasNext file next = .rejected := by
  unfold readSeparator Separated
  split
  · match file with
    | .line line :: rest =>
      by_cases hline : lineText line = []
      · refine .inl ⟨rest, fun rest' => ⟨?_, fun h => ⟨line, hline, h ▸ rfl⟩⟩, if_neg (not_not.mpr hline)⟩
        rintro ⟨_, _, h⟩
        exact (List.cons.inj h).2.symm
      · refine .inr ⟨?_, if_pos hline⟩
        rintro rest' ⟨_, hline', h⟩
        exact hline (ReadResult.line.inj (List.cons.inj h).1 ▸ hline')
    | [] => exact .inr ⟨fun _ ⟨_, _, h⟩ => by (cases h), rfl⟩
    | .eof :: rest => exact .inr ⟨fun _ ⟨_, _, h⟩ => by (cases h), rfl⟩
    | .error :: rest => exact .inr ⟨fun _ ⟨_, _, h⟩ => by (cases h), rfl⟩
  · exact .inl ⟨file, fun rest' => eq_comm, rfl⟩

theorem readSeparator_accepted {σ : Type} {separate hasNext : Bool} {file : TextFile}
    {next : TextFile → Record σ} {given : Option (Option CString)} {i : σ} :
    readSeparator separate hasNext file next = ⟨given, .accepted i⟩ ↔
      ∃ rest, Separated separate hasNext file rest ∧ next rest = ⟨given, .accepted i⟩ := by
  rcases readSeparator_cases separate hasNext file next with ⟨rest, hrest, heq⟩ | ⟨hnone, heq⟩
  · simp [heq, hrest]
  · rw [heq]
    exact iff_of_false nofun fun ⟨rest, h, _⟩ => hnone rest h

theorem readSeparator_rejected {σ : Type} {separate hasNext : Bool} {file : TextFile}
    {next : TextFile → Record σ} {given : Option (Option CString)} :
    readSeparator separate hasNext file next = ⟨given, .rejected⟩ ↔
      (given = none ∧ ∀ rest, ¬ Separated separate hasNext file rest) ∨
        ∃ rest, Separated separate hasNext file rest ∧ next rest = ⟨given, .rejected⟩ := by
  rcases readSeparator_cases separate hasNext file next with ⟨rest, hrest, heq⟩ | ⟨hnone, heq⟩
  · simp [heq, hrest]
  · simp [heq, hnone, Record.rejected, eq_comm]

theorem readSeparator_undefined {σ : Type} {separate hasNext : Bool} {file : TextFile}
    {next : TextFile → Record σ} :
    (readSeparator separate hasNext file next).verdict = .undefined ↔
      ∃ rest, Separated separate hasNext file rest ∧ (next rest).verdict = .undefined := by
  rcases readSeparator_cases separate hasNext file next with ⟨rest, hrest, heq⟩ | ⟨hnone, heq⟩
  · simp [heq, hrest]
  · rw [heq]
    exact iff_of_false nofun fun ⟨rest, h, _⟩ => hnone rest h

theorem line_or_none (file : TextFile) :
    (∃ line after, file = .line line :: after) ∨ ∀ line, (readLine file).1 ≠ .line line := by
  match file with
  | .line line :: after => exact .inl ⟨line, after, rfl⟩
  | [] => exact .inr fun _ => nofun
  | .eof :: _ => exact .inr fun _ => nofun
  | .error :: _ => exact .inr fun _ => nofun

/-- An empty name is not assigned. -/
def nameGiven (name : CString) : Option (Option CString) := if name = [] then none else some (some name)

/-! ### `destination-only.c` -/

namespace DestinationOnly
variable {o : Options} {oldName : CString} {hasNext : Bool} {file rest : TextFile}
  {given : Option (Option CString)}

/-- The record at `file` has the text `field`. -/
def Entry (o : Options) (hasNext : Bool) (file : TextFile) (field : CString) (rest : TextFile) : Prop :=
  ∃ line after, file = .line line :: after ∧ lineText line = field ∧ Separated o.separate hasNext after rest

def Passes (o : Options) (_oldName : CString) (hasNext : Bool) (file : TextFile)
    (given : Option (Option CString)) (rest : TextFile) : Prop :=
  ∃ field name, Entry o hasNext file field rest ∧ dequoteOutputFile field = some name ∧ given = nameGiven name

/-- There is no line, or no blank line after it where there should be one. No name is given then. -/
inductive Refused (o : Options) (_oldName : CString) (hasNext : Bool) (file : TextFile) :
    Option (Option CString) → Prop
  | noLine (h : ∀ line after, file ≠ .line line :: after) : Refused o _oldName hasNext file none
  | separator {line : List UInt8} {after : TextFile} (hfile : file = .line line :: after)
    (h : ∀ rest, ¬ Separated o.separate hasNext after rest) : Refused o _oldName hasNext file none

/-- The name has a bad escape. -/
def Fault (o : Options) (_oldName : CString) (hasNext : Bool) (file : TextFile) : Prop :=
  ∃ field rest, Entry o hasNext file field rest ∧ dequoteOutputFile field = none

theorem entry_line {line : List UInt8} {after : TextFile} {field : CString} :
    Entry o hasNext (.line line :: after) field rest ↔
      lineText line = field ∧ Separated o.separate hasNext after rest := by
  constructor
  · rintro ⟨_, _, heq, h⟩
    cases heq
    exact h
  · exact fun h => ⟨_, _, rfl, h⟩

/-- The end of a record. -/
def take (field : CString) (file : TextFile) : Record TextFile :=
  match dequoteOutputFile field with
  | none => .undefined
  | some name => ⟨nameGiven name, .accepted file⟩

theorem record_line (o : Options) (oldName : CString) (hasNext : Bool) (line : List UInt8) (after : TextFile) :
    record o oldName hasNext (.line line :: after) =
      readSeparator o.separate hasNext after (take (lineText line)) := by
  rw [record]
  dsimp only [readLine]
  congr 1
  funext file
  rw [take, lineText]
  split <;> simp_all [nameGiven]

theorem take_accepted {field : CString} : take field file = ⟨given, .accepted rest⟩ ↔
    ∃ name, dequoteOutputFile field = some name ∧ given = nameGiven name ∧ rest = file := by
  rw [take]
  cases dequoteOutputFile field with
  | none => simp [Record.undefined]
  | some name => simp [eq_comm]

theorem take_not_rejected {field : CString} : take field file ≠ ⟨given, .rejected⟩ := by
  rw [take]
  cases dequoteOutputFile field <;> simp [Record.undefined]

theorem take_undefined {field : CString} :
    (take field file).verdict = .undefined ↔ dequoteOutputFile field = none := by
  rw [take]
  cases dequoteOutputFile field <;> simp [Record.undefined]

theorem record_noLine (h : ∀ line, (readLine file).1 ≠ .line line) :
    record o oldName hasNext file = .rejected := by
  rw [record]
  split
  · rename_i heq
    exact absurd (congrArg Prod.fst heq) (h _)
  · rfl

theorem not_entry (h : ∀ line, (readLine file).1 ≠ .line line) (field : CString) :
    ¬ Entry o hasNext file field rest := by
  rintro ⟨_, _, rfl, _⟩
  exact h _ rfl

theorem record_accepted (o : Options) (oldName : CString) (hasNext : Bool) (file : TextFile)
    (given : Option (Option CString)) (rest : TextFile) : record o oldName hasNext file = ⟨given, .accepted rest⟩ ↔
      Passes o oldName hasNext file given rest := by
  unfold Passes
  rcases line_or_none file with ⟨line, after, rfl⟩ | hnone
  · simp only [record_line, readSeparator_accepted, take_accepted, entry_line]
    constructor
    · rintro ⟨_, hsep, name, hname, hgiven, rfl⟩
      exact ⟨_, name, ⟨rfl, hsep⟩, hname, hgiven⟩
    · rintro ⟨_, name, ⟨rfl, hsep⟩, hname, hgiven⟩
      exact ⟨_, hsep, name, hname, hgiven, rfl⟩
  · rw [record_noLine hnone]
    exact iff_of_false nofun fun ⟨_, _, h, _⟩ => not_entry hnone _ h

theorem record_rejected (o : Options) (oldName : CString) (hasNext : Bool) (file : TextFile)
    (given : Option (Option CString)) : record o oldName hasNext file = ⟨given, .rejected⟩ ↔
      Refused o oldName hasNext file given := by
  rcases line_or_none file with ⟨line, after, rfl⟩ | hnone
  · rw [record_line, readSeparator_rejected, or_iff_left fun ⟨_, _, h⟩ => take_not_rejected h]
    constructor
    · rintro ⟨rfl, h⟩
      exact .separator rfl h
    · intro h
      cases h with
      | noLine h => exact absurd rfl (h line after)
      | separator hfile h =>
        cases hfile
        exact ⟨rfl, h⟩
  · rw [record_noLine hnone]
    constructor
    · intro h
      obtain rfl : given = none := (congrArg Record.newName h).symm
      exact .noLine fun line after hfile => hnone line (by rw [hfile]; rfl)
    · intro h
      cases h <;> rfl

theorem record_undefined (o : Options) (oldName : CString) (hasNext : Bool) (file : TextFile) :
    (record o oldName hasNext file).verdict = .undefined ↔ Fault o oldName hasNext file := by
  unfold Fault
  rcases line_or_none file with ⟨line, after, rfl⟩ | hnone
  · simp only [record_line, readSeparator_undefined, take_undefined, entry_line]
    constructor
    · rintro ⟨rest, hsep, hname⟩
      exact ⟨_, rest, ⟨rfl, hsep⟩, hname⟩
    · rintro ⟨_, rest, ⟨rfl, hsep⟩, hname⟩
      exact ⟨rest, hsep, hname⟩
  · rw [record_noLine hnone]
    exact iff_of_false nofun fun ⟨_, _, h, _⟩ => not_entry hnone _ h

theorem describes (o : Options) : Describes (record o) (Passes o) (Refused o) (Fault o) :=
  ⟨record_accepted o, record_rejected o, record_undefined o⟩

end DestinationOnly

/-! ### `single-column.c` -/

theorem startsWith_iff {str start : CString} : str.startsWith start = true ↔ ∃ rest, str = start ++ rest := by
  rw [CString.startsWith, List.isPrefixOf_iff_prefix]
  exact ⟨fun ⟨rest, h⟩ => ⟨rest, h.symm⟩, fun ⟨rest, h⟩ => ⟨rest, h.symm⟩⟩

namespace SingleColumn
variable {o : Options} {oldName : CString} {hasNext : Bool} {file rest : TextFile}
  {given : Option (Option CString)}

/-- The record at `file` has the texts `first` and `second` after its indicators. -/
def Entry (o : Options) (hasNext : Bool) (file : TextFile) (first second : CString) (rest : TextFile) : Prop :=
  ∃ line1 line2 after, file = .line line1 :: .line line2 :: after ∧ lineText line1 = o.indicator1 ++ first ∧
    lineText line2 = o.indicator2 ++ second ∧ Separated o.separate hasNext after rest

/-- The column of the old name, and that of the new name. -/
def Options.old (o : Options) (first second : CString) : CString := if o.swap then second else first
def Options.new (o : Options) (first second : CString) : CString := if o.swap then first else second

def Passes (o : Options) (oldName : CString) (hasNext : Bool) (file : TextFile)
    (given : Option (Option CString)) (rest : TextFile) : Prop :=
  ∃ first second fileOld, Entry o hasNext file first second rest ∧
    dequoteOutputFile (o.old first second) = some fileOld ∧
    if fileOld = oldName then ∃ name, dequoteOutputFile (o.new first second) = some name ∧ given = nameGiven name
    else given = none

/-- There are no two lines, or no blank line after them where there should be one, or they do not start with
the indicators. No name is given then. -/
inductive Refused (o : Options) (_oldName : CString) (hasNext : Bool) (file : TextFile) :
    Option (Option CString) → Prop
  | noLines (h : ∀ line1 line2 after, file ≠ .line line1 :: .line line2 :: after) :
    Refused o _oldName hasNext file none
  | separator {line1 line2 : List UInt8} {after : TextFile} (hfile : file = .line line1 :: .line line2 :: after)
    (h : ∀ rest, ¬ Separated o.separate hasNext after rest) : Refused o _oldName hasNext file none
  | indicator {line1 line2 : List UInt8} {after rest : TextFile} (hfile : file = .line line1 :: .line line2 :: after)
    (hsep : Separated o.separate hasNext after rest)
    (h : ∀ first second, lineText line1 = o.indicator1 ++ first → lineText line2 ≠ o.indicator2 ++ second) :
    Refused o _oldName hasNext file none

/-- The old name has a bad escape, or it is the right one and the new name has. -/
def Fault (o : Options) (oldName : CString) (hasNext : Bool) (file : TextFile) : Prop :=
  ∃ first second rest, Entry o hasNext file first second rest ∧
    (dequoteOutputFile (o.old first second) = none ∨
      dequoteOutputFile (o.old first second) = some oldName ∧ dequoteOutputFile (o.new first second) = none)

theorem entry_lines {line1 line2 : List UInt8} {after : TextFile} {first second : CString} :
    Entry o hasNext (.line line1 :: .line line2 :: after) first second rest ↔
      lineText line1 = o.indicator1 ++ first ∧ lineText line2 = o.indicator2 ++ second ∧
        Separated o.separate hasNext after rest := by
  constructor
  · rintro ⟨_, _, _, heq, h⟩
    cases heq
    exact h
  · exact fun h => ⟨_, _, _, rfl, h⟩

/-- The end of a record, with the texts of its lines. -/
def take (o : Options) (oldName text1 text2 : CString) (file : TextFile) : Record TextFile :=
  if !text1.startsWith o.indicator1 then .rejected
  else if !text2.startsWith o.indicator2 then .rejected
  else
    let first := text1.drop o.indicator1.length
    let second := text2.drop o.indicator2.length
    assign oldName (dequoteOutputFile (o.old first second)) (dequoteOutputFile (o.new first second)) file

theorem record_lines (o : Options) (oldName : CString) (hasNext : Bool) (line1 line2 : List UInt8)
    (after : TextFile) : record o oldName hasNext (.line line1 :: .line line2 :: after) =
      readSeparator o.separate hasNext after (take o oldName (lineText line1) (lineText line2)) := by
  rw [record]
  dsimp only [readLine]
  congr 1
  funext file
  simp only [take, lineText, Options.old, Options.new]
  cases o.swap <;> rfl

theorem take_cases (o : Options) (oldName text1 text2 : CString) :
    (∃ first second, text1 = o.indicator1 ++ first ∧ text2 = o.indicator2 ++ second ∧
      take o oldName text1 text2 = assign oldName (dequoteOutputFile (o.old first second))
        (dequoteOutputFile (o.new first second))) ∨
    (∀ first second, text1 = o.indicator1 ++ first → text2 ≠ o.indicator2 ++ second) ∧
      take o oldName text1 text2 = fun _ => .rejected := by
  by_cases h1 : text1.startsWith o.indicator1 = true
  · by_cases h2 : text2.startsWith o.indicator2 = true
    · obtain ⟨first, rfl⟩ := startsWith_iff.mp h1
      obtain ⟨second, rfl⟩ := startsWith_iff.mp h2
      refine .inl ⟨first, second, rfl, rfl, funext fun file => ?_⟩
      simp only [take, h1, h2, Bool.not_true, Bool.false_eq_true, if_false, List.drop_left]
    · refine .inr ⟨fun first second _ heq => h2 (startsWith_iff.mpr ⟨second, heq⟩), funext fun file => ?_⟩
      simp only [take, h1, h2, Bool.not_true, Bool.not_false, Bool.false_eq_true, if_false, if_true]
  · refine .inr ⟨fun first second heq => absurd (startsWith_iff.mpr ⟨first, heq⟩) h1, funext fun file => ?_⟩
    simp only [take, h1, Bool.not_false, if_true]

theorem assign_accepted {fileOld fileNew : Option CString} :
    assign oldName fileOld fileNew file = ⟨given, .accepted rest⟩ ↔ rest = file ∧
      ∃ name, fileOld = some name ∧
        if name = oldName then ∃ new, fileNew = some new ∧ given = nameGiven new else given = none := by
  unfold assign
  cases fileOld with
  | none => simp [Record.undefined]
  | some name =>
    by_cases hname : name = oldName
    · rcases fileNew with _ | _ | _ <;> simp [hname, Record.undefined, nameGiven, eq_comm, and_comm]
    · simp only [ne_eq, hname, not_false_eq_true, if_true, Record.mk.injEq, Verdict.accepted.injEq,
        Option.some.injEq, exists_eq_left', if_false]
      exact ⟨fun h => ⟨h.2.symm, h.1.symm⟩, fun h => ⟨h.2.symm, h.1.symm⟩⟩

theorem assign_not_rejected {fileOld fileNew : Option CString} :
    assign oldName fileOld fileNew file ≠ ⟨given, .rejected⟩ := by
  unfold assign
  cases fileOld with
  | none => simp [Record.undefined]
  | some name =>
    by_cases hname : name = oldName
    · rcases fileNew with _ | _ | _ <;> simp [hname, Record.undefined]
    · simp [hname]

theorem assign_undefined {fileOld fileNew : Option CString} :
    (assign oldName fileOld fileNew file).verdict = .undefined ↔
      fileOld = none ∨ fileOld = some oldName ∧ fileNew = none := by
  unfold assign
  cases fileOld with
  | none => simp [Record.undefined]
  | some name =>
    by_cases hname : name = oldName
    · rcases fileNew with _ | _ | _ <;> simp [hname, Record.undefined]
    · simp [hname]

theorem record_noLines (h : ∀ line1 line2 after, file ≠ .line line1 :: .line line2 :: after) :
    record o oldName hasNext file = .rejected := by
  rcases line_or_none file with ⟨line1, after, rfl⟩ | hnone
  · rcases line_or_none after with ⟨line2, after, rfl⟩ | hnone
    · exact absurd rfl (h _ _ _)
    · simp only [record]
      split
      · rename_i heq
        exact absurd heq (hnone _)
      · rfl
  · simp only [record]
    split
    · rename_i heq _
      exact absurd heq (hnone _)
    · rfl

theorem not_entry (h : ∀ line1 line2 after, file ≠ .line line1 :: .line line2 :: after)
    (first second : CString) : ¬ Entry o hasNext file first second rest := by
  rintro ⟨_, _, _, rfl, _⟩
  exact h _ _ _ rfl

theorem lines_or_none (file : TextFile) : (∃ line1 line2 after, file = .line line1 :: .line line2 :: after) ∨
    ∀ line1 line2 after, file ≠ .line line1 :: .line line2 :: after := by
  by_cases h : ∃ line1 line2 after, file = .line line1 :: .line line2 :: after
  · exact .inl h
  · exact .inr fun line1 line2 after heq => h ⟨line1, line2, after, heq⟩

theorem record_accepted (o : Options) (oldName : CString) (hasNext : Bool) (file : TextFile)
    (given : Option (Option CString)) (rest : TextFile) : record o oldName hasNext file = ⟨given, .accepted rest⟩ ↔
      Passes o oldName hasNext file given rest := by
  unfold Passes
  rcases lines_or_none file with ⟨line1, line2, after, rfl⟩ | hnone
  · simp only [record_lines, readSeparator_accepted, entry_lines]
    rcases take_cases o oldName (lineText line1) (lineText line2) with ⟨first, second, h1, h2, htake⟩ |
        ⟨hnone, htake⟩
    · simp only [htake, assign_accepted]
      simp only [h1, h2, List.append_cancel_left_eq]
      constructor
      · rintro ⟨_, hsep, rfl, fileOld, h⟩
        exact ⟨first, second, fileOld, ⟨rfl, rfl, hsep⟩, h⟩
      · rintro ⟨_, _, fileOld, ⟨rfl, rfl, hsep⟩, h⟩
        exact ⟨rest, hsep, rfl, fileOld, h⟩
    · simp only [htake]
      refine iff_of_false (fun ⟨_, _, h⟩ => nomatch h) fun ⟨first, second, _, h, _⟩ => ?_
      exact hnone first second h.1 h.2.1
  · rw [record_noLines hnone]
    exact iff_of_false nofun fun ⟨_, _, _, h, _⟩ => not_entry hnone _ _ h

theorem record_rejected (o : Options) (oldName : CString) (hasNext : Bool) (file : TextFile)
    (given : Option (Option CString)) : record o oldName hasNext file = ⟨given, .rejected⟩ ↔
      Refused o oldName hasNext file given := by
  rcases lines_or_none file with ⟨line1, line2, after, rfl⟩ | hnone
  · rw [record_lines, readSeparator_rejected]
    constructor
    · rintro (⟨rfl, h⟩ | ⟨rest, hsep, h⟩)
      · exact .separator rfl h
      · rcases take_cases o oldName (lineText line1) (lineText line2) with ⟨_, _, _, _, htake⟩ | ⟨hno, htake⟩
        · rw [htake] at h
          exact absurd h assign_not_rejected
        · rw [htake] at h
          obtain rfl : given = none := (congrArg Record.newName h).symm
          exact .indicator rfl hsep hno
    · intro h
      cases h with
      | noLines h => exact absurd rfl (h line1 line2 after)
      | separator hfile h =>
        cases hfile
        exact .inl ⟨rfl, h⟩
      | @indicator _ _ _ rest hfile hsep h =>
        cases hfile
        refine .inr ⟨rest, hsep, ?_⟩
        rcases take_cases o oldName (lineText line1) (lineText line2) with
          ⟨first, second, h1, h2, _⟩ | ⟨_, htake⟩
        · exact absurd h2 (h first second h1)
        · rw [htake]; rfl
  · rw [record_noLines hnone]
    constructor
    · intro h
      obtain rfl : given = none := (congrArg Record.newName h).symm
      exact .noLines hnone
    · intro h
      cases h <;> rfl

theorem record_undefined (o : Options) (oldName : CString) (hasNext : Bool) (file : TextFile) :
    (record o oldName hasNext file).verdict = .undefined ↔ Fault o oldName hasNext file := by
  unfold Fault
  rcases lines_or_none file with ⟨line1, line2, after, rfl⟩ | hnone
  · simp only [record_lines, readSeparator_undefined, entry_lines]
    rcases take_cases o oldName (lineText line1) (lineText line2) with ⟨first, second, h1, h2, htake⟩ |
        ⟨hnone, htake⟩
    · simp only [htake, assign_undefined]
      simp only [h1, h2, List.append_cancel_left_eq]
      constructor
      · rintro ⟨rest, hsep, h⟩
        exact ⟨first, second, rest, ⟨rfl, rfl, hsep⟩, h⟩
      · rintro ⟨_, _, rest, ⟨rfl, rfl, hsep⟩, h⟩
        exact ⟨rest, hsep, h⟩
    · simp only [htake]
      refine iff_of_false (fun ⟨_, _, h⟩ => nomatch h) fun ⟨first, second, _, h, _⟩ => ?_
      exact hnone first second h.1 h.2.1
  · rw [record_noLines hnone]
    exact iff_of_false nofun fun ⟨_, _, _, h, _⟩ => not_entry hnone _ _ h

theorem describes (o : Options) : Describes (record o) (Passes o) (Refused o) (Fault o) :=
  ⟨record_accepted o, record_rejected o, record_undefined o⟩

end SingleColumn

end Renameutils
