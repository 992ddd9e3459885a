import Renameutils.EditPasses

/-!
# Edits that are read safely, and edits that are rejected

The records of `dual-column.c`: the columns that a record has, the faults of its lines and its names, and
what it is refused for. `EditFormat.safeInput_iff` then says for each format on which texts `input` is safe,
and `EditFormat.input_rejected_iff` on which it leaves all names as they were unless it accepts them.
-/

namespace Renameutils
open CString

@[simp] theorem chompLine_length (buf : List UInt8) : (chompLine buf).length = buf.length := by
  unfold chompLine
  split
  · exact List.length_set
  · rfl

theorem stringAt_of_le {buf : List UInt8} {d : Nat} (h : d ≤ buf.length) :
    stringAt buf d = some (lineString (buf.drop d)) := if_pos h

theorem length_le_of_startsWith {buf : List UInt8} {start : CString}
    (h : (lineString buf).startsWith start = true) : start.length ≤ buf.length := by
  obtain ⟨rest, hrest⟩ := startsWith_iff.mp h
  have hle : (lineString buf).length ≤ buf.length := (List.takeWhile_prefix _).length_le
  rw [hrest, List.length_append] at hle
  omega

namespace DualColumn

/-- The lines of the record at `i`, and what follows. A second line that is blank up to the second column
belongs to the record. -/
inductive Lines (o : Options) (realWidth : Nat) (hasNext : Bool) (i : Input) :
    List UInt8 → Option (List UInt8) → Input → Prop
  | two {line1 line2 : List UInt8} {i₁ i₂ : Input} (h₁ : i.readUnreadLine = (.line line1, i₁))
    (h₂ : i₁.readUnreadLine = (.line line2, i₂))
    (hblank : blankTo (lineString line2) (tabIndex (lineString line2) realWidth o.tabsize) = true) :
    Lines o realWidth hasNext i line1 (some line2) i₂
  | one {line1 line2 : List UInt8} {i₁ i₂ : Input} (h₁ : i.readUnreadLine = (.line line1, i₁))
    (h₂ : i₁.readUnreadLine = (.line line2, i₂))
    (hblank : blankTo (lineString line2) (tabIndex (lineString line2) realWidth o.tabsize) = false) :
    Lines o realWidth hasNext i line1 none (i₂.unreadLine line2)
  | last {line1 : List UInt8} {i₁ i₂ : Input} (h₁ : i.readUnreadLine = (.line line1, i₁))
    (h₂ : i₁.readUnreadLine = (.eof, i₂)) (hnext : hasNext = false) :
    Lines o realWidth hasNext i line1 none i₂

/-- The first of two lines has `field` after its indicator. -/
def FirstField (o : Options) (line1 : List UInt8) (field : CString) : Prop :=
  (lineString line1).startsWith o.indicator1 = true ∧
    stringAt (chompLine line1) o.indicator1.length = some field

/-- The second of two lines is blank up to the second column, with `field` after the indicator there. -/
def SecondField (o : Options) (realWidth : Nat) (line2 : List UInt8) (field : CString) : Prop :=
  let d := tabIndex (lineText line2) realWidth o.tabsize
  blankTo (lineText line2) d = true ∧ (lineText line2).drop d = o.indicator2 ++ field

/-- The index of the second column in a line that has both. -/
def secondColumn (o : Options) (realWidth : Nat) (line : List UInt8) : Nat :=
  tabIndex (lineText line) realWidth o.tabsize

/-- The line, cut off after the character at index `c`, or after the next if this is a backslash. -/
def cutAfter (buf : List UInt8) (c : Nat) : List UInt8 :=
  buf.set ((if buf.getD c 0 = backslash then c + 1 else c) + 1) 0

/-- A line with something at the second column. What is before it ends at index `c`, with a blank between. -/
def FirstEnd (o : Options) (realWidth : Nat) (line : List UInt8) (c : Nat) : Prop :=
  (lineString line).startsWith o.indicator1 = true ∧
    (∃ x, charAt (chompLine line) (secondColumn o realWidth line) = some x ∧ x ≠ 0) ∧
    lastNonBlank (chompLine line) (secondColumn o realWidth line) = some c ∧
    c + 1 ≠ secondColumn o realWidth line

/-- A line with both columns, which have `first` and `second` after their indicators. -/
def BothFields (o : Options) (realWidth : Nat) (line : List UInt8) (first second : CString) : Prop :=
  ∃ c, FirstEnd o realWidth line c ∧
    stringAt (cutAfter (chompLine line) c) o.indicator1.length = some first ∧
    stringAt (cutAfter (chompLine line) c) (secondColumn o realWidth line) = some (o.indicator2 ++ second)

/-- The names in the columns of a record. -/
inductive Columns (o : Options) (realWidth : Nat) :
    List UInt8 → Option (List UInt8) → Option CString → Option CString → Prop
  | two {line1 line2 : List UInt8} {first second name : CString} (h₁ : FirstField o line1 first)
    (hname : dequoteOutputFile first = some name) (h₂ : SecondField o realWidth line2 second) :
    Columns o realWidth line1 (some line2) (some (name.stringStripTrailing [space, tab]))
      (dequoteOutputFile second)
  | one {line : List UInt8} {first second : CString} (h : BothFields o realWidth line first second) :
    Columns o realWidth line none (dequoteOutputFile first) (dequoteOutputFile second)

/-- The first of two names has a bad escape, or the one line ends before the second column, or it is blank
before the second column. -/
inductive LineFault (o : Options) (realWidth : Nat) : List UInt8 → Option (List UInt8) → Prop
  | escape {line1 line2 : List UInt8} {first : CString} (h : FirstField o line1 first)
    (hname : dequoteOutputFile first = none) : LineFault o realWidth line1 (some line2)
  | short {line : List UInt8} (h : (lineString line).startsWith o.indicator1 = true)
    (hshort : line.length < secondColumn o realWidth line) : LineFault o realWidth line none
  | blank {line : List UInt8} {x : UInt8} (h : (lineString line).startsWith o.indicator1 = true)
    (hx : charAt (chompLine line) (secondColumn o realWidth line) = some x) (hne : x ≠ 0)
    (hblank : ∀ b ∈ (chompLine line).take (secondColumn o realWidth line), isBlank b = true) :
    LineFault o realWidth line none

/-- The line does not start with the first indicator, or the second column is not as it should be: not blank up
to it, or nothing there, or no blank before it, or not the second indicator. -/
inductive LineRefused (o : Options) (realWidth : Nat) : List UInt8 → Option (List UInt8) → Prop
  | start {line1 : List UInt8} {line2 : Option (List UInt8)} (h : (lineString line1).startsWith o.indicator1 = false) :
    LineRefused o realWidth line1 line2
  | second {line1 line2 : List UInt8} {first name : CString} (h₁ : FirstField o line1 first)
    (hname : dequoteOutputFile first = some name) (h₂ : ∀ field, ¬ SecondField o realWidth line2 field) :
    LineRefused o realWidth line1 (some line2)
  | empty {line : List UInt8} (hx : charAt (chompLine line) (secondColumn o realWidth line) = some 0) :
    LineRefused o realWidth line none
  | joined {line : List UInt8} {c : Nat} (hc : lastNonBlank (chompLine line) (secondColumn o realWidth line) = some c)
    (hnext : c + 1 = secondColumn o realWidth line)
    (hlt : secondColumn o realWidth line < line.length) : LineRefused o realWidth line none
  | indicator {line : List UInt8} {c : Nat} {rest : CString} (h : FirstEnd o realWidth line c)
    (hrest : stringAt (cutAfter (chompLine line) c) (secondColumn o realWidth line) = some rest)
    (hind : ∀ second, rest ≠ o.indicator2 ++ second) : LineRefused o realWidth line none

/-- The column of the old name, and that of the new name. -/
def Options.old (o : Options) (first second : Option CString) : Option CString :=
  if o.swap then second else first
def Options.new (o : Options) (first second : Option CString) : Option CString :=
  if o.swap then first else second

/-- What follows the blank line between two records. -/
def Separated (o : Options) (hasNext : Bool) (i rest : Input) : Prop :=
  if o.separate && hasNext then ∃ line, lineText line = [] ∧ i.readUnreadLine = (.line line, rest)
  else i = rest

def Passes (o : Options) (realWidth : Nat) (oldName : CString) (hasNext : Bool) (i : Input)
    (given : Option (Option CString)) (rest : Input) : Prop :=
  ∃ line1 line2 i' first second, Lines o realWidth hasNext i line1 line2 i' ∧
    Columns o realWidth line1 line2 first second ∧ o.old first second = some oldName ∧
    given = some (o.new first second) ∧ Separated o hasNext i' rest

/-- There is no first line, or no second where another record follows, or the second cannot be read, or the lines
are not as they should be, or the old name is another. A record with its columns that is followed by a line
which is not blank where it should be has given the new name. -/
inductive Refused (o : Options) (realWidth : Nat) (oldName : CString) (hasNext : Bool) (i : Input) :
    Option (Option CString) → Prop
  | noLine (h : ∀ line, i.readUnreadLine.1 ≠ .line line) : Refused o realWidth oldName hasNext i none
  | noSecond {line1 : List UInt8} {i₁ : Input} (h₁ : i.readUnreadLine = (.line line1, i₁))
    (h₂ : i₁.readUnreadLine.1 = .error ∨ i₁.readUnreadLine.1 = .eof ∧ hasNext = true) :
    Refused o realWidth oldName hasNext i none
  | line {line1 : List UInt8} {line2 : Option (List UInt8)} {i' : Input}
    (lines : Lines o realWidth hasNext i line1 line2 i') (h : LineRefused o realWidth line1 line2) :
    Refused o realWidth oldName hasNext i none
  | oldName {line1 : List UInt8} {line2 : Option (List UInt8)} {i' : Input} {first second : Option CString}
    {name : CString} (lines : Lines o realWidth hasNext i line1 line2 i')
    (h : Columns o realWidth line1 line2 first second) (hold : o.old first second = some name)
    (hne : name ≠ oldName) : Refused o realWidth oldName hasNext i none
  | separator {line1 line : List UInt8} {line2 : Option (List UInt8)} {i' rest : Input}
    {first second : Option CString} (lines : Lines o realWidth hasNext i line1 line2 i')
    (h : Columns o realWidth line1 line2 first second) (hold : o.old first second = some oldName)
    (hsep : (o.separate && hasNext) = true) (hread : i'.readUnreadLine = (.line line, rest))
    (hline : lineText line ≠ []) : Refused o realWidth oldName hasNext i (some (o.new first second))

/-- The lines have a fault, or the old name has a bad escape, or there is no line where a blank line should
be. -/
inductive Fault (o : Options) (realWidth : Nat) (oldName : CString) (hasNext : Bool) (i : Input) : Prop
  | line {line1 : List UInt8} {line2 : Option (List UInt8)} {i' : Input}
    (lines : Lines o realWidth hasNext i line1 line2 i') (h : LineFault o realWidth line1 line2)
  | escape {line1 : List UInt8} {line2 : Option (List UInt8)} {i' : Input} {first second : Option CString}
    (lines : Lines o realWidth hasNext i line1 line2 i') (h : Columns o realWidth line1 line2 first second)
    (hold : o.old first second = none)
  | separator {line1 : List UInt8} {line2 : Option (List UInt8)} {i' : Input} {first second : Option CString}
    (lines : Lines o realWidth hasNext i line1 line2 i') (h : Columns o realWidth line1 line2 first second)
    (hold : o.old first second = some oldName) (hsep : (o.separate && hasNext) = true)
    (hend : ∀ line, i'.readUnreadLine.1 ≠ .line line)

section
variable {o : Options} {realWidth : Nat} {oldName : CString} {hasNext : Bool} {i i' rest : Input}
  {line line1 : List UInt8} {line2 : Option (List UInt8)} {given : Option (Option CString)}
  {first second : Option CString}

theorem assign_eq (o : Options) (oldName : CString) (first second : Option CString) (i : Input) :
    assign o oldName first second i =
      match o.old first second with
      | none => .undefined
      | some name => if oldName ≠ name then .rejected else ⟨some (o.new first second), .accepted i⟩ := by
  unfold assign Options.old Options.new
  cases o.swap <;> rfl

theorem assign_accepted : assign o oldName first second i = ⟨given, .accepted i'⟩ ↔
    i' = i ∧ o.old first second = some oldName ∧ given = some (o.new first second) := by
  rw [assign_eq]
  cases o.old first second with
  | none => simp [Record.undefined]
  | some name =>
    by_cases hname : oldName = name
    · simp [hname, eq_comm, and_comm]
    · simp [hname, Ne.symm hname, Record.rejected]

theorem assign_rejected : assign o oldName first second i = ⟨given, .rejected⟩ ↔
    given = none ∧ ∃ name, o.old first second = some name ∧ name ≠ oldName := by
  rw [assign_eq]
  cases o.old first second with
  | none => simp [Record.undefined]
  | some name =>
    by_cases hname : oldName = name
    · simp [hname]
    · simp [hname, Record.rejected, eq_comm]

theorem assign_undefined :
    (assign o oldName first second i).verdict = .undefined ↔ o.old first second = none := by
  rw [assign_eq]
  cases o.old first second with
  | none => simp [Record.undefined]
  | some name =>
    by_cases hname : oldName = name
    · simp [hname]
    · simp [hname, Record.rejected]

/-! #### Two lines -/

theorem FirstField.unique {first second : CString} (a : FirstField o line1 first)
    (b : FirstField o line1 second) : second = first :=
  Option.some.inj (b.2.symm.trans a.2)

theorem SecondField.unique {first second : CString} (a : SecondField o realWidth line1 first)
    (b : SecondField o realWidth line1 second) : second = first :=
  List.append_cancel_left (b.2.symm.trans a.2)

theorem firstField_or_none (o : Options) (line1 : List UInt8) : (∃ field, FirstField o line1 field) ∨
    (lineString line1).startsWith o.indicator1 = false ∧ ∀ field, ¬ FirstField o line1 field := by
  cases h : (lineString line1).startsWith o.indicator1 with
  | true =>
    have hle : o.indicator1.length ≤ (chompLine line1).length := by
      rw [chompLine_length]
      exact length_le_of_startsWith h
    exact .inl ⟨_, h, stringAt_of_le hle⟩
  | false => exact .inr ⟨rfl, fun field hfield => absurd hfield.1 (by rw [h]; decide)⟩

theorem processDualLine_field {line2 : List UInt8} {field : CString} (h : FirstField o line1 field) :
    processDualLine o realWidth oldName line1 line2 i =
      match dequoteOutputFile field with
      | none => .undefined
      | some first =>
        let d := tabIndex (lineText line2) realWidth o.tabsize
        if !blankTo (lineText line2) d then .rejected
        else if !(CString.startsWith ((lineText line2).drop d) o.indicator2) then .rejected
        else assign o oldName (some (first.stringStripTrailing [space, tab]))
          (dequoteOutputFile ((lineText line2).drop (d + o.indicator2.length))) i := by
  rw [processDualLine, h.1]
  dsimp only [Bool.not_true]
  rw [h.2]
  rfl

theorem secondField_cases (o : Options) (realWidth : Nat) (line2 : List UInt8) :
    let d := tabIndex (lineText line2) realWidth o.tabsize
    (∃ field, SecondField o realWidth line2 field ∧ blankTo (lineText line2) d = true ∧
      CString.startsWith ((lineText line2).drop d) o.indicator2 = true ∧
      (lineText line2).drop (d + o.indicator2.length) = field) ∨
    (∀ field, ¬ SecondField o realWidth line2 field) ∧ (blankTo (lineText line2) d = false ∨
      CString.startsWith ((lineText line2).drop d) o.indicator2 = false) := by
  intro d
  cases hblank : blankTo (lineText line2) d with
  | false => exact .inr ⟨fun field h => absurd h.1 (by rw [hblank]; decide), .inl rfl⟩
  | true =>
    cases hind : CString.startsWith ((lineText line2).drop d) o.indicator2 with
    | false =>
      exact .inr ⟨fun field h => absurd (startsWith_iff.mpr ⟨field, h.2⟩) (by rw [hind]; decide), .inr rfl⟩
    | true =>
      obtain ⟨field, hfield⟩ := startsWith_iff.mp hind
      exact .inl ⟨field, ⟨hblank, hfield⟩, rfl, rfl, by rw [← List.drop_drop, hfield, List.drop_left]⟩

/-- What is read from the lines of a record. -/
def processLines (o : Options) (realWidth : Nat) (oldName : CString) (line1 : List UInt8)
    (line2 : Option (List UInt8)) (i : Input) : Record Input :=
  match line2 with
  | some line2 => processDualLine o realWidth oldName line1 line2 i
  | none => processSingleLine o realWidth oldName line1 i

/-- The lines of a record have a fault, or they have columns, or they are rejected. -/
inductive LinesRead (o : Options) (realWidth : Nat) (oldName : CString) (line1 : List UInt8)
    (line2 : Option (List UInt8)) (i : Input) : Prop
  | undefined (h : LineFault o realWidth line1 line2) (hno : ∀ f s, ¬ Columns o realWidth line1 line2 f s)
    (heq : processLines o realWidth oldName line1 line2 i = .undefined)
  | columns {first second : Option CString} (h : Columns o realWidth line1 line2 first second)
    (hunique : ∀ f s, Columns o realWidth line1 line2 f s → f = first ∧ s = second)
    (hno : ¬ LineFault o realWidth line1 line2)
    (heq : processLines o realWidth oldName line1 line2 i = assign o oldName first second i)
  | rejected (h : LineRefused o realWidth line1 line2)
    (heq : processLines o realWidth oldName line1 line2 i = .rejected)

theorem linesRead_two (o : Options) (realWidth : Nat) (oldName : CString) (line1 line2 : List UInt8)
    (i : Input) : LinesRead o realWidth oldName line1 (some line2) i := by
  rcases firstField_or_none o line1 with ⟨field, hfield⟩ | ⟨hind, hnone⟩
  · have heq : processLines o realWidth oldName line1 (some line2) i = _ := processDualLine_field hfield
    cases hname : dequoteOutputFile field with
    | none =>
      refine .undefined (.escape hfield hname) (fun f s hc => ?_) (by rw [heq, hname])
      cases hc with | two h₁ hname' h₂ =>
      rw [hfield.unique h₁, hname] at hname'
      cases hname'
    | some name =>
      have hfault : ¬ LineFault o realWidth line1 (some line2) := by
        intro hf
        cases hf with | escape h hbad =>
        rw [hfield.unique h, hname] at hbad
        cases hbad
      rw [hname] at heq
      dsimp only at heq
      rcases secondField_cases o realWidth line2 with ⟨second, hsecond, hblank, hind, hdrop⟩ | ⟨hnone, hbad⟩
      · refine .columns (.two hfield hname hsecond) (fun f s hc => ?_) hfault ?_
        · cases hc with | two h₁ hname' h₂ =>
          rw [hfield.unique h₁, hname] at hname'
          rw [hsecond.unique h₂, Option.some.inj hname']
          exact ⟨rfl, rfl⟩
        · rw [heq, hblank, hind, hdrop]
          rfl
      · refine .rejected (.second hfield hname hnone) ?_
        rw [heq]
        rcases hbad with hbad | hbad
        · rw [hbad]; rfl
        · rw [hbad]
          exact ite_self _
  · refine .rejected (.start hind) ?_
    rw [processLines, processDualLine, hind]
    rfl

/-! #### One line -/

theorem charAt_none_iff {buf : List UInt8} {d : Nat} : charAt buf d = none ↔ buf.length < d := by
  unfold charAt
  split
  · simp [*]
  · rw [List.getElem?_eq_none_iff]
    omega

theorem lt_of_charAt {buf : List UInt8} {d : Nat} {x : UInt8} (h : charAt buf d = some x) (hx : x ≠ 0) :
    d < buf.length := by
  unfold charAt at h
  split at h
  · exact absurd (Option.some.inj h).symm hx
  · exact (List.getElem?_eq_some_iff.mp h).1

theorem lastNonBlank_none_iff {buf : List UInt8} {d : Nat} (hd : d ≤ buf.length) :
    lastNonBlank buf d = none ↔ ∀ b ∈ buf.take d, isBlank b = true := by
  induction d with
  | zero => simp [lastNonBlank]
  | succ d ih =>
    rw [lastNonBlank, List.take_succ_eq_append_getElem hd, List.forall_mem_append, List.forall_mem_singleton,
      List.getD_eq_getElem?_getD, List.getElem?_eq_getElem hd, Option.getD_some]
    cases hblank : isBlank buf[d] <;> simp [ih (Nat.le_of_succ_le hd)]

theorem lineFault_one : LineFault o realWidth line none ↔ (lineString line).startsWith o.indicator1 = true ∧
    (charAt (chompLine line) (secondColumn o realWidth line) = none ∨
      (∃ x, charAt (chompLine line) (secondColumn o realWidth line) = some x ∧ x ≠ 0) ∧
      lastNonBlank (chompLine line) (secondColumn o realWidth line) = none) := by
  constructor
  · intro h
    cases h with
    | short h hshort => exact ⟨h, .inl (charAt_none_iff.mpr (by rwa [chompLine_length]))⟩
    | blank h hx hne hblank =>
      exact ⟨h, .inr ⟨⟨_, hx, hne⟩, (lastNonBlank_none_iff (lt_of_charAt hx hne).le).mpr hblank⟩⟩
  · rintro ⟨h, hnone | ⟨⟨x, hx, hne⟩, hblank⟩⟩
    · exact .short h (by rw [← chompLine_length]; exact charAt_none_iff.mp hnone)
    · exact .blank h hx hne ((lastNonBlank_none_iff (lt_of_charAt hx hne).le).mp hblank)

theorem LineRefused.not_fault (h : LineRefused o realWidth line1 line2) : ¬ LineFault o realWidth line1 line2 := by
  intro hf
  cases h with
  | start h =>
    have htrue : (lineString line1).startsWith o.indicator1 = true := by
      cases hf with
      | escape h₁ _ => exact h₁.1
      | short h₁ _ => exact h₁
      | blank h₁ _ _ _ => exact h₁
    rw [h] at htrue
    cases htrue
  | second h₁ hname _ =>
    cases hf with | escape h hbad =>
    rw [h₁.unique h, hname] at hbad
    cases hbad
  | empty hx =>
    obtain ⟨_, hnone | ⟨⟨x, hx', hne⟩, _⟩⟩ := lineFault_one.mp hf
    · rw [hx] at hnone; cases hnone
    · exact hne (Option.some.inj (hx'.symm.trans hx))
  | joined hc _ hlt =>
    obtain ⟨_, hnone | ⟨_, hnone⟩⟩ := lineFault_one.mp hf
    · rw [charAt_none_iff, chompLine_length] at hnone
      omega
    · rw [hc] at hnone; cases hnone
  | indicator h _ _ =>
    obtain ⟨_, hnone | ⟨_, hnone⟩⟩ := lineFault_one.mp hf
    · obtain ⟨x, hx, _⟩ := h.2.1
      rw [hx] at hnone; cases hnone
    · rw [h.2.2.1] at hnone; cases hnone

theorem LineRefused.not_columns (h : LineRefused o realWidth line1 line2) :
    ¬ Columns o realWidth line1 line2 first second := by
  intro hc
  cases h with
  | start h =>
    have htrue : (lineString line1).startsWith o.indicator1 = true := by
      cases hc with
      | two h₁ _ _ => exact h₁.1
      | one hb => exact hb.choose_spec.1.1
    rw [h] at htrue
    cases htrue
  | second _ _ h₂ =>
    cases hc with | two _ _ h => exact h₂ _ h
  | empty hx =>
    cases hc with | one hb =>
    obtain ⟨_, ⟨_, ⟨x, hx', hne⟩, _⟩, _⟩ := hb
    exact hne (Option.some.inj (hx'.symm.trans hx))
  | joined hc' hnext _ =>
    cases hc with | one hb =>
    obtain ⟨c, ⟨_, _, hc, hne⟩, _⟩ := hb
    obtain rfl := Option.some.inj (hc.symm.trans hc')
    exact hne hnext
  | indicator h hrest hind =>
    cases hc with | one hb =>
    obtain ⟨c, ⟨_, _, hc, _⟩, _, h₂⟩ := hb
    obtain rfl := Option.some.inj (hc.symm.trans h.2.2.1)
    exact hind _ (Option.some.inj (hrest.symm.trans h₂))

@[simp] theorem cutAfter_length (buf : List UInt8) (c : Nat) : (cutAfter buf c).length = buf.length :=
  List.length_set

theorem processSingleLine_cases (o : Options) (realWidth : Nat) (oldName : CString) (line : List UInt8)
    (i : Input) :
    (LineFault o realWidth line none ∧ (∀ c, ¬ FirstEnd o realWidth line c) ∧
      processSingleLine o realWidth oldName line i = .undefined) ∨
    (LineRefused o realWidth line none ∧
      processSingleLine o realWidth oldName line i = .rejected) ∨
    ∃ c first rest, ¬ LineFault o realWidth line none ∧ FirstEnd o realWidth line c ∧
      stringAt (cutAfter (chompLine line) c) o.indicator1.length = some first ∧
      stringAt (cutAfter (chompLine line) c) (secondColumn o realWidth line) = some rest ∧
      processSingleLine o realWidth oldName line i =
        if !rest.startsWith o.indicator2 then .rejected
        else assign o oldName (dequoteOutputFile first)
          (dequoteOutputFile (rest.drop o.indicator2.length)) i := by
  rw [lineFault_one]
  cases hind : (lineString line).startsWith o.indicator1 with
  | false => exact .inr (.inl ⟨.start hind, by rw [processSingleLine, hind]; rfl⟩)
  | true =>
    cases hx : charAt (chompLine line) (secondColumn o realWidth line) with
    | none =>
      unfold secondColumn lineText at hx
      simp [processSingleLine, hind, hx, FirstEnd, secondColumn, lineText]
    | some x =>
      by_cases hzero : x = 0
      · subst hzero
        refine .inr (.inl ⟨.empty hx, ?_⟩)
        unfold secondColumn lineText at hx
        simp [processSingleLine, hind, hx]
      · have hlt := lt_of_charAt hx hzero
        cases hc : lastNonBlank (chompLine line) (secondColumn o realWidth line) with
        | none =>
          unfold secondColumn lineText at hx hc
          simp [processSingleLine, hind, hx, hzero, hc, FirstEnd, secondColumn, lineText]
        | some c =>
          by_cases hnext : c + 1 = secondColumn o realWidth line
          · refine .inr (.inl ⟨.joined hc hnext (by rwa [chompLine_length] at hlt), ?_⟩)
            unfold secondColumn lineText at hx hc hnext
            simp [processSingleLine, hind, hx, hc, hnext]
          · have hle : o.indicator1.length ≤ (cutAfter (chompLine line) c).length := by
              rw [cutAfter_length, chompLine_length]
              exact length_le_of_startsWith hind
            have hfirst := stringAt_of_le hle
            have hrest := stringAt_of_le ((cutAfter_length (chompLine line) c).symm ▸ hlt.le)
            refine .inr (.inr ⟨c, _, _, by simp [hzero], ⟨hind, ⟨x, hx, hzero⟩, hc, hnext⟩, hfirst, hrest, ?_⟩)
            unfold secondColumn lineText at hx hc hnext hrest
            unfold cutAfter at hfirst hrest
            simp only [processSingleLine, hind, hx, hc, Bool.not_true, Bool.false_eq_true, if_false, hnext, hfirst,
              hrest]
            unfold secondColumn lineText
            rfl

theorem BothFields.unique {first second first' second' : CString} (a : BothFields o realWidth line first second)
    (b : BothFields o realWidth line first' second') : first' = first ∧ second' = second := by
  obtain ⟨c, ⟨_, _, hc, _⟩, h₁, h₂⟩ := a
  obtain ⟨c', ⟨_, _, hc', _⟩, h₁', h₂'⟩ := b
  obtain rfl := Option.some.inj (hc.symm.trans hc')
  exact ⟨Option.some.inj (h₁'.symm.trans h₁),
    List.append_cancel_left (Option.some.inj (h₂'.symm.trans h₂))⟩

theorem linesRead_one (o : Options) (realWidth : Nat) (oldName : CString) (line : List UInt8) (i : Input) :
    LinesRead o realWidth oldName line none i := by
  rcases processSingleLine_cases o realWidth oldName line i with
    ⟨hfault, hno, heq⟩ | ⟨hrefused, heq⟩ | ⟨c, first, rest, hfault, hend, hfirst, hrest, heq⟩
  · refine .undefined hfault (fun f s hc => ?_) heq
    cases hc with | one h => exact hno _ h.choose_spec.1
  · exact .rejected hrefused heq
  · cases hind : rest.startsWith o.indicator2 with
    | true =>
      obtain ⟨second, rfl⟩ := startsWith_iff.mp hind
      have hboth : BothFields o realWidth line first second := ⟨c, hend, hfirst, hrest⟩
      rw [hind, List.drop_left] at heq
      refine .columns (.one hboth) (fun f s hc => ?_) hfault heq
      cases hc with | one h =>
      obtain ⟨rfl, rfl⟩ := hboth.unique h
      exact ⟨rfl, rfl⟩
    | false =>
      rw [hind] at heq
      refine .rejected (.indicator hend hrest fun second hsecond => ?_) heq
      rw [startsWith_iff.mpr ⟨second, hsecond⟩] at hind
      cases hind

/-! #### Records -/

theorem linesRead (o : Options) (realWidth : Nat) (oldName : CString) (line1 : List UInt8)
    (line2 : Option (List UInt8)) (i : Input) : LinesRead o realWidth oldName line1 line2 i := by
  cases line2 with
  | none => exact linesRead_one o realWidth oldName line1 i
  | some line2 => exact linesRead_two o realWidth oldName line1 line2 i

theorem processLines_accepted : processLines o realWidth oldName line1 line2 i = ⟨given, .accepted i'⟩ ↔
    i' = i ∧ ∃ first second, Columns o realWidth line1 line2 first second ∧
      o.old first second = some oldName ∧ given = some (o.new first second) := by
  cases linesRead o realWidth oldName line1 line2 i with
  | undefined _ hno heq =>
    rw [heq]
    exact iff_of_false nofun fun ⟨_, f, s, h, _⟩ => hno f s h
  | rejected hrefused heq =>
    rw [heq]
    exact iff_of_false nofun fun ⟨_, _, _, h, _⟩ => hrefused.not_columns h
  | @columns first second h hunique _ heq =>
    rw [heq, assign_accepted]
    refine and_congr_right fun _ => ⟨fun hnames => ⟨first, second, h, hnames⟩, ?_⟩
    rintro ⟨f, s, hc, hnames⟩
    obtain ⟨rfl, rfl⟩ := hunique f s hc
    exact hnames

theorem processLines_rejected : processLines o realWidth oldName line1 line2 i = ⟨given, .rejected⟩ ↔
    given = none ∧ (LineRefused o realWidth line1 line2 ∨
      ∃ first second name, Columns o realWidth line1 line2 first second ∧ o.old first second = some name ∧
        name ≠ oldName) := by
  cases linesRead o realWidth oldName line1 line2 i with
  | undefined h hno heq =>
    rw [heq]
    refine iff_of_false (fun hrejected => by cases hrejected) ?_
    rintro ⟨-, h' | ⟨f, s, -, hc, -⟩⟩
    · exact h'.not_fault h
    · exact hno f s hc
  | rejected hrefused heq =>
    rw [heq]
    simp [Record.rejected, hrefused, eq_comm]
  | @columns first second h hunique _ heq =>
    rw [heq, assign_rejected, or_iff_right fun hrefused => LineRefused.not_columns hrefused h]
    refine and_congr_right fun _ => ⟨?_, ?_⟩
    · rintro ⟨name, hname⟩
      exact ⟨first, second, name, h, hname⟩
    · rintro ⟨f, s, name, hc, hname⟩
      obtain ⟨rfl, rfl⟩ := hunique f s hc
      exact ⟨name, hname⟩

theorem processLines_undefined : (processLines o realWidth oldName line1 line2 i).verdict = .undefined ↔
    LineFault o realWidth line1 line2 ∨
      ∃ first second, Columns o realWidth line1 line2 first second ∧ o.old first second = none := by
  cases linesRead o realWidth oldName line1 line2 i with
  | undefined h hno heq =>
    rw [heq]
    exact iff_of_true rfl (.inl h)
  | rejected hrefused heq =>
    rw [heq]
    exact iff_of_false nofun fun h => h.elim hrefused.not_fault fun ⟨_, _, h, _⟩ => hrefused.not_columns h
  | @columns first second h hunique hno heq =>
    rw [heq, assign_undefined, or_iff_right hno]
    refine ⟨fun hold => ⟨first, second, h, hold⟩, ?_⟩
    rintro ⟨f, s, hc, hold⟩
    obtain ⟨rfl, rfl⟩ := hunique f s hc
    exact hold

theorem checkSeparator_accepted_iff {r : Record Input} : checkSeparator o hasNext r = ⟨given, .accepted rest⟩ ↔
    ∃ i, r = ⟨given, .accepted i⟩ ∧ Separated o hasNext i rest := by
  obtain ⟨given', verdict⟩ := r
  cases verdict with
  | rejected => simp [checkSeparator]
  | undefined => simp [checkSeparator]
  | accepted i =>
    cases hsep : o.separate && hasNext with
    | false => simp [checkSeparator, Separated, hsep]
    | true =>
      rcases hread : i.readUnreadLine with ⟨r, i'⟩
      cases r with
      | line line =>
        by_cases hline : lineString (chompLine line) = []
        · simp [checkSeparator, Separated, hsep, hread, lineText, hline]
        · simp [checkSeparator, Separated, hsep, hread, lineText, hline]
      | eof => simp [checkSeparator, Separated, hsep, hread]
      | error => simp [checkSeparator, Separated, hsep, hread]

theorem checkSeparator_rejected_iff {r : Record Input} : checkSeparator o hasNext r = ⟨given, .rejected⟩ ↔
    r = ⟨given, .rejected⟩ ∨ ∃ i line rest, r = ⟨given, .accepted i⟩ ∧ (o.separate && hasNext) = true ∧
      i.readUnreadLine = (.line line, rest) ∧ lineText line ≠ [] := by
  obtain ⟨given', verdict⟩ := r
  cases verdict with
  | rejected => simp [checkSeparator]
  | undefined => simp [checkSeparator]
  | accepted i =>
    cases hsep : o.separate && hasNext with
    | false => simp [checkSeparator, hsep]
    | true =>
      rcases hread : i.readUnreadLine with ⟨r, i'⟩
      cases r with
      | line line =>
        by_cases hline : lineString (chompLine line) = []
        · simp [checkSeparator, hsep, hread, lineText, hline]
        · simp [checkSeparator, hsep, hread, lineText, hline]
      | eof => simp [checkSeparator, hsep, hread]
      | error => simp [checkSeparator, hsep, hread]

theorem checkSeparator_undefined_iff {r : Record Input} : (checkSeparator o hasNext r).verdict = .undefined ↔
    r.verdict = .undefined ∨ ∃ i, r.verdict = .accepted i ∧ (o.separate && hasNext) = true ∧
      ∀ line, i.readUnreadLine.1 ≠ .line line := by
  obtain ⟨given', verdict⟩ := r
  cases verdict with
  | rejected => simp [checkSeparator]
  | undefined => simp [checkSeparator]
  | accepted i =>
    cases hsep : o.separate && hasNext with
    | false => simp [checkSeparator, hsep]
    | true =>
      rcases hread : i.readUnreadLine with ⟨r, i'⟩
      cases r with
      | line line => by_cases hline : lineString (chompLine line) = [] <;> simp [checkSeparator, hsep, hread, hline]
      | eof => simp [checkSeparator, hsep, hread]
      | error => simp [checkSeparator, hsep, hread]

theorem Lines.record_eq (h : Lines o realWidth hasNext i line1 line2 i') :
    record o realWidth oldName hasNext i =
      checkSeparator o hasNext (processLines o realWidth oldName line1 line2 i') := by
  cases h with
  | two h₁ h₂ hblank =>
    rw [record, h₁]
    dsimp only
    rw [h₂]
    dsimp only
    rw [if_pos hblank]
    rfl
  | one h₁ h₂ hblank =>
    rw [record, h₁]
    dsimp only
    rw [h₂]
    dsimp only
    rw [if_neg (by rw [hblank]; decide)]
    rfl
  | last h₁ h₂ hnext =>
    rw [record, h₁]
    dsimp only
    rw [h₂, hnext]
    rfl

theorem Lines.unique {line1' : List UInt8} {line2' : Option (List UInt8)} {i'' : Input}
    (a : Lines o realWidth hasNext i line1 line2 i') (b : Lines o realWidth hasNext i line1' line2' i'') :
    line1' = line1 ∧ line2' = line2 ∧ i'' = i' := by
  cases a <;> cases b <;> simp_all

theorem Lines.readable (h : Lines o realWidth hasNext i line1 line2 i') :
    ∃ i₁, i.readUnreadLine = (.line line1, i₁) ∧
      ¬ (i₁.readUnreadLine.1 = .error ∨ i₁.readUnreadLine.1 = .eof ∧ hasNext = true) := by
  cases h with
  | two h₁ h₂ _ => exact ⟨_, h₁, by simp [h₂]⟩
  | one h₁ h₂ _ => exact ⟨_, h₁, by simp [h₂]⟩
  | last h₁ h₂ hnext => exact ⟨_, h₁, by simp [h₂, hnext]⟩

theorem lines_or_rejected (o : Options) (realWidth : Nat) (oldName : CString) (hasNext : Bool) (i : Input) :
    (∃ line1 line2 i', Lines o realWidth hasNext i line1 line2 i') ∨
      (∀ line1 line2 i', ¬ Lines o realWidth hasNext i line1 line2 i') ∧
        Refused o realWidth oldName hasNext i none ∧ record o realWidth oldName hasNext i = .rejected := by
  rcases h₁ : i.readUnreadLine with ⟨r₁, i₁⟩
  cases r₁ with
  | line line1 =>
    rcases h₂ : i₁.readUnreadLine with ⟨r₂, i₂⟩
    cases r₂ with
    | line line2 =>
      cases hblank : blankTo (lineString line2) (tabIndex (lineString line2) realWidth o.tabsize) with
      | true => exact .inl ⟨_, _, _, .two h₁ h₂ hblank⟩
      | false => exact .inl ⟨_, _, _, .one h₁ h₂ hblank⟩
    | eof =>
      cases hasNext with
      | false => exact .inl ⟨_, _, _, .last h₁ h₂ rfl⟩
      | true =>
        refine .inr ⟨fun _ _ _ h => ?_, .noSecond h₁ (by simp [h₂]), by simp [record, h₁, h₂]⟩
        cases h <;> simp_all
    | error =>
      refine .inr ⟨fun _ _ _ h => ?_, .noSecond h₁ (by simp [h₂]), by simp [record, h₁, h₂]⟩
      cases h <;> simp_all
  | eof =>
    refine .inr ⟨fun _ _ _ h => ?_, .noLine (by simp [h₁]), by simp [record, h₁]⟩
    cases h <;> simp_all
  | error =>
    refine .inr ⟨fun _ _ _ h => ?_, .noLine (by simp [h₁]), by simp [record, h₁]⟩
    cases h <;> simp_all

theorem record_accepted (o : Options) (realWidth : Nat) (oldName : CString) (hasNext : Bool) (i : Input)
    (given : Option (Option CString)) (rest : Input) : record o realWidth oldName hasNext i = ⟨given, .accepted rest⟩ ↔
      Passes o realWidth oldName hasNext i given rest := by
  rcases lines_or_rejected o realWidth oldName hasNext i with ⟨line1, line2, i', hl⟩ | ⟨hno, -, heq⟩
  · rw [hl.record_eq, checkSeparator_accepted_iff]
    constructor
    · rintro ⟨_, hlines, hsep⟩
      obtain ⟨rfl, first, second, hc, hold, hnew⟩ := processLines_accepted.mp hlines
      exact ⟨line1, line2, _, first, second, hl, hc, hold, hnew, hsep⟩
    · rintro ⟨_, _, _, first, second, hl', hc, hold, hnew, hsep⟩
      obtain ⟨rfl, rfl, rfl⟩ := hl.unique hl'
      exact ⟨_, processLines_accepted.mpr ⟨rfl, first, second, hc, hold, hnew⟩, hsep⟩
  · rw [heq]
    exact iff_of_false nofun fun ⟨_, _, _, _, _, hl, _⟩ => hno _ _ _ hl

theorem record_rejected (o : Options) (realWidth : Nat) (oldName : CString) (hasNext : Bool) (i : Input)
    (given : Option (Option CString)) : record o realWidth oldName hasNext i = ⟨given, .rejected⟩ ↔
      Refused o realWidth oldName hasNext i given := by
  rcases lines_or_rejected o realWidth oldName hasNext i with ⟨line1, line2, i', hl⟩ | ⟨hno, hrefused, heq⟩
  · rw [hl.record_eq, checkSeparator_rejected_iff, processLines_rejected]
    constructor
    · rintro (⟨rfl, h | ⟨first, second, name, hc, hold, hne⟩⟩ | ⟨i'', line, rest, hv, hsep, hread, hline⟩)
      · exact .line hl h
      · exact .oldName hl hc hold hne
      · obtain ⟨rfl, first, second, hc, hold, rfl⟩ := processLines_accepted.mp hv
        exact .separator hl hc hold hsep hread hline
    · intro h
      obtain ⟨i₁, h₁, hsecond⟩ := hl.readable
      cases h with
      | noLine h => exact absurd (congrArg Prod.fst h₁) (h line1)
      | noSecond h₁' h₂ =>
        obtain ⟨_, rfl⟩ := Prod.mk.inj (h₁.symm.trans h₁')
        exact absurd h₂ hsecond
      | line hl' h =>
        obtain ⟨rfl, rfl, rfl⟩ := hl.unique hl'
        exact .inl ⟨rfl, .inl h⟩
      | oldName hl' hc hold hne =>
        obtain ⟨rfl, rfl, rfl⟩ := hl.unique hl'
        exact .inl ⟨rfl, .inr ⟨_, _, _, hc, hold, hne⟩⟩
      | separator hl' hc hold hsep hread hline =>
        obtain ⟨rfl, rfl, rfl⟩ := hl.unique hl'
        exact .inr ⟨_, _, _, processLines_accepted.mpr ⟨rfl, _, _, hc, hold, rfl⟩, hsep, hread, hline⟩
  · rw [heq]
    constructor
    · intro h
      obtain rfl : given = none := (congrArg Record.newName h).symm
      exact hrefused
    · intro h
      cases h with
      | noLine => rfl
      | noSecond => rfl
      | line hl _ => exact absurd hl (hno _ _ _)
      | oldName hl _ _ _ => exact absurd hl (hno _ _ _)
      | separator hl _ _ _ _ _ => exact absurd hl (hno _ _ _)

theorem record_undefined (o : Options) (realWidth : Nat) (oldName : CString) (hasNext : Bool) (i : Input) :
    (record o realWidth oldName hasNext i).verdict = .undefined ↔ Fault o realWidth oldName hasNext i := by
  rcases lines_or_rejected o realWidth oldName hasNext i with ⟨line1, line2, i', hl⟩ | ⟨hno, -, heq⟩
  · rw [hl.record_eq, checkSeparator_undefined_iff, processLines_undefined]
    constructor
    · rintro ((hfault | ⟨first, second, hc, hold⟩) | ⟨i'', hv, hsep, hend⟩)
      · exact .line hl hfault
      · exact .escape hl hc hold
      · obtain ⟨rfl, first, second, hc, hold, _⟩ := processLines_accepted.mp (Record.eq_of_verdict hv)
        exact .separator hl hc hold hsep hend
    · intro hf
      cases hf with
      | line hl' hfault =>
        obtain ⟨rfl, rfl, rfl⟩ := hl.unique hl'
        exact .inl (.inl hfault)
      | escape hl' hc hold =>
        obtain ⟨rfl, rfl, rfl⟩ := hl.unique hl'
        exact .inl (.inr ⟨_, _, hc, hold⟩)
      | separator hl' hc hold hsep hend =>
        obtain ⟨rfl, rfl, rfl⟩ := hl.unique hl'
        exact .inr ⟨_, congrArg Record.verdict (processLines_accepted.mpr ⟨rfl, _, _, hc, hold, rfl⟩), hsep, hend⟩
  · rw [heq]
    refine iff_of_false nofun fun hf => ?_
    cases hf with
    | line hl _ => exact hno _ _ _ hl
    | escape hl _ _ => exact hno _ _ _ hl
    | separator hl _ _ _ _ => exact hno _ _ _ hl

theorem describes (o : Options) (realWidth : Nat) :
    Describes (record o realWidth) (Passes o realWidth) (Refused o realWidth) (Fault o realWidth) :=
  ⟨record_accepted o realWidth, record_rejected o realWidth, record_undefined o realWidth⟩

end

end DualColumn

/-! ### Any format -/

namespace EditFormat

/-- The edited texts that are read safely. -/
def SafeEdit (o : FormatOptions) (realWidth : Nat) (files : List SpecId) (file : TextFile)
    (specs : EditSpecs) : EditFormat → Prop
  | destinationOnly =>
    SafeText (DestinationOnly.Passes o.destinationOnly) (DestinationOnly.Fault o.destinationOnly)
      (fun _ => True) files file specs
  | singleColumn =>
    SafeText (SingleColumn.Passes o.singleColumn) (SingleColumn.Fault o.singleColumn)
      (fun _ => True) files file specs
  | dualColumn =>
    SafeText (DualColumn.Passes o.dualColumn realWidth) (DualColumn.Fault o.dualColumn realWidth)
      (fun i => i.readUnreadLine.1 = .eof) files ⟨[], file⟩ specs

theorem safeInput_iff (fmt : EditFormat) (o : FormatOptions) (realWidth : Nat) (files : List SpecId)
    (file : TextFile) (specs : EditSpecs) :
    SafeInput files (fmt.input o realWidth files file specs) ↔ fmt.SafeEdit o realWidth files file specs := by
  cases fmt with
  | destinationOnly => exact (DestinationOnly.describes o.destinationOnly).safeInput_loop (by simp) specs
  | singleColumn => exact (SingleColumn.describes o.singleColumn).safeInput_loop (by simp) specs
  | dualColumn =>
    exact (DualColumn.describes o.dualColumn realWidth).safeInput_loop (by simp [DualColumn.finish]) specs

/-- One file, and the text of its new name is a backslash. -/
theorem safeInput_backslash :
    let specs : EditSpecs := ⟨fun _ => [97], fun _ => some [97], fun _ => .unchecked⟩
    ¬ SafeInput [0] (destinationOnly.input {} 0 [0] [.line [92, 10]] specs) := by
  rintro specs ⟨result, specs', h, _⟩
  have hundefined : destinationOnly.input {} 0 [0] [.line [92, 10]] specs = .undefined := rfl
  rw [hundefined] at h
  cases h

/-- The edited texts that change no name unless they are accepted. -/
def KeepsEdited (o : FormatOptions) (realWidth : Nat) (files : List SpecId) (file : TextFile)
    (specs : EditSpecs) : EditFormat → Prop
  | destinationOnly =>
    KeepsText (DestinationOnly.Passes o.destinationOnly) (DestinationOnly.Refused o.destinationOnly)
      (fun _ => True) files file specs
  | singleColumn =>
    KeepsText (SingleColumn.Passes o.singleColumn) (SingleColumn.Refused o.singleColumn)
      (fun _ => True) files file specs
  | dualColumn =>
    KeepsText (DualColumn.Passes o.dualColumn realWidth) (DualColumn.Refused o.dualColumn realWidth)
      (fun i => i.readUnreadLine.1 = .eof) files ⟨[], file⟩ specs

/-- A rejected edit leaves the renames as they were if and only if the names that its text gives before the
record that is refused, or before what follows the last record, are those that the specs have. -/
theorem input_rejected_iff (fmt : EditFormat) (o : FormatOptions) (realWidth : Nat) (files : List SpecId)
    (file : TextFile) (specs : EditSpecs) :
    (∀ specs', fmt.input o realWidth files file specs = .returned false specs' →
      specs'.newName = specs.newName ∧ specs'.status = specs.status) ↔
    fmt.KeepsEdited o realWidth files file specs := by
  cases fmt with
  | destinationOnly => exact (DestinationOnly.describes o.destinationOnly).keeps_loop (by simp) specs
  | singleColumn => exact (SingleColumn.describes o.singleColumn).keeps_loop (by simp) specs
  | dualColumn =>
    exact (DualColumn.describes o.dualColumn realWidth).keeps_loop (by simp [DualColumn.finish]) specs

/-- Two specs and the text of one: the first has its new name when the end of the file is found. -/
theorem input_rejected_renames :
    let specs : EditSpecs := ⟨fun s => [97 + s.toUInt8], fun s => some [97 + s.toUInt8], fun _ => .apply⟩
    ¬ ∀ specs', destinationOnly.input {} 0 [0, 1] [.line [120, 10]] specs = .returned false specs' →
      specs'.newName = specs.newName ∧ specs'.status = specs.status := by
  intro specs h
  have h0 := congrFun (h (specs.setNewName 0 (some [120])) rfl).1 0
  revert h0
  decide

end EditFormat

end Renameutils
