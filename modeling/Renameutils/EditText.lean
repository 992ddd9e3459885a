import Renameutils.EditRejected

/-!
# Edited texts

`textLines` is what `read_line` gives on a text. The text that an `output` function writes falls into the
lines of its records (`textLines_line`), and the loop of `input` reads them record by record
(`readRecords_outputLoop`).
-/

namespace Renameutils
open CString

/-- What `read_line` gives on the rest of a text after the bytes `line` of the current line. -/
def linesAfter (line : List UInt8) : List UInt8 → TextFile
  | [] => if line = [] then [] else [.line line]
  | c :: text =>
    if c = newline then .line (line ++ [c]) :: linesAfter [] text else linesAfter (line ++ [c]) text

/-- What `read_line` gives on a text. The last line need not have a newline. -/
def textLines (text : List UInt8) : TextFile := linesAfter [] text

theorem linesAfter_append {l : List UInt8} (hl : newline ∉ l) (line text : List UInt8) :
    linesAfter line (l ++ text) = linesAfter (line ++ l) text := by
  induction l generalizing line with
  | nil => simp
  | cons c l ih =>
    have hc : c ≠ newline := fun h => hl (h ▸ List.mem_cons_self)
    rw [List.cons_append, linesAfter, if_neg hc, ih fun h => hl (List.mem_cons_of_mem _ h),
      List.append_assoc, List.singleton_append]

theorem textLines_line {l : List UInt8} (hl : newline ∉ l) (text : List UInt8) :
    textLines (l ++ newline :: text) = .line (l ++ [newline]) :: textLines text := by
  rw [textLines, linesAfter_append hl, linesAfter, if_pos rfl, List.nil_append, textLines]

@[simp] theorem textLines_nil : textLines [] = [] := rfl

theorem textLines_newline (text : List UInt8) :
    textLines (newline :: text) = .line [newline] :: textLines text := textLines_line (l := []) (by simp) text

/-! ### A line as a string -/

theorem lineString_of_notMem {l : List UInt8} (hl : 0 ∉ l) : lineString l = l := by
  have hpos : ∀ c ∈ l, decide (c ≠ 0) = true := fun c hc => by simpa using fun h : c = 0 => hl (h ▸ hc)
  rw [lineString, ← List.append_nil l, List.takeWhile_append_of_pos hpos, List.takeWhile_nil]

theorem lineString_append_zero {l : List UInt8} (hl : 0 ∉ l) (rest : List UInt8) :
    lineString (l ++ 0 :: rest) = l := by
  rw [lineString, List.takeWhile_append_of_pos, List.takeWhile_cons_of_neg (by simp), List.append_nil]
  intro c hc
  simpa using fun h : c = 0 => hl (h ▸ hc)

theorem chompLine_newline {l : List UInt8} (hl : 0 ∉ l) : chompLine (l ++ [newline]) = l ++ [0] := by
  have hl' : 0 ∉ l ++ [newline] := by simp [hl, newline]
  rw [chompLine, lineString_of_notMem hl', if_pos (by simp)]
  simp

theorem lineString_newline {l : List UInt8} (hl : 0 ∉ l) : lineString (l ++ [newline]) = l ++ [newline] :=
  lineString_of_notMem (by simp [hl, newline])

theorem lineString_chompLine {l : List UInt8} (hl : 0 ∉ l) : lineString (chompLine (l ++ [newline])) = l := by
  rw [chompLine_newline hl, lineString_append_zero hl]

theorem readSeparator_separator {σ : Type} (separate hasNext : Bool) (text : List UInt8)
    (next : TextFile → Record σ) :
    readSeparator separate hasNext (textLines (separator separate hasNext ++ text)) next =
      next (textLines text) := by
  unfold readSeparator separator
  split
  · rw [List.singleton_append, textLines_newline]
    rfl
  · rfl

/-! ### The records of a text -/

section
variable {σ : Type} {record : CString → Bool → σ → Record σ} {finish : σ → Bool}
  {text : Bool → SpecId → CString} {file : List UInt8 → σ} {given : SpecId → Option (Option CString)}
  {oldName : SpecId → CString} {files : List SpecId} {specs : EditSpecs}

theorem readRecords_outputLoop
    (hrecord : ∀ s ∈ files, ∀ hasNext rest, record (oldName s) hasNext (file (text hasNext s ++ rest)) =
      ⟨given s, .accepted (file rest)⟩) (tail : List UInt8) :
    readRecords record oldName files (file (outputLoop text files ++ tail)) =
      (files.flatMap fun s => (given s).toList.map (s, ·), .accepted (file tail)) := by
  induction files with
  | nil => rfl
  | cons s rest ih =>
    rw [outputLoop, List.append_assoc, readRecords, hrecord s List.mem_cons_self]
    simp only [ih fun s hs => hrecord s (List.mem_cons_of_mem _ hs), List.flatMap_cons]

variable (given) in
/-- `Reads rest i` says that the records of `rest` are to be read from `i`. If a step shows that a record is accepted
just where `kept` holds, then the loop accepts just where it holds of all specs. -/
theorem readRecords_rule {kept : SpecId → Prop} {i : σ} (Reads : List SpecId → σ → Prop)
    (hstep : ∀ s rest i, Reads (s :: rest) i →
      (kept s → ∃ i', record (oldName s) (!rest.isEmpty) i = ⟨given s, .accepted i'⟩ ∧ Reads rest i') ∧
      (¬ kept s → ∀ i', (record (oldName s) (!rest.isEmpty) i).verdict ≠ .accepted i'))
    (h : Reads files i) :
    ((∀ s ∈ files, kept s) → ∃ i', Reads [] i' ∧ readRecords record oldName files i =
      (files.flatMap fun s => (given s).toList.map (s, ·), .accepted i')) ∧
    ((¬ ∀ s ∈ files, kept s) → ∀ i', (readRecords record oldName files i).2 ≠ .accepted i') := by
  induction files generalizing i with
  | nil => exact ⟨fun _ => ⟨i, h, rfl⟩, fun hk => absurd (by simp) hk⟩
  | cons s rest ih =>
    obtain ⟨hkept, hlost⟩ := hstep s rest i h
    rw [List.forall_mem_cons, readRecords]
    by_cases hs : kept s
    · obtain ⟨i', hrec, hi'⟩ := hkept hs
      obtain ⟨ih₁, ih₂⟩ := ih hi'
      simp only [hrec, hs, true_and]
      refine ⟨fun hk => ?_, ih₂⟩
      obtain ⟨i'', hi'', hread⟩ := ih₁ hk
      exact ⟨i'', hi'', by rw [hread, List.flatMap_cons]⟩
    · refine ⟨fun hk => absurd hk.1 hs, fun _ i' => ?_⟩
      have hno := hlost hs
      cases hv : (record (oldName s) (!rest.isEmpty) i).verdict with
      | accepted i₁ => exact absurd hv (hno i₁)
      | rejected => simp
      | undefined => simp

/-- The specs after all names of `given` have been assigned. -/
def EditSpecs.assignAll (specs : EditSpecs) (files : List SpecId) (given : SpecId → Option (Option CString)) :
    EditSpecs where
  oldName := specs.oldName
  newName s := if s ∈ files then (given s).getD (specs.newName s) else specs.newName s
  status := specs.status

theorem EditSpecs.assign_snoc (names : List (SpecId × Option CString)) (p : SpecId × Option CString) :
    specs.assign (names ++ [p]) = (specs.assign names).setNewName p.1 p.2 := by
  simp only [assign, List.foldl_append, List.foldl_cons, List.foldl_nil]

theorem EditSpecs.assign_flatMap :
    specs.assign (files.flatMap fun s => (given s).toList.map (s, ·)) = specs.assignAll files given := by
  induction files using List.reverseRecOn with
  | nil => simp [assign, assignAll]
  | append_singleton files s ih =>
    rw [List.flatMap_append, List.flatMap_singleton]
    cases hg : given s with
    | none =>
      rw [Option.toList_none, List.map_nil, List.append_nil, ih]
      simp only [assignAll, mk.injEq, true_and, and_true]
      funext t
      by_cases hts : t = s
      · simp [hts, hg]
      · simp [hts]
    | some n =>
      rw [Option.toList_some, List.map_singleton, assign_snoc, ih]
      simp only [assignAll, setNewName, mk.injEq, true_and, and_true]
      funext t
      by_cases hts : t = s
      · simp [hts, hg]
      · simp [hts]

theorem inputLoop_outputLoop
    (hrecord : ∀ s ∈ files, ∀ hasNext rest, record (specs.oldName s) hasNext (file (text hasNext s ++ rest)) =
      ⟨given s, .accepted (file rest)⟩) :
    inputLoop record finish files (file (outputLoop text files)) specs =
      .returned (finish (file [])) (specs.assignAll files given) := by
  rw [← List.append_nil (outputLoop text files), inputLoop_eq, readRecords_outputLoop hrecord,
    EditSpecs.assign_flatMap]
  rfl

end

end Renameutils
