import Renameutils.EditText

/-!
# The round trip of the formats with a line for each name

What `output` of `destination-only.c` and `single-column.c` writes, `input` reads back
(`EditFormat.input_output`): the new names are those that were written, whatever new names the specs have
by then.
-/

namespace Renameutils
open CString

/-- A string that is written as part of one line. -/
structure OneLine (str : CString) : Prop where
  newline : newline ∉ str
  nul : 0 ∉ str

namespace OneLine
variable {a b : CString}

theorem nil : OneLine [] := ⟨by simp, by simp⟩

theorem append (ha : OneLine a) (hb : OneLine b) : OneLine (a ++ b) :=
  ⟨by simp [ha.newline, hb.newline], by simp [ha.nul, hb.nul]⟩

theorem of_control (h : ∀ c ∈ a, isControl c = false) : OneLine a :=
  ⟨fun hm => by have := h _ hm; revert this; decide, fun hm => by have := h _ hm; revert this; decide⟩

theorem quote {isprint : UInt8 → Bool} (hprint : ∀ c, isControl c = true → isprint c = false) (s : CString) :
    OneLine (quoteOutputFile isprint s) := .of_control fun _ hc => isControl_quoteOutputFile hprint hc

theorem tabTo (c pos tabsize : Nat) : OneLine (tabTo c pos tabsize) :=
  ⟨fun h => by rcases mem_tabTo h with h | h <;> exact absurd h (by decide),
    fun h => by rcases mem_tabTo h with h | h <;> exact absurd h (by decide)⟩

theorem textLines (ha : OneLine a) (text : List UInt8) :
    textLines (a ++ CString.newline :: text) = .line (a ++ [CString.newline]) :: Renameutils.textLines text :=
  textLines_line ha.newline text

end OneLine

theorem startsWith_append (a b : CString) : CString.startsWith (a ++ b) a = true :=
  List.isPrefixOf_iff_prefix.mpr (List.prefix_append a b)

theorem dequoteOutputFile_quote (isprint : UInt8 → Bool) {s : CString} (hs : 0 ∉ s) :
    dequoteOutputFile (quoteOutputFile isprint s) = some s :=
  (quoteOutputFile_encodes isprint hs).dequote hs

theorem quoteOutputFile_ne_nil (isprint : UInt8 → Bool) {s : CString} (hs : 0 ∉ s) (hne : s ≠ []) :
    quoteOutputFile isprint s ≠ [] := by
  intro h
  have hd := dequoteOutputFile_quote isprint hs
  rw [h] at hd
  exact hne (Option.some.inj hd).symm

/-! ### `destination-only.c` -/

theorem DestinationOnly.record_output {isprint : UInt8 → Bool} (o : Options) (oldName newName : CString)
    (hline : OneLine (quoteOutputFile isprint newName)) (hnew : 0 ∉ newName) (hne : newName ≠ [])
    (hasNext : Bool) (text : List UInt8) :
    record o oldName hasNext (textLines (quoteOutputFile isprint newName ++
      newline :: separator o.separate hasNext ++ text)) = ⟨some (some newName), .accepted (textLines text)⟩ := by
  rw [List.append_assoc, List.cons_append, hline.textLines, record]
  dsimp only [readLine]
  rw [readSeparator_separator, lineString_chompLine hline.nul, dequoteOutputFile_quote isprint hnew]
  cases newName with
  | nil => exact absurd rfl hne
  | cons c name => rfl

/-! ### `single-column.c` -/

theorem SingleColumn.record_output {isprint : UInt8 → Bool} (o : Options) (hind₁ : OneLine o.indicator1)
    (hind₂ : OneLine o.indicator2) {first second : CString} (oldName : CString)
    (hline₁ : OneLine (quoteOutputFile isprint first)) (hline₂ : OneLine (quoteOutputFile isprint second))
    (hfirst : 0 ∉ first) (hsecond : 0 ∉ second) (hasNext : Bool) (text : List UInt8) :
    record o oldName hasNext (textLines (o.indicator1 ++ quoteOutputFile isprint first ++ newline ::
      (o.indicator2 ++ quoteOutputFile isprint second ++ newline :: separator o.separate hasNext) ++ text)) =
      if o.swap then assign oldName (some second) (some first) (textLines text)
      else assign oldName (some first) (some second) (textLines text) := by
  have h₁ := hind₁.append hline₁
  have h₂ := hind₂.append hline₂
  rw [List.append_assoc (_ ++ _), List.cons_append, List.append_assoc (_ ++ _), List.cons_append, h₁.textLines,
    h₂.textLines, record]
  dsimp only [readLine]
  rw [readSeparator_separator, lineString_chompLine h₁.nul, lineString_chompLine h₂.nul]
  simp only [startsWith_append, Bool.not_true, Bool.false_eq_true, if_false, List.drop_left,
    dequoteOutputFile_quote isprint hfirst, dequoteOutputFile_quote isprint hsecond]

theorem SingleColumn.assign_eq {name : CString} (hne : name ≠ []) (oldName fileOld : CString)
    (file : TextFile) : assign oldName (some fileOld) (some name) file =
      ⟨if fileOld = oldName then some (some name) else none, .accepted file⟩ := by
  obtain ⟨c, str, rfl⟩ := List.exists_cons_of_ne_nil hne
  by_cases heq : fileOld = oldName
  · simp only [assign, heq, ne_eq, not_true_eq_false, if_false, if_true]
  · simp only [assign, ne_eq, heq, not_false_eq_true, if_true, if_false]

/-! ### Both formats -/

/-- The formats with a line for each name, the old name first, if any. -/
def FormatOptions.NamePerLine (o : FormatOptions) : EditFormat → Prop
  | .destinationOnly => True
  | .singleColumn => o.singleColumn.swap = false ∧ OneLine o.singleColumn.indicator1 ∧
      OneLine o.singleColumn.indicator2
  | .dualColumn => False

/-- What `output` writes for the specs of `h`, `input` reads over specs with the same old names: it is
accepted, and the new names are those of `h`. -/
theorem EditFormat.input_output {isprint : UInt8 → Bool} (hprint : ∀ c, isControl c = true → isprint c = false)
    {fmt : EditFormat} {o : FormatOptions} (hfmt : o.NamePerLine fmt) {h : Heap} {files : List SpecId}
    (hold : ∀ s ∈ files, 0 ∉ h.oldName s)
    (hnew : ∀ s ∈ files, 0 ∉ h.newName s ∧ h.newName s ≠ []) {specs : EditSpecs}
    (hspecs : ∀ s ∈ files, specs.oldName s = h.oldName s) (realWidth : Nat) :
    ∃ text realWidth', fmt.output isprint o h files realWidth = some (text, realWidth') ∧
      ∃ specs', fmt.input o realWidth' files (textLines text) specs = .returned true specs' ∧
        specs'.oldName = specs.oldName ∧ specs'.status = specs.status ∧
        (∀ s ∈ files, specs'.newName s = some (h.newName s)) ∧
        ∀ s, s ∉ files → specs'.newName s = specs.newName s := by
  have hresult : ∀ specs', specs' = specs.assignAll files (fun s => some (some (h.newName s))) →
      specs'.oldName = specs.oldName ∧ specs'.status = specs.status ∧
        (∀ s ∈ files, specs'.newName s = some (h.newName s)) ∧
        ∀ s, s ∉ files → specs'.newName s = specs.newName s := by
    rintro _ rfl
    exact ⟨rfl, rfl, fun s hs => if_pos hs, fun s hs => if_neg hs⟩
  cases fmt with
  | dualColumn => exact hfmt.elim
  | destinationOnly =>
    refine ⟨_, _, rfl, _, ?_, hresult _ rfl⟩
    refine inputLoop_outputLoop fun s hs hasNext rest => ?_
    exact DestinationOnly.record_output o.destinationOnly _ _ (.quote hprint _) (hnew s hs).1 (hnew s hs).2 _ _
  | singleColumn =>
    obtain ⟨hswap, hind₁, hind₂⟩ := hfmt
    refine ⟨_, _, rfl, _, ?_, hresult _ rfl⟩
    refine inputLoop_outputLoop fun s hs hasNext rest => ?_
    rw [SingleColumn.record_output o.singleColumn hind₁ hind₂ _ (.quote hprint _) (.quote hprint _)
        (hold s hs) (hnew s hs).1, hswap, if_neg (by decide), SingleColumn.assign_eq (hnew s hs).2,
      if_pos (hspecs s hs).symm]

/-- A name that looks like a blank line and one that is an indicator, with `separate`. -/
theorem EditFormat.input_output_separate :
    let o : FormatOptions := { singleColumn := { separate := true, indicator1 := [60], indicator2 := [62] } }
    let h := (Heap.empty.newFileSpec ⟨[97], [10], none, none, .unchecked⟩).newFileSpec
      ⟨[60], [62], none, none, .unchecked⟩
    let specs : EditSpecs := ⟨h.oldName, fun _ => none, h.status⟩
    ∃ text realWidth', EditFormat.singleColumn.output (fun c => 32 ≤ c && c < 127) o h [0, 1] 0 =
        some (text, realWidth') ∧
      ∃ specs', EditFormat.singleColumn.input o realWidth' [0, 1] (textLines text) specs =
        .returned true specs' ∧ specs'.newName 0 = some [10] ∧ specs'.newName 1 = some [62] := by
  intro o h specs
  have hfmt : o.NamePerLine .singleColumn := ⟨rfl, ⟨by decide, by decide⟩, by decide, by decide⟩
  obtain ⟨text, realWidth', hout, specs', hin, _, _, hnew, _⟩ := EditFormat.input_output printsAscii.control hfmt
    (by decide : ∀ s ∈ [0, 1], 0 ∉ h.oldName s) (by decide) (fun _ _ => rfl : ∀ s ∈ [0, 1], specs.oldName s = _) 0
  exact ⟨text, realWidth', hout, specs', hin, hnew 0 (by simp), hnew 1 (by simp)⟩

end Renameutils
