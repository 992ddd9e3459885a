import Renameutils.DualLayouts
import Renameutils.EditSwap

/-!
# Indicators in the dual-column format

`output` writes a record on one line where the old name is shorter than `real_width` and the first indicator
together, but pads the line from the end of both: where the length of the old name and `real_width` differ by no
more than the length of the indicator, no blank may be left before the second column. With `autowidth`,
`real_width` is computed without the indicator. The text is read back where all lengths fit the indicator
(`IndicatorFits`, `indicators_input_output_iff`).
-/

namespace Renameutils
open CString

namespace DualColumn

/-- The length of the old name is so far from `real_width` that the first indicator makes no difference to the
layout. -/
def IndicatorFits (o : Options) (len : Nat) : Prop :=
  if o.autowidth then o.indicator1 = [] ∨ len + o.indicator1.length < o.width
  else o.width + o.indicator1.length ≤ len ∨ len + o.indicator1.length < o.width

/-- The record is a line with blanks up to column `real_width`, where the second indicator starts. -/
def BlankBetween (o : Options) (realWidth : Nat) (f g : CString) : Prop :=
  ∃ blanks, blanks ≠ [] ∧ (∀ x ∈ blanks, isBlank x = true) ∧
    (∀ hasNext, outputRecord o realWidth hasNext f g =
      o.indicator1 ++ f ++ blanks ++ (o.indicator2 ++ g) ++ newline :: separator o.separate hasNext) ∧
    tabIndex (o.indicator1 ++ f ++ blanks ++ (o.indicator2 ++ g)) realWidth o.tabsize =
      (o.indicator1 ++ f ++ blanks).length

section
variable {isprint : UInt8 → Bool} {o : Options} {h : Heap} {files rest : List SpecId} {name f g : CString}
  {i : Input} {names : List (CString × CString)} {width realWidth : Nat} {s : SpecId}

theorem blankBetween_iff (hind₁ : Visible o.indicator1) (p : PlainQuoted name f)
    (hlayout : outputLayout o realWidth f = .oneLine) :
    BlankBetween o realWidth f g ↔ f.length + o.indicator1.length < realWidth := by
  have htab : tab ∉ o.indicator1 ++ f :=
    tab_notMem_of_nonblank (List.forall_mem_append.mpr ⟨hind₁.nonblank, p.nonblank⟩)
  have hno : ¬ f.length ≥ realWidth + o.indicator1.length := by
    intro hlen
    rw [outputLayout, if_pos hlen] at hlayout
    cases hlayout
  constructor
  · rintro ⟨blanks, hne, _, htext, _⟩
    by_contra hlen
    have hnil := tabTo_eq_nil (if o.useSpaces then 0 else o.tabsize) (not_lt.mp hlen)
    have heq := htext false
    rw [outputRecord] at heq
    simp only [hno, if_false, hnil, List.append_nil, List.append_assoc, List.append_cancel_left_eq] at heq
    exact hne (List.self_eq_append_left.mp heq)
  · intro hlen
    have hlt : (o.indicator1 ++ f).length < realWidth := by rw [List.length_append]; omega
    exact ⟨_, tabTo_ne_nil _ hlt, fun _ hx => isBlank_tabTo hx, fun _ => outputRecord_single hlen,
      tabIndex_tabTo htab hlt.le o.tabsize_or_zero _⟩

/-! ### The prepared names -/

theorem prepare_names (pn : PlainNames h files)
    (hprep : prepare isprint o h files width = some (names, realWidth)) :
    names = files.map fun s => (quoteOutputFile isprint (h.oldName s), quoteOutputFile isprint (h.newName s)) := by
  induction files generalizing width names with
  | nil => rw [prepare] at hprep; cases hprep; rfl
  | cons s files ih =>
    obtain ⟨names', rfl, hrest⟩ := prepare_cons_plain pn hprep
    rw [List.map_cons, ih pn.tail hrest]

/-- With `autowidth`, `real_width` is the least number that is at least `width` and longer than any old name. -/
theorem prepare_auto (pn : PlainNames h files) (hswap : o.swap = false) (hauto : o.autowidth = true)
    (hprep : prepare isprint o h files width = some (names, realWidth)) :
    (∀ s ∈ files, (quoteOutputFile isprint (h.oldName s)).length < realWidth) ∧
      (realWidth = width ∨ ∃ s ∈ files, realWidth = (quoteOutputFile isprint (h.oldName s)).length + 1) := by
  induction files generalizing width names with
  | nil => rw [prepare] at hprep; cases hprep; exact ⟨by simp, .inl rfl⟩
  | cons s files ih =>
    obtain ⟨names', rfl, hrest⟩ := prepare_cons_plain pn hprep
    simp only [hauto, hswap, if_true, Bool.false_eq_true, if_false] at hrest
    obtain ⟨hlong, hwidth⟩ := ih pn.tail hrest
    have hle := prepare_le hrest
    refine ⟨List.forall_mem_cons.mpr ⟨by omega, hlong⟩, ?_⟩
    rcases hwidth with hwidth | ⟨t, ht, hwidth⟩
    · rcases Nat.le_total width ((quoteOutputFile isprint (h.oldName s)).length + 1) with hmax | hmax
      · exact .inr ⟨s, List.mem_cons_self, by rw [hwidth, Nat.max_eq_right hmax]⟩
      · exact .inl (by rw [hwidth, Nat.max_eq_left hmax])
    · exact .inr ⟨t, List.mem_cons_of_mem _ ht, hwidth⟩

theorem fits_iff (pn : PlainNames h files) (hswap : o.swap = false)
    (hprep : prepare isprint o h files o.width = some (names, realWidth)) :
    (∀ s ∈ files, realWidth + o.indicator1.length ≤ (quoteOutputFile isprint (h.oldName s)).length ∨
      (quoteOutputFile isprint (h.oldName s)).length + o.indicator1.length < realWidth) ↔
    ∀ s ∈ files, IndicatorFits o (quoteOutputFile isprint (h.oldName s)).length := by
  by_cases hauto : o.autowidth = true
  · obtain ⟨hlong, hwidth⟩ := prepare_auto pn hswap hauto hprep
    have hle := prepare_le hprep
    simp only [IndicatorFits, hauto, if_true]
    constructor
    · intro hfit s hs
      rcases hwidth with rfl | ⟨t, ht, rfl⟩
      · have := hlong s hs
        exact .inr ((hfit s hs).resolve_left (by omega))
      · refine .inl (List.eq_nil_of_length_eq_zero ?_)
        have := hfit t ht
        omega
    · intro hfit s hs
      have := hlong s hs
      rcases hfit s hs with hnil | hlen
      · rw [hnil, List.length_nil]
        exact .inr this
      · exact .inr (by omega)
  · rw [Bool.not_eq_true] at hauto
    obtain rfl := prepare_fixed hauto hprep
    simp only [IndicatorFits, hauto, Bool.false_eq_true, if_false]

/-! ### The records of a text -/

theorem Written.readRecords_unswapped (hind₁ : Visible o.indicator1) (hind₂ : Visible o.indicator2)
    (hswap : o.swap = false) (w : Written isprint o h realWidth files i)
    (hfit : ∀ s ∈ files, realWidth + o.indicator1.length ≤ (quoteOutputFile isprint (h.oldName s)).length ∨
      (quoteOutputFile isprint (h.oldName s)).length + o.indicator1.length < realWidth) :
    ∃ i', i'.lines = [] ∧ readRecords (record o realWidth) h.oldName files i =
      (files.flatMap fun s => (some (some (h.newName s))).toList.map (s, ·), .accepted i') := by
  have hstep : ∀ s rest i, (Written isprint o h realWidth (s :: rest) i ∧ ∀ t ∈ s :: rest, t ∈ files) →
      ∃ i', record o realWidth (h.oldName s) (!rest.isEmpty) i = ⟨some (some (h.newName s)), .accepted i'⟩ ∧
        Written isprint o h realWidth rest i' ∧ ∀ t ∈ rest, t ∈ files := by
    rintro s rest i ⟨w, hfiles⟩
    obtain ⟨i₁, hrec, i', hcheck, w'⟩ :=
      w.record_assigned hind₁ hind₂.line (hfit s (hfiles s List.mem_cons_self)) (h.oldName s)
    have hassign : assign o (h.oldName s) (some (h.oldName s)) (some (h.newName s)) i₁ =
        ⟨some (some (h.newName s)), .accepted i₁⟩ := by simp [assign, hswap]
    exact ⟨i', by rw [hrec, hassign, hcheck], w', fun t ht => hfiles t (List.mem_cons_of_mem _ ht)⟩
  obtain ⟨i', ⟨w', _⟩, hread⟩ := (readRecords_rule (fun s => some (some (h.newName s)))
    (fun rest i => Written isprint o h realWidth rest i ∧ ∀ t ∈ rest, t ∈ files)
    (fun s rest i hr => ⟨fun _ : True => hstep s rest i hr, fun hno => absurd trivial hno⟩)
    ⟨w, fun _ => id⟩).1 fun _ _ => trivial
  exact ⟨i', w'.lines_nil, hread⟩

end

end DualColumn

/-- With indicators, each record on one line has a blank before the second column, and what `output` of the
dual-column format writes is read back as it was, if and only if the lengths of all old names fit the first
indicator. -/
theorem indicators_input_output_iff (isprint : UInt8 → Bool) {o : DualColumn.Options}
    (hind₁ : DualColumn.Visible o.indicator1) (hind₂ : DualColumn.Visible o.indicator2) (hswap : o.swap = false)
    {h : Heap} {files : List SpecId} (pn : DualColumn.PlainNames h files) :
    (∃ names realWidth text, DualColumn.prepare isprint o h files o.width = some (names, realWidth) ∧
      DualColumn.output isprint o h files = some (text, realWidth) ∧
      (∀ n ∈ names, DualColumn.outputLayout o realWidth n.1 = .oneLine →
        DualColumn.BlankBetween o realWidth n.1 n.2) ∧
      DualColumn.input o realWidth files (textLines text) ⟨h.oldName, fun s => some (h.newName s), h.status⟩ =
        .returned true ⟨h.oldName, fun s => some (h.newName s), h.status⟩) ↔
    ∀ s ∈ files, DualColumn.IndicatorFits o (quoteOutputFile isprint (h.oldName s)).length := by
  have hold : ∀ s ∈ files, 0 ∉ h.oldName s ∧ h.oldName s ≠ [] := fun s hs => ⟨(pn.nul s hs).1, (pn.old s hs).2⟩
  obtain ⟨names, realWidth, hprep⟩ := DualColumn.prepare_isSome isprint o hold o.width
  have hout := DualColumn.output_of_prepare hprep
  have hnames := DualColumn.prepare_names pn hprep
  -- a record on one line has a blank if and only if its old name fits
  have hblank : (∀ n ∈ names, DualColumn.outputLayout o realWidth n.1 = .oneLine →
      DualColumn.BlankBetween o realWidth n.1 n.2) ↔
      ∀ s ∈ files, realWidth + o.indicator1.length ≤ (quoteOutputFile isprint (h.oldName s)).length ∨
        (quoteOutputFile isprint (h.oldName s)).length + o.indicator1.length < realWidth := by
    rw [hnames, List.forall_mem_map]
    refine forall₂_congr fun s hs => ?_
    have p := plainQuoted isprint (pn.old s hs).1 (pn.old s hs).2
    by_cases hlen : realWidth + o.indicator1.length ≤ (quoteOutputFile isprint (h.oldName s)).length
    · simp [DualColumn.outputLayout, hlen]
    · have hlayout : DualColumn.outputLayout o realWidth (quoteOutputFile isprint (h.oldName s)) = .oneLine :=
        if_neg hlen
      simp only [hlayout, hlen, DualColumn.blankBetween_iff hind₁ p hlayout, forall_const, false_or]
  rw [← DualColumn.fits_iff pn hswap hprep, ← hblank]
  constructor
  · rintro ⟨names', w, text, hprep', _, hbetween, _⟩
    rw [hprep] at hprep'
    obtain ⟨rfl, rfl⟩ := Prod.mk.inj (Option.some.inj hprep')
    exact hbetween
  · intro hbetween
    have hwritten : DualColumn.Written isprint o h realWidth files
        ⟨[], textLines (DualColumn.outputNames o realWidth names)⟩ := ⟨pn, o.width, names, hprep, rfl⟩
    obtain ⟨i', hi', hread⟩ := hwritten.readRecords_unswapped hind₁ hind₂ hswap (hblank.mp hbetween)
    exact ⟨names, realWidth, _, hprep, hout, hbetween, DualColumn.input_of_accepted hread hi'⟩

/-- A record on one line and one on two, with `separate`. -/
theorem indicators_input_output_two :
    let isprint : UInt8 → Bool := fun c => 32 ≤ c && c < 127
    let o : DualColumn.Options :=
      { width := 4, autowidth := false, separate := true, indicator1 := [35], indicator2 := [62] }
    let h := (Heap.empty.newFileSpec ⟨[97], [98], none, none, .unchecked⟩).newFileSpec
      ⟨[97, 98, 99, 100, 101], [99], none, none, .unchecked⟩
    (∃ names realWidth text, DualColumn.prepare isprint o h [0, 1] o.width = some (names, realWidth) ∧
      DualColumn.output isprint o h [0, 1] = some (text, realWidth) ∧
      (∀ n ∈ names, DualColumn.outputLayout o realWidth n.1 = .oneLine →
        DualColumn.BlankBetween o realWidth n.1 n.2) ∧
      DualColumn.input o realWidth [0, 1] (textLines text) ⟨h.oldName, fun s => some (h.newName s), h.status⟩ =
        .returned true ⟨h.oldName, fun s => some (h.newName s), h.status⟩) ↔
    ∀ s ∈ [0, 1], DualColumn.IndicatorFits o (quoteOutputFile isprint (h.oldName s)).length := by
  intro isprint o h
  have hplain : DualColumn.PlainNames h [0, 1] := ⟨by decide +kernel, by decide +kernel⟩
  exact indicators_input_output_iff isprint ⟨⟨by decide, by decide⟩, by decide +kernel⟩
    ⟨⟨by decide, by decide⟩, by decide +kernel⟩ rfl hplain

/-- An old name that ends, with the indicator before it, where the second column starts. -/
theorem indicators_input_output_touching :
    let isprint : UInt8 → Bool := fun c => 32 ≤ c && c < 127
    let o : DualColumn.Options := { width := 4, autowidth := false, indicator1 := [35] }
    let h := Heap.empty.newFileSpec ⟨[97, 98, 99], [97, 98, 99], none, none, .unchecked⟩
    DualColumn.PlainNames h [0] ∧
    ¬ ∃ names realWidth text, DualColumn.prepare isprint o h [0] o.width = some (names, realWidth) ∧
      DualColumn.output isprint o h [0] = some (text, realWidth) ∧
      (∀ n ∈ names, DualColumn.outputLayout o realWidth n.1 = .oneLine →
        DualColumn.BlankBetween o realWidth n.1 n.2) ∧
      DualColumn.input o realWidth [0] (textLines text) ⟨h.oldName, fun s => some (h.newName s), h.status⟩ =
        .returned true ⟨h.oldName, fun s => some (h.newName s), h.status⟩ := by
  intro isprint o h
  refine ⟨⟨by decide +kernel, by decide +kernel⟩, ?_⟩
  rintro ⟨_, realWidth, text, _, hout, _, hin⟩
  have hrun : (DualColumn.output isprint o h [0]).map (fun p =>
      (readRecords (DualColumn.record o p.2) h.oldName [0] ⟨[], textLines p.1⟩).2.result DualColumn.finish) =
      some (some false) := by decide +kernel
  rw [hout, Option.map_some, Option.some.injEq] at hrun
  rw [DualColumn.input, inputLoop_eq, hrun] at hin
  cases hin

end Renameutils
