import Renameutils.DualRoundTrip

/-!
# The option `swap`

`input` exchanges the two names of a record when `swap` is set, and `output` does not: it always writes the
old name first, so that `input` compares the new name with the old name of the spec. What was written is
read back only where the two are equal (`swap_input_output_iff`).
-/

namespace Renameutils
open CString

/-- Letters and digits. -/
def isAlnum (c : UInt8) : Bool := (48 ≤ c && c ≤ 57) || (65 ≤ c && c ≤ 90) || (97 ≤ c && c ≤ 122)

section
variable {isprint : UInt8 → Bool} {c : UInt8} {name : CString}

theorem isAlnum_bounds (hc : isAlnum c = true) : 48 ≤ c.toNat ∧ c.toNat ≤ 122 ∧ c.toNat ≠ 92 := by
  simp only [isAlnum, Bool.or_eq_true, Bool.and_eq_true, decide_eq_true_eq, UInt8.le_iff_toNat_le,
    UInt8.toNat_ofNat] at hc
  omega

theorem isAlnum_ne (hc : isAlnum c = true) : c ≠ 0 ∧ c ≠ newline ∧ c ≠ tab ∧ c ≠ space ∧ c ≠ backslash := by
  obtain ⟨h1, _, h2⟩ := isAlnum_bounds hc
  refine ⟨?_, ?_, ?_, ?_, ?_⟩ <;> rintro rfl <;> revert h1 h2 <;> decide

theorem quoteOutputFile_alnum (isprint : UInt8 → Bool) (hname : ∀ c ∈ name, isAlnum c = true)
    (hne : name ≠ []) : ∃ e b, quoteOutputFile isprint name = e ++ [b] ∧ isAlnum b = true ∧
      ∀ x ∈ e, isAlnum x = true ∨ x = backslash := by
  have hdigit : ∀ n < 8, isAlnum (octalDigit n) = true := by decide
  have hquote : ∀ c, isAlnum c = true → ∃ e b, quoteChar isprint c = e ++ [b] ∧ isAlnum b = true ∧
      ∀ x ∈ e, isAlnum x = true ∨ x = backslash := by
    intro c hc
    obtain ⟨h0, _, _, _, hb⟩ := isAlnum_ne hc
    obtain ⟨h1, h2, _⟩ := isAlnum_bounds hc
    unfold quoteChar
    rw [if_neg hb]
    split
    · exact ⟨[], c, by rw [strbufAppendChar, if_neg h0, List.nil_append], hc, by simp⟩
    · have hval : ¬ (7 ≤ charValue c ∧ charValue c ≤ 13) := by unfold charValue; split <;> omega
      rw [if_neg hval, charValue_mod]
      refine ⟨[backslash, _, _], _, rfl, hdigit _ (by omega), fun x hx => ?_⟩
      simp only [List.mem_cons, List.not_mem_nil, or_false] at hx
      rcases hx with rfl | rfl | rfl
      · exact .inr rfl
      · exact .inl (hdigit _ (by omega))
      · exact .inl (hdigit _ (by omega))
  obtain ⟨a, c, rfl⟩ := (List.eq_nil_or_concat name).resolve_left hne
  rw [List.concat_eq_append] at *
  obtain ⟨e, b, hq, hb, he⟩ := hquote c (hname c (by simp))
  refine ⟨quoteOutputFile isprint a ++ e, b, ?_, hb, fun x hx => ?_⟩
  · rw [quoteOutputFile_append, quoteOutputFile_singleton, hq, List.append_assoc]
  · rcases List.mem_append.mp hx with hx | hx
    · obtain ⟨d, hd, hx⟩ := List.mem_flatMap.mp hx
      obtain ⟨e', b', hq', hb', he'⟩ := hquote d (hname d (by simp [hd]))
      rw [hq'] at hx
      rcases List.mem_append.mp hx with hx | hx
      · exact he' x hx
      · exact .inl (List.mem_singleton.mp hx ▸ hb')
    · exact he x hx

end

/-- A quoted name of letters and digits. -/
structure PlainQuoted (name q : CString) : Prop where
  line : OneLine q
  tab : tab ∉ q
  nonblank : ∀ x ∈ q, DualColumn.isBlank x = false
  ends : ∃ e b, q = e ++ [b] ∧ b ≠ backslash
  dequote : dequoteOutputFile q = some name
  strip : name.stringStripTrailing [space, CString.tab] = name

theorem plainQuoted (isprint : UInt8 → Bool) {name : CString} (hname : ∀ c ∈ name, isAlnum c = true)
    (hne : name ≠ []) : PlainQuoted name (quoteOutputFile isprint name) := by
  obtain ⟨e, b, hq, hb, he⟩ := quoteOutputFile_alnum isprint hname hne
  have hall : ∀ x ∈ quoteOutputFile isprint name, isAlnum x = true ∨ x = backslash := by
    intro x hx
    rw [hq] at hx
    rcases List.mem_append.mp hx with hx | hx
    · exact he x hx
    · exact .inl (List.mem_singleton.mp hx ▸ hb)
  have hnot : ∀ x, x = 0 ∨ x = newline ∨ x = CString.tab ∨ x = space → x ∉ quoteOutputFile isprint name := by
    intro x hx hm
    rcases hall x hm with h | rfl
    · obtain ⟨h0, h1, h2, h3, _⟩ := isAlnum_ne h
      rcases hx with hx | hx | hx | hx
      exacts [h0 hx, h1 hx, h2 hx, h3 hx]
    · revert hx; decide
  have hzero : 0 ∉ name := fun h => (isAlnum_ne (hname 0 h)).1 rfl
  refine ⟨⟨hnot _ (by simp), hnot _ (by simp)⟩, hnot _ (by simp), fun x hx => ?_,
    ⟨e, b, hq, (isAlnum_ne hb).2.2.2.2⟩, dequoteOutputFile_quote isprint hzero, ?_⟩
  · rw [DualColumn.isBlank, Bool.or_eq_false_iff, decide_eq_false_iff_not, decide_eq_false_iff_not]
    exact ⟨fun h => hnot x (by simp [h]) hx, fun h => hnot x (by simp [h]) hx⟩
  · obtain ⟨a, c, rfl⟩ := (List.eq_nil_or_concat name).resolve_left hne
    rw [List.concat_eq_append] at *
    obtain ⟨_, _, h2, h3, _⟩ := isAlnum_ne (hname c (by simp))
    rw [stringStripTrailing, List.reverse_append, List.reverse_singleton, List.singleton_append,
      List.dropWhile_cons_of_neg (by simp [h2, h3])]
    simp

namespace DualColumn
variable {isprint : UInt8 → Bool} {o : Options} {h : Heap} {files : List SpecId} {oldName first second f g : CString}
  {i : Input} {hasNext : Bool} {rest : List UInt8} {names : List (CString × CString)}
  {width realWidth : Nat}

theorem quoteFirstLast_plain (p : PlainQuoted first f) (width : Nat) : quoteFirstLast o width f = some f := by
  by_cases hw : width = 0
  · rw [quoteFirstLast, if_pos hw]
  obtain ⟨e, b, rfl, _⟩ := p.ends
  have hlead : leadingBackslash o width (e ++ [b]) = [] := by
    obtain ⟨c, q, hq⟩ := List.exists_cons_of_ne_nil (show e ++ [b] ≠ [] by simp)
    rw [leadingBackslash, hq, blankTo_cons (p.nonblank c (by rw [hq]; simp)) (by omega) q]
    rfl
  have hb : b ≠ space := by
    rintro rfl
    exact absurd (p.nonblank space (by simp)) (by decide)
  rw [quoteFirstLast_eq hw, hlead, if_neg hb, List.nil_append]

/-- A text of visible characters. -/
structure Visible (str : CString) : Prop where
  line : OneLine str
  nonblank : ∀ x ∈ str, isBlank x = false

theorem Visible.nil : Visible [] := ⟨.nil, by simp⟩

theorem tab_notMem_of_nonblank {str : CString} (h : ∀ x ∈ str, isBlank x = false) : tab ∉ str := fun hm =>
  absurd (h tab hm) (by decide)

/-- `input` gives the two names that `output` wrote to `assign`, if it wrote them on two lines or left a blank
before the second column. -/
theorem record_plain (hind₁ : Visible o.indicator1) (hind₂ : OneLine o.indicator2) (p : PlainQuoted first f)
    (p' : PlainQuoted second g)
    (hfit : realWidth + o.indicator1.length ≤ f.length ∨ f.length + o.indicator1.length < realWidth)
    (hnext : 0 < realWidth → NextLine o realWidth hasNext rest)
    (hi : i.lines = textLines (outputRecord o realWidth hasNext f g ++ rest)) (oldName : CString) :
    ∃ i', i'.lines = textLines (separator o.separate hasNext ++ rest) ∧
      record o realWidth oldName hasNext i =
        checkSeparator o hasNext (assign o oldName (some first) (some second) i') := by
  rcases hfit with hlen | hlen
  · obtain ⟨-, i', hi', hrec⟩ := record_dual hind₁.line hind₂ p.line hlen p'.line hi p.dequote oldName
    rw [p.strip, p'.dequote] at hrec
    exact ⟨i', hi', hrec⟩
  have htab : tab ∉ o.indicator1 ++ f :=
    tab_notMem_of_nonblank (List.forall_mem_append.mpr ⟨hind₁.nonblank, p.nonblank⟩)
  obtain ⟨-, x, pad, i', hblank, hline, hd, hi', hrec⟩ :=
    record_single_blank hind₁.line hind₂ p.line htab hlen p'.line (hnext (Nat.zero_lt_of_lt hlen)) hi oldName
  obtain ⟨e, b, rfl, hb⟩ := p.ends
  obtain ⟨e', b', hg, _⟩ := p'.ends
  have htaken : TakenAs x (e ++ [b]) (some (e ++ [b])) true :=
    .plain (p.nonblank b (by simp)) hb (by simp)
  obtain ⟨g', hg', heq⟩ := htaken.processSingleLine (by simp) hblank hline (by simp [hg]) hd oldName i'
  rw [heq, Option.elim_some, hg' rfl, startsWith_append, if_pos rfl, List.drop_left, p.dequote, p'.dequote] at hrec
  exact ⟨i', hi', hrec⟩

theorem nextLine_outputRecord (hind₁ : Visible o.indicator1) (hind₂ : OneLine o.indicator2)
    (p : PlainQuoted first f) (hg : OneLine g) (hpos : 0 < realWidth) :
    NextLine o realWidth true (outputRecord o realWidth hasNext f g ++ rest) := by
  obtain ⟨l, text, hline, heq⟩ : ∃ l text, OneLine (o.indicator1 ++ f ++ l) ∧
      outputRecord o realWidth hasNext f g = o.indicator1 ++ f ++ l ++ newline :: text :=
    outputRecord_line hind₁.line hind₂ p.line hg
  obtain ⟨e, b, hf, _⟩ := p.ends
  obtain ⟨c, q, hcq⟩ := List.exists_cons_of_ne_nil (show o.indicator1 ++ f ≠ [] by simp [hf])
  have hc : isBlank c = false :=
    (List.forall_mem_append.mpr ⟨hind₁.nonblank, p.nonblank⟩ : ∀ x ∈ o.indicator1 ++ f, _) c (by simp [hcq])
  refine .inr ⟨_, _, by rw [heq, List.append_assoc _ _ rest, List.cons_append, hline.textLines], ?_⟩
  rw [lineString_newline hline.nul, hcq]
  exact blankTo_cons hc hpos _

/-- Names of letters and digits. -/
structure PlainNames (h : Heap) (files : List SpecId) : Prop where
  old : ∀ s ∈ files, (∀ c ∈ h.oldName s, isAlnum c = true) ∧ h.oldName s ≠ []
  new : ∀ s ∈ files, (∀ c ∈ h.newName s, isAlnum c = true) ∧ h.newName s ≠ []

theorem PlainNames.nul (p : PlainNames h files) : ∀ s ∈ files, 0 ∉ h.oldName s ∧ 0 ∉ h.newName s := fun s hs =>
  ⟨fun h0 => (isAlnum_ne ((p.old s hs).1 0 h0)).1 rfl, fun h0 => (isAlnum_ne ((p.new s hs).1 0 h0)).1 rfl⟩

theorem PlainNames.quoted (p : PlainNames h files) (isprint : UInt8 → Bool) : ∀ s ∈ files,
    PlainQuoted (h.oldName s) (quoteOutputFile isprint (h.oldName s)) ∧
      PlainQuoted (h.newName s) (quoteOutputFile isprint (h.newName s)) := fun s hs =>
  ⟨plainQuoted isprint (p.old s hs).1 (p.old s hs).2, plainQuoted isprint (p.new s hs).1 (p.new s hs).2⟩

theorem PlainNames.tail {s : SpecId} (p : PlainNames h (s :: files)) : PlainNames h files :=
  ⟨fun t ht => p.old t (.tail _ ht), fun t ht => p.new t (.tail _ ht)⟩

theorem prepare_cons_plain {s : SpecId} (pn : PlainNames h (s :: files))
    (hprep : prepare isprint o h (s :: files) width = some (names, realWidth)) :
    ∃ names', names = (quoteOutputFile isprint (h.oldName s), quoteOutputFile isprint (h.newName s)) :: names' ∧
      prepare isprint o h files (if o.autowidth then max width ((if o.swap then quoteOutputFile isprint (h.newName s)
        else quoteOutputFile isprint (h.oldName s)).length + 1) else width) = some (names', realWidth) := by
  obtain ⟨hold, hne⟩ := pn.old s List.mem_cons_self
  obtain ⟨f, names', hf, rfl, hrest⟩ := prepare_cons hprep
  rw [quoteFirstLast_plain (plainQuoted isprint hold hne)] at hf
  obtain rfl := Option.some.inj hf
  exact ⟨names', rfl, hrest⟩

theorem nextLine_plain (pn : PlainNames h files) (hind₁ : Visible o.indicator1) (hind₂ : OneLine o.indicator2)
    (hpos : 0 < realWidth) (hprep : prepare isprint o h files width = some (names, realWidth)) :
    NextLine o realWidth (!files.isEmpty) (outputNames o realWidth names) := by
  cases files with
  | nil => rw [prepare] at hprep; cases hprep; rfl
  | cons s files =>
    obtain ⟨names', rfl, _⟩ := prepare_cons_plain pn hprep
    obtain ⟨p, p'⟩ := pn.quoted isprint s List.mem_cons_self
    exact nextLine_outputRecord hind₁ hind₂ p p'.line hpos

/-- What `output` wrote for specs with plain names is to be read. -/
def Written (isprint : UInt8 → Bool) (o : Options) (h : Heap) (realWidth : Nat) (files : List SpecId) (i : Input) :
    Prop :=
  PlainNames h files ∧ ∃ width names, prepare isprint o h files width = some (names, realWidth) ∧
    i.lines = textLines (outputNames o realWidth names)

theorem Written.lines_nil (w : Written isprint o h realWidth [] i) : i.lines = [] := by
  obtain ⟨_, _, _, hprep, hi⟩ := w
  rw [prepare] at hprep
  cases hprep
  exact hi

theorem Written.record_assigned {s : SpecId} {others : List SpecId} (hind₁ : Visible o.indicator1)
    (hind₂ : OneLine o.indicator2) (w : Written isprint o h realWidth (s :: others) i)
    (hfit : realWidth + o.indicator1.length ≤ (quoteOutputFile isprint (h.oldName s)).length ∨
      (quoteOutputFile isprint (h.oldName s)).length + o.indicator1.length < realWidth) (oldName : CString) :
    ∃ i₁, record o realWidth oldName (!others.isEmpty) i =
        checkSeparator o (!others.isEmpty) (assign o oldName (some (h.oldName s)) (some (h.newName s)) i₁) ∧
      ∃ i', checkSeparator o (!others.isEmpty) ⟨some (some (h.newName s)), .accepted i₁⟩ =
        ⟨some (some (h.newName s)), .accepted i'⟩ ∧ Written isprint o h realWidth others i' := by
  obtain ⟨pn, width, names, hprep, hi⟩ := w
  obtain ⟨names', rfl, hrest⟩ := prepare_cons_plain pn hprep
  obtain ⟨p, p'⟩ := pn.quoted isprint s List.mem_cons_self
  rw [outputNames, prepare_isEmpty hrest] at hi
  obtain ⟨i₁, hi₁, hrec⟩ :=
    record_plain hind₁ hind₂ p p' hfit (fun hpos => nextLine_plain pn.tail hind₁ hind₂ hpos hrest) hi oldName
  obtain ⟨i', hcheck, hi'⟩ := checkSeparator_accepted (some (some (h.newName s))) hi₁
  exact ⟨i₁, hrec, i', hcheck, pn.tail, _, names', hrest, hi'⟩

theorem Written.readRecords_swapped (hind₁ : o.indicator1 = []) (hind₂ : o.indicator2 = []) (hswap : o.swap = true)
    (w : Written isprint o h realWidth files i) {oldName : SpecId → CString}
    (hspecs : ∀ s ∈ files, oldName s = h.oldName s) :
    ((∀ s ∈ files, h.newName s = h.oldName s) → ∃ i', i'.lines = [] ∧
      readRecords (record o realWidth) oldName files i =
        (files.flatMap fun s => (some (some (h.newName s))).toList.map (s, ·), .accepted i')) ∧
    (¬ (∀ s ∈ files, h.newName s = h.oldName s) → ∀ i',
      (readRecords (record o realWidth) oldName files i).2 ≠ .accepted i') := by
  refine (readRecords_rule (fun s => some (some (h.newName s)))
    (fun rest i => Written isprint o h realWidth rest i ∧ ∀ s ∈ rest, oldName s = h.oldName s) ?_
    ⟨w, hspecs⟩).imp_left fun hread hk => ?_
  · rintro s rest i ⟨w, hspecs⟩
    have hfit : realWidth + o.indicator1.length ≤ (quoteOutputFile isprint (h.oldName s)).length ∨
        (quoteOutputFile isprint (h.oldName s)).length + o.indicator1.length < realWidth := by
      rw [hind₁]
      exact le_or_gt ..
    obtain ⟨i₁, hrec, i', hcheck, w'⟩ := w.record_assigned (hind₁ ▸ .nil) (hind₂ ▸ .nil) hfit (oldName s)
    rw [hspecs s List.mem_cons_self] at hrec ⊢
    refine ⟨fun heq => ⟨i', ?_, w', fun s hs => hspecs s (.tail _ hs)⟩, fun heq i' => ?_⟩
    · have hassign : assign o (h.oldName s) (some (h.oldName s)) (some (h.newName s)) i₁ =
          ⟨some (some (h.newName s)), .accepted i₁⟩ := by simp [assign, hswap, heq]
      rw [hrec, hassign, hcheck]
    · have hassign : assign o (h.oldName s) (some (h.oldName s)) (some (h.newName s)) i₁ = .rejected := by
        simp [assign, hswap, Ne.symm heq]
      rw [hrec, hassign, checkSeparator_of_not_accepted (by simp [Record.rejected])]
      simp [Record.rejected]
  · obtain ⟨i', ⟨w', _⟩, heq⟩ := hread hk
    exact ⟨i', w'.lines_nil, heq⟩

end DualColumn

/-- The formats with columns that `swap` exchanges. -/
def FormatOptions.Swapped (o : FormatOptions) : EditFormat → Prop
  | .destinationOnly => False
  | .singleColumn => o.singleColumn.swap = true ∧ OneLine o.singleColumn.indicator1 ∧
      OneLine o.singleColumn.indicator2
  | .dualColumn => o.dualColumn.swap = true ∧ o.dualColumn.autowidth = true ∧ o.dualColumn.indicator1 = [] ∧
      o.dualColumn.indicator2 = []

theorem SingleColumn.input_swapped (isprint : UInt8 → Bool) {o : SingleColumn.Options} (hswap : o.swap = true)
    (hind₁ : OneLine o.indicator1) (hind₂ : OneLine o.indicator2) {h : Heap} {files : List SpecId}
    (pn : DualColumn.PlainNames h files) {specs : EditSpecs} (hspecs : ∀ s ∈ files, specs.oldName s = h.oldName s) :
    SingleColumn.input o files (textLines (SingleColumn.output isprint o h files)) specs =
      .returned true (specs.assignAll files fun s =>
        if h.newName s = h.oldName s then some (some (h.oldName s)) else none) := by
  refine inputLoop_outputLoop fun s hs hasNext rest => ?_
  obtain ⟨p, p'⟩ := pn.quoted isprint s hs
  rw [SingleColumn.record_output o hind₁ hind₂ _ p.line p'.line (pn.nul s hs).1 (pn.nul s hs).2, hswap, if_pos rfl,
    SingleColumn.assign_eq (pn.old s hs).2, hspecs s hs]

/-- With `swap` the text that `output` writes is read back if and only if, in the single-column format, each
new name is the old name or the spec has it already, and in the dual-column format all new names are the
old names. -/
theorem swap_input_output_iff (isprint : UInt8 → Bool) {fmt : EditFormat} {o : FormatOptions}
    (hfmt : o.Swapped fmt) {h : Heap} {files : List SpecId} (pn : DualColumn.PlainNames h files) {specs : EditSpecs}
    (hspecs : ∀ s ∈ files, specs.oldName s = h.oldName s) (realWidth : Nat) :
    (∃ text realWidth', fmt.output isprint o h files realWidth = some (text, realWidth') ∧
      ∃ specs', fmt.input o realWidth' files (textLines text) specs = .returned true specs' ∧
        specs'.oldName = specs.oldName ∧ ∀ s ∈ files, specs'.newName s = some (h.newName s)) ↔
    ∀ s ∈ files, h.newName s = h.oldName s ∨
      (fmt = .singleColumn ∧ specs.newName s = some (h.newName s)) := by
  cases fmt with
  | destinationOnly => exact hfmt.elim
  | singleColumn =>
    obtain ⟨hsingle, hind₁, hind₂⟩ := hfmt
    have hin : EditFormat.singleColumn.input o realWidth files
        (textLines (SingleColumn.output isprint o.singleColumn h files)) specs =
        .returned true (specs.assignAll files fun s =>
          if h.newName s = h.oldName s then some (some (h.oldName s)) else none) :=
      SingleColumn.input_swapped isprint hsingle hind₁ hind₂ pn hspecs
    constructor
    · rintro ⟨text, w, hout, specs', hin', _, hnew⟩ s hs
      obtain ⟨rfl, rfl⟩ := Prod.mk.inj (Option.some.inj hout)
      rw [hin] at hin'
      cases hin'
      have hs' := hnew s hs
      by_cases heq : h.newName s = h.oldName s
      · exact .inl heq
      · rw [EditSpecs.assignAll] at hs'
        simp only [hs, heq, if_true, if_false, Option.getD_none] at hs'
        exact .inr ⟨rfl, hs'⟩
    · intro hk
      refine ⟨_, _, rfl, _, hin, rfl, fun s hs => ?_⟩
      rw [EditSpecs.assignAll]
      by_cases heq : h.newName s = h.oldName s
      · simp [hs, heq]
      · simpa [hs, heq] using (hk s hs).resolve_left heq
  | dualColumn =>
    obtain ⟨hdual, _, hind₁', hind₂'⟩ := hfmt
    have hold : ∀ s ∈ files, 0 ∉ h.oldName s ∧ h.oldName s ≠ [] := fun s hs => ⟨(pn.nul s hs).1, (pn.old s hs).2⟩
    obtain ⟨names, w, hprep⟩ := DualColumn.prepare_isSome isprint o.dualColumn hold o.dualColumn.width
    have hout : EditFormat.dualColumn.output isprint o h files realWidth =
        some (DualColumn.outputNames o.dualColumn w names, w) := DualColumn.output_of_prepare hprep
    have hwritten : DualColumn.Written isprint o.dualColumn h w files
        ⟨[], textLines (DualColumn.outputNames o.dualColumn w names)⟩ := ⟨pn, _, names, hprep, rfl⟩
    obtain ⟨hkept, hlost⟩ := hwritten.readRecords_swapped hind₁' hind₂' hdual hspecs
    have hcond : (∀ s ∈ files, h.newName s = h.oldName s ∨
        (EditFormat.dualColumn = .singleColumn ∧ specs.newName s = some (h.newName s))) ↔
        ∀ s ∈ files, h.newName s = h.oldName s := by simp
    rw [hcond]
    constructor
    · rintro ⟨text, w', hout', specs', hin, _⟩
      rw [hout] at hout'
      obtain ⟨rfl, rfl⟩ := Prod.mk.inj (Option.some.inj hout')
      by_contra hk
      exact DualColumn.input_ne_accepted (hlost hk) hin
    · intro hk
      obtain ⟨i', hi', hread⟩ := hkept hk
      refine ⟨_, _, hout, specs.assignAll files fun s => some (some (h.newName s)), ?_, rfl, fun s hs => if_pos hs⟩
      rw [EditFormat.input, DualColumn.input, inputLoop_eq, hread, EditSpecs.assign_flatMap]
      simp [Verdict.result, DualColumn.finish_of_lines hi']

/-- A second edit of two files, of which one is to be renamed: the single-column format reads the names back, the
dual-column format does not. -/
theorem swap_input_output_second :
    let isprint : UInt8 → Bool := fun c => 32 ≤ c && c < 127
    let o : FormatOptions := { singleColumn := { swap := true }, dualColumn := { swap := true } }
    let h := (Heap.empty.newFileSpec ⟨[97], [98], none, none, .unchecked⟩).newFileSpec
      ⟨[99], [99], none, none, .unchecked⟩
    let specs : EditSpecs := ⟨h.oldName, fun s => some (h.newName s), h.status⟩
    let ReadBack (fmt : EditFormat) : Prop :=
      ∃ text realWidth', fmt.output isprint o h [0, 1] 0 = some (text, realWidth') ∧
        ∃ specs', fmt.input o realWidth' [0, 1] (textLines text) specs = .returned true specs' ∧
          specs'.oldName = specs.oldName ∧ ∀ s ∈ [0, 1], specs'.newName s = some (h.newName s)
    ReadBack .singleColumn ∧ ¬ ReadBack .dualColumn := by
  intro isprint o h specs ReadBack
  have hplain : DualColumn.PlainNames h [0, 1] := ⟨by decide +kernel, by decide +kernel⟩
  have hsingle : o.Swapped .singleColumn := ⟨rfl, ⟨by decide, by decide⟩, by decide, by decide⟩
  have hdual : o.Swapped .dualColumn := ⟨rfl, rfl, rfl, rfl⟩
  refine ⟨(swap_input_output_iff isprint hsingle hplain (fun _ _ => rfl) 0).mpr fun s _ => .inr ⟨rfl, rfl⟩, ?_⟩
  intro hread
  rcases (swap_input_output_iff isprint hdual hplain (fun _ _ => rfl) 0).mp hread 0 (by decide) with hname | hfmt
  · exact absurd hname (by decide)
  · exact absurd hfmt.1 (by decide)

/-- A second edit in the dual-column format is not accepted. -/
theorem swap_input_output_dual :
    let isprint : UInt8 → Bool := fun c => 32 ≤ c && c < 127
    let o : FormatOptions := { dualColumn := { swap := true } }
    let h := Heap.empty.newFileSpec ⟨[97], [98], none, none, .unchecked⟩
    let specs : EditSpecs := ⟨h.oldName, fun s => some (h.newName s), h.status⟩
    ¬ ∃ text realWidth', EditFormat.dualColumn.output isprint o h [0] 0 = some (text, realWidth') ∧
      ∃ specs', EditFormat.dualColumn.input o realWidth' [0] (textLines text) specs = .returned true specs' ∧
        specs'.oldName = specs.oldName ∧ ∀ s ∈ [0], specs'.newName s = some (h.newName s) := by
  rintro isprint o h specs ⟨text, realWidth', hout, specs', hin, _⟩
  have hrun : (EditFormat.dualColumn.output isprint o h [0] 0).map (fun p =>
      (readRecords (DualColumn.record o.dualColumn p.2) h.oldName [0] ⟨[], textLines p.1⟩).2.result
        DualColumn.finish) = some (some false) := by decide +kernel
  rw [hout, Option.map_some, Option.some.injEq] at hrun
  rw [EditFormat.input, DualColumn.input, inputLoop_eq, hrun] at hin
  cases hin

end Renameutils
