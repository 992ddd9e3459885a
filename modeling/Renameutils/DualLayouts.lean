import Renameutils.DualRoundTrip
import Mathlib.Data.List.DropRight

/-!
# Layouts of the dual-column format

With `autowidth` off, `output` writes long old names on lines of their own, and `input` tells from the line after
the old name which layout a record has (`inputLayouts_prefix`). But where it has two lines, the blanks at the end
of the old name are stripped after the name has been dequoted, those that were protected as well. What was
written is read back if and only if the names that end with a blank are all on one line
(`fixedWidth_input_output_iff`).
-/

namespace Renameutils
open CString

namespace DualColumn

/-- The layouts of the records that `input` reads, up to the first one that is not accepted. -/
def inputLayouts (o : Options) (realWidth : Nat) (oldName : SpecId → CString) : List SpecId → Input → List Layout
  | [], _ => []
  | spec :: rest, i =>
    (inputLayout o realWidth (!rest.isEmpty) i).toList ++
      match (record o realWidth (oldName spec) (!rest.isEmpty) i).verdict with
      | .accepted i => inputLayouts o realWidth oldName rest i
      | _ => []

/-- The layouts of the records that `output` writes. -/
def outputLayouts (o : Options) (realWidth : Nat) (names : List (CString × CString)) : List Layout :=
  names.map fun n => outputLayout o realWidth n.1

/-- The last character is a blank. -/
def BlankLast (name : CString) : Prop := ∃ x ∈ name.getLast?, isBlank x = true

instance (name : CString) : Decidable (BlankLast name) :=
  decidable_of_iff ((name.getLast?.any isBlank) = true) (by simp [BlankLast, Option.any_eq_true])

/-- An old name that `quote_first_last` can protect. -/
structure QuotableName (name : CString) : Prop where
  nul : 0 ∉ name
  ne_nil : name ≠ []
  backslash : name.getLast? ≠ some CString.backslash
  space : name ≠ [CString.space]

instance (name : CString) : Decidable (QuotableName name) :=
  decidable_of_iff (0 ∉ name ∧ name ≠ [] ∧ name.getLast? ≠ some backslash ∧ name ≠ [space])
    ⟨fun ⟨h₁, h₂, h₃, h₄⟩ => ⟨h₁, h₂, h₃, h₄⟩, fun h => ⟨h.nul, h.ne_nil, h.backslash, h.space⟩⟩

theorem stringStripTrailing_eq_self_iff {name : CString} :
    name.stringStripTrailing [space, tab] = name ↔ ¬ BlankLast name := by
  have hstrip : name.stringStripTrailing [space, tab] = name.rdropWhile ([space, tab].contains ·) := rfl
  rw [hstrip, List.rdropWhile_eq_self_iff]
  obtain rfl | ⟨a, c, rfl⟩ := List.eq_nil_or_concat name
  · simp [BlankLast]
  · simp [BlankLast, isBlank]

section
variable {isprint : UInt8 → Bool} {o : Options} {h : Heap} {files : List SpecId} {oldName f g q : CString}
  {i : Input} {hasNext : Bool} {rest : List UInt8} {names : List (CString × CString)} {width realWidth : Nat}

theorem QuotableName.kept (n : QuotableName oldName) (hw : width ≠ 0) : OldNameKept o.tabsize width oldName := by
  rw [OldNameKept, if_neg hw]
  exact ⟨n.backslash, fun h => n.space h.1⟩

theorem QuotableName.dequote (hp : PrintsAscii isprint) (n : QuotableName oldName)
    (hf : quoteFirstLast o width (quoteOutputFile isprint oldName) = some f) : dequoteOutputFile f = some oldName := by
  by_cases hw : width = 0
  · rw [quoteFirstLast, if_pos hw] at hf
    obtain rfl := Option.some.inj hf
    exact dequoteOutputFile_quote isprint n.nul
  · exact (encodes_quoteFirstLast hp n.nul n.ne_nil hw (fun h => n.space h.1) hf).dequote n.nul

theorem prepare_fixed (hauto : o.autowidth = false)
    (hprep : prepare isprint o h files width = some (names, realWidth)) : realWidth = width := by
  induction files generalizing names with
  | nil => rw [prepare] at hprep; cases hprep; rfl
  | cons s files ih =>
    obtain ⟨f, names', _, rfl, hrest⟩ := prepare_cons hprep
    rw [hauto, if_neg (by decide)] at hrest
    exact ih hrest

/-! ### The first line of a record -/

theorem blankTo_of_take (hblank : ∀ y ∈ q.take width, isBlank y = true) (hlen : width ≤ q.length) {d : Nat}
    (hd : d ≤ width) : blankTo q d = true := by
  rw [blankTo, decide_eq_true_eq, ← List.take_append_drop width q, List.takeWhile_append_of_pos hblank,
    List.length_append, List.length_take]
  omega

theorem tabIndex_le (htab : tab ∉ q) : tabIndex q width o.tabsize ≤ width := by
  rw [tabIndex_of_notMem htab]
  split <;> omega

theorem exists_nonblank (hp : PrintsAscii isprint) (hname : 0 ∉ oldName) (hne : oldName ≠ []) (hw : width ≠ 0)
    (hf : quoteFirstLast o width (quoteOutputFile isprint oldName) = some f) (hlen : width ≤ f.length) :
    ∃ y ∈ f.take width, isBlank y = false := by
  by_contra hno
  have hblank : ∀ y ∈ f.take width, isBlank y = true := fun y hy => by
    by_contra h
    exact hno ⟨y, hy, by simpa using h⟩
  obtain ⟨p, l, hq⟩ := (List.eq_nil_or_concat _).resolve_left (quoteOutputFile_ne_nil isprint hname hne)
  rw [List.concat_eq_append] at hq
  have htab : tab ∉ p ++ [l] := hq ▸ hp.tab_notMem_quote oldName
  rw [hq, quoteFirstLast_eq hw] at hf
  obtain rfl := Option.some.inj hf
  by_cases hlead : blankTo (p ++ [l]) (tabIndex (p ++ [l]) width o.tabsize) = true
  · rw [leadingBackslash, if_pos hlead] at hblank
    obtain ⟨w, rfl⟩ := Nat.exists_eq_succ_of_ne_zero hw
    exact absurd (hblank backslash (by simp)) (by decide)
  · rw [leadingBackslash, if_neg hlead, List.nil_append] at hblank hlen
    by_cases hl : l = space
    · rw [if_pos hl] at hblank
      have hle : width ≤ p.length := by
        by_contra hlt
        obtain ⟨k, rfl⟩ := Nat.exists_eq_add_of_lt (not_le.mp hlt)
        rw [Nat.add_assoc, List.take_length_add_append] at hblank
        exact absurd (hblank backslash (by simp)) (by decide)
      have htake : (p ++ [l]).take width = p.take width := List.take_append_of_le_length hle
      rw [List.take_append_of_le_length hle, ← htake] at hblank
      exact hlead (blankTo_of_take hblank (by rw [List.length_append]; omega) (tabIndex_le htab))
    · rw [if_neg hl] at hblank hlen
      exact hlead (blankTo_of_take hblank hlen (tabIndex_le htab))

theorem nextLine_fixed (hp : PrintsAscii isprint) (hind₁ : o.indicator1 = []) (hind₂ : o.indicator2 = [])
    (hold : ∀ s ∈ files, QuotableName (h.oldName s)) (hw : width ≠ 0)
    (hprep : prepare isprint o h files width = some (names, width)) :
    NextLine o width (!files.isEmpty) (outputNames o width names) := by
  cases files with
  | nil => rw [prepare] at hprep; cases hprep; rfl
  | cons s files =>
    obtain ⟨f, names', hf, rfl, _⟩ := prepare_cons hprep
    have n := hold s List.mem_cons_self
    have p := prepared hp n.nul n.ne_nil hf
    have hg : OneLine (quoteOutputFile isprint (h.newName s)) := .quote hp.control _
    rw [outputNames]
    by_cases hlen : f.length < width
    · exact p.nextLine hind₁ hind₂ hw hlen hg
    rw [not_lt] at hlen
    obtain ⟨y, hy, hblank⟩ := exists_nonblank hp n.nul n.ne_nil hw hf hlen
    have htext : outputRecord o width (!names'.isEmpty) f (quoteOutputFile isprint (h.newName s)) = f ++ newline ::
        (tabTo 0 width (if o.useSpaces then 0 else o.tabsize) ++
          (quoteOutputFile isprint (h.newName s) ++ newline :: separator o.separate (!names'.isEmpty))) := by
      simp [outputRecord, hind₁, hind₂, hlen]
    refine .inr ⟨_, _, by rw [htext, List.append_assoc, List.cons_append, p.line.textLines], ?_⟩
    have htab : tab ∉ f ++ [newline] := fun hm => (List.mem_append.mp hm).elim p.tab (by decide)
    have hd : tabIndex (f ++ [newline]) width o.tabsize = width := by
      rw [tabIndex_of_notMem htab, List.length_append]
      split <;> omega
    rw [lineString_newline p.line.nul, hd, ← List.take_append_drop width f, List.append_assoc]
    exact blankTo_of_mem hy hblank (List.length_take_le ..) _

/-! ### The records of a text -/

/-- The old name comes back from the layout that `output` gives it: on one line, or without a blank at its end. -/
def KeptByLayout (isprint : UInt8 → Bool) (o : Options) (name : CString) : Prop :=
  BlankLast name → ∀ f ∈ quoteFirstLast o o.width (quoteOutputFile isprint name), f.length < o.width

theorem record_fixed (hp : PrintsAscii isprint) (hind₁ : o.indicator1 = []) (hind₂ : o.indicator2 = [])
    (hswap : o.swap = false) (n : QuotableName oldName)
    (hf : quoteFirstLast o o.width (quoteOutputFile isprint oldName) = some f) (hg : OneLine g) (hgne : g ≠ [])
    (hnext : o.width ≠ 0 → NextLine o o.width hasNext rest)
    (hi : i.lines = textLines (outputRecord o o.width hasNext f g ++ rest)) :
    inputLayout o o.width hasNext i = some (outputLayout o o.width f) ∧
    (KeptByLayout isprint o oldName → ∃ i', i'.lines = textLines rest ∧
      record o o.width oldName hasNext i = ⟨some (dequoteOutputFile g), .accepted i'⟩) ∧
    (¬ KeptByLayout isprint o oldName → record o o.width oldName hasNext i = .rejected) := by
  have p := prepared hp n.nul n.ne_nil hf
  have hkept : KeptByLayout isprint o oldName ↔ BlankLast oldName → f.length < o.width := by
    rw [KeptByLayout, hf]
    simp
  rw [hkept, outputLayout, hind₁, List.length_nil, Nat.add_zero]
  by_cases hlen : f.length < o.width
  · have hw : o.width ≠ 0 := by omega
    obtain ⟨hlayout, hback, _⟩ := p.record hind₁ hind₂ hswap hlen hg hgne (hnext hw) hi
    rw [if_neg (not_le.mpr hlen)]
    exact ⟨hlayout, fun _ => hback (n.kept hw), fun h => absurd (fun _ => hlen) h⟩
  · rw [not_lt] at hlen
    obtain ⟨hlayout, i₁, hi₁, hrec⟩ := record_dual (hind₁ ▸ .nil) (hind₂ ▸ .nil) p.line (by simpa [hind₁] using hlen)
      hg hi (n.dequote hp hf) oldName
    rw [if_pos hlen]
    refine ⟨hlayout, fun hk => ?_, fun hk => ?_⟩
    · have hstrip := stringStripTrailing_eq_self_iff.mpr fun hb => not_le.mpr (hk hb) hlen
      obtain ⟨i', hcheck, hi'⟩ := checkSeparator_accepted (some (dequoteOutputFile g)) hi₁
      refine ⟨i', hi', ?_⟩
      rw [hrec, hstrip, ← hcheck]
      simp [assign, hswap]
    · have hb : BlankLast oldName := by
        by_contra hb
        exact hk fun h => absurd h hb
      have hstrip : oldName ≠ oldName.stringStripTrailing [space, tab] := fun h =>
        stringStripTrailing_eq_self_iff.mp h.symm hb
      have hassign : assign o oldName (some (oldName.stringStripTrailing [space, tab])) (dequoteOutputFile g) i₁ =
          .rejected := by simp [assign, hswap, hstrip]
      rw [hrec, hassign]
      exact checkSeparator_of_not_accepted (by simp [Record.rejected])

theorem readRecords_fixed (hp : PrintsAscii isprint) (hind₁ : o.indicator1 = []) (hind₂ : o.indicator2 = [])
    (hswap : o.swap = false) (hauto : o.autowidth = false) (hold : ∀ s ∈ files, QuotableName (h.oldName s))
    (hnew : ∀ s ∈ files, 0 ∉ h.newName s ∧ h.newName s ≠ [])
    (hprep : prepare isprint o h files o.width = some (names, o.width))
    (hi : i.lines = textLines (outputNames o o.width names)) :
    inputLayouts o o.width h.oldName files i <+: outputLayouts o o.width names ∧
    ((∀ s ∈ files, KeptByLayout isprint o (h.oldName s)) → (∃ i', i'.lines = [] ∧
      readRecords (record o o.width) h.oldName files i =
        (files.flatMap fun s => (some (some (h.newName s))).toList.map (s, ·), .accepted i')) ∧
      inputLayouts o o.width h.oldName files i = outputLayouts o o.width names) ∧
    ((¬ ∀ s ∈ files, KeptByLayout isprint o (h.oldName s)) → ∀ i',
      (readRecords (record o o.width) h.oldName files i).2 ≠ .accepted i') := by
  induction files generalizing names i with
  | nil =>
    rw [prepare] at hprep
    cases hprep
    exact ⟨List.nil_prefix, fun _ => ⟨⟨i, hi, rfl⟩, rfl⟩, fun h => absurd (by simp) h⟩
  | cons s files ih =>
    obtain ⟨f, names', hf, rfl, hrest⟩ := prepare_cons hprep
    rw [hauto, if_neg (by decide)] at hrest
    obtain ⟨hnz, hne⟩ := hnew s List.mem_cons_self
    have hold' := fun s hs => hold s (List.mem_cons_of_mem _ hs)
    have hnext := fun hw => nextLine_fixed hp hind₁ hind₂ hold' hw hrest
    rw [outputNames, prepare_isEmpty hrest] at hi
    obtain ⟨hlayout, hkept, hlost⟩ := record_fixed hp hind₁ hind₂ hswap (hold s List.mem_cons_self) hf
      (.quote hp.control (h.newName s)) (quoteOutputFile_ne_nil isprint hnz hne) hnext hi
    rw [List.forall_mem_cons, readRecords, inputLayouts, outputLayouts, List.map_cons, hlayout, Option.toList_some,
      List.singleton_append]
    by_cases hs : KeptByLayout isprint o (h.oldName s)
    · obtain ⟨i', hi', hrec⟩ := hkept hs
      obtain ⟨ih₁, ih₂, ih₃⟩ := ih hold' (fun s hs => hnew s (List.mem_cons_of_mem _ hs)) hrest hi'
      simp only [hrec, hs, true_and, dequoteOutputFile_quote isprint hnz]
      refine ⟨(List.cons_prefix_cons.mpr ⟨rfl, ih₁⟩), fun hk => ?_, ih₃⟩
      obtain ⟨⟨i'', hi'', hread⟩, hsame⟩ := ih₂ hk
      exact ⟨⟨i'', hi'', by rw [hread, List.flatMap_cons]⟩, congrArg _ hsame⟩
    · rw [hlost hs]
      refine ⟨List.cons_prefix_cons.mpr ⟨rfl, List.nil_prefix⟩, fun hk => absurd hk.1 hs, fun _ i' => ?_⟩
      simp [Record.rejected]

end

/-- `input` takes each record for the layout that `output` gave it, as far as it reads. -/
theorem inputLayouts_prefix {isprint : UInt8 → Bool} (hp : PrintsAscii isprint) {o : Options}
    (hind₁ : o.indicator1 = []) (hind₂ : o.indicator2 = []) (hswap : o.swap = false) (hauto : o.autowidth = false)
    {h : Heap} {files : List SpecId} (hold : ∀ s ∈ files, QuotableName (h.oldName s))
    (hnew : ∀ s ∈ files, 0 ∉ h.newName s ∧ h.newName s ≠ []) {names : List (CString × CString)} {realWidth : Nat}
    (hprep : prepare isprint o h files o.width = some (names, realWidth)) :
    inputLayouts o realWidth h.oldName files ⟨[], textLines (outputNames o realWidth names)⟩ <+:
      outputLayouts o realWidth names := by
  obtain rfl := prepare_fixed hauto hprep
  exact (readRecords_fixed hp hind₁ hind₂ hswap hauto hold hnew hprep rfl).1

end DualColumn

/-- Without `autowidth`, what `output` of the dual-column format writes is read back as it was, each record in its
layout, if and only if no old name that ends with a blank is on a line of its own. -/
theorem fixedWidth_input_output_iff {isprint : UInt8 → Bool} (hp : PrintsAscii isprint) {o : DualColumn.Options}
    (hind₁ : o.indicator1 = []) (hind₂ : o.indicator2 = []) (hswap : o.swap = false) (hauto : o.autowidth = false)
    {h : Heap} {files : List SpecId} (hold : ∀ s ∈ files, DualColumn.QuotableName (h.oldName s))
    (hnew : ∀ s ∈ files, 0 ∉ h.newName s ∧ h.newName s ≠ []) :
    (∃ names realWidth text, DualColumn.prepare isprint o h files o.width = some (names, realWidth) ∧
      DualColumn.output isprint o h files = some (text, realWidth) ∧
      DualColumn.inputLayouts o realWidth h.oldName files ⟨[], textLines text⟩ =
        DualColumn.outputLayouts o realWidth names ∧
      DualColumn.input o realWidth files (textLines text) ⟨h.oldName, fun s => some (h.newName s), h.status⟩ =
        .returned true ⟨h.oldName, fun s => some (h.newName s), h.status⟩) ↔
    ∀ s ∈ files, DualColumn.KeptByLayout isprint o (h.oldName s) := by
  obtain ⟨names, realWidth, hprep⟩ := DualColumn.prepare_isSome isprint o
    (fun s hs => ⟨(hold s hs).nul, (hold s hs).ne_nil⟩) o.width
  obtain rfl := DualColumn.prepare_fixed hauto hprep
  have hout := DualColumn.output_of_prepare hprep
  obtain ⟨_, hkept, hlost⟩ := DualColumn.readRecords_fixed hp hind₁ hind₂ hswap hauto hold hnew hprep
    (i := ⟨[], textLines (DualColumn.outputNames o o.width names)⟩) rfl
  constructor
  · rintro ⟨_, w, text, _, hout', _, hin⟩
    rw [hout] at hout'
    obtain ⟨rfl, rfl⟩ := Prod.mk.inj (Option.some.inj hout')
    by_contra hk
    exact DualColumn.input_ne_accepted (hlost hk) hin
  · intro hk
    obtain ⟨⟨i', hi', hread⟩, hlayouts⟩ := hkept hk
    exact ⟨names, _, _, hprep, hout, hlayouts, DualColumn.input_of_accepted hread hi'⟩

/-- A short name that ends with a blank before a long one that starts with blanks. -/
theorem fixedWidth_input_output_mixed :
    let isprint : UInt8 → Bool := fun c => 32 ≤ c && c < 127
    let o : DualColumn.Options := { width := 6, autowidth := false }
    let h := (Heap.empty.newFileSpec ⟨[97, 32], [97], none, none, .unchecked⟩).newFileSpec
      ⟨[32, 32, 32, 32, 32, 32, 32, 97], [98], none, none, .unchecked⟩
    (∃ names realWidth text, DualColumn.prepare isprint o h [0, 1] o.width = some (names, realWidth) ∧
      DualColumn.output isprint o h [0, 1] = some (text, realWidth) ∧
      DualColumn.inputLayouts o realWidth h.oldName [0, 1] ⟨[], textLines text⟩ =
        DualColumn.outputLayouts o realWidth names ∧
      DualColumn.input o realWidth [0, 1] (textLines text) ⟨h.oldName, fun s => some (h.newName s), h.status⟩ =
        .returned true ⟨h.oldName, fun s => some (h.newName s), h.status⟩) ↔
    ∀ s ∈ [0, 1], DualColumn.KeptByLayout isprint o (h.oldName s) := by
  intro isprint o h
  exact fixedWidth_input_output_iff printsAscii rfl rfl rfl rfl (h := h) (by decide) (by decide)

/-- A long name that ends with a space. -/
theorem fixedWidth_input_output_space :
    let isprint : UInt8 → Bool := fun c => 32 ≤ c && c < 127
    let o : DualColumn.Options := { width := 4, autowidth := false }
    let h := Heap.empty.newFileSpec ⟨[97, 98, 99, 100, 32], [97, 98, 99, 100, 32], none, none, .unchecked⟩
    DualColumn.QuotableName (h.oldName 0) ∧
    ¬ ∃ names realWidth text, DualColumn.prepare isprint o h [0] o.width = some (names, realWidth) ∧
      DualColumn.output isprint o h [0] = some (text, realWidth) ∧
      DualColumn.inputLayouts o realWidth h.oldName [0] ⟨[], textLines text⟩ =
        DualColumn.outputLayouts o realWidth names ∧
      DualColumn.input o realWidth [0] (textLines text) ⟨h.oldName, fun s => some (h.newName s), h.status⟩ =
        .returned true ⟨h.oldName, fun s => some (h.newName s), h.status⟩ := by
  intro isprint o h
  refine ⟨by decide, ?_⟩
  rintro ⟨_, realWidth, text, _, hout, _, hin⟩
  have hrun : (DualColumn.output isprint o h [0]).map (fun p =>
      (readRecords (DualColumn.record o p.2) h.oldName [0] ⟨[], textLines p.1⟩).2.result DualColumn.finish) =
      some (some false) := by decide +kernel
  rw [hout, Option.map_some, Option.some.injEq] at hrun
  rw [DualColumn.input, inputLoop_eq, hrun] at hin
  cases hin

end Renameutils
