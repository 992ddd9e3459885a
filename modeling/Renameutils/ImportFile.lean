import Renameutils.EditText
import Renameutils.SessionInv

/-!
# New lists, and importing them (`import_command`, `list.c`)

`loadFiles_names` says which names a new list has. `import_command` removes the last byte of each line, so
that it keeps the last line of a text whole when the text ends in a newline (`importCommand_whole_iff`).
-/

namespace Renameutils
open CString

/-! ### The names of a new list -/

/-- The name is `"."` or `".."`. -/
def isDots (name : CString) : Bool := name = [46] || name = [46, 46]

theorem isDots_iff {name : CString} : isDots name = true ↔ name = [46] ∨ name = [46, 46] := by
  simp [isDots]

/-- The paths of the entries that are files. -/
def listedNames (entries : List (CString × CString)) : List CString :=
  (entries.filter fun entry => !isDots entry.2).map fun entry => entry.1 ++ entry.2

theorem filter_put (seen : Table CString SpecId) (n : CString) (spec : SpecId) (names : List CString) :
    names.filter (fun m => !(seen.put n spec).contains m) =
      (names.filter fun m => !seen.contains m).filter fun m => !(m == n) := by
  rw [List.filter_filter]
  refine List.filter_congr fun m _ => ?_
  rw [Table.contains, Table.contains, Table.put_apply]
  by_cases h : m = n <;> simp [h]

theorem loadFiles_names (entries : List (CString × CString)) (seen : Table CString SpecId) (h : Heap) :
    (loadFiles entries seen h).2.map (loadFiles entries seen h).1.oldName =
      ((listedNames entries).filter fun n => !seen.contains n).eraseDups := by
  induction entries generalizing seen h with
  | nil => rfl
  | cons entry rest ih =>
    obtain ⟨dir, name⟩ := entry
    rw [loadFiles]
    by_cases hdots : name = [46] ∨ name = [46, 46]
    · have hlisted : listedNames ((dir, name) :: rest) = listedNames rest := by
        rw [listedNames, List.filter_cons_of_neg (by simp [isDots_iff.mpr hdots])]
        rfl
      rw [if_pos hdots, ih, hlisted]
    · have hlisted : listedNames ((dir, name) :: rest) = (dir ++ name) :: listedNames rest := by
        rw [listedNames, List.filter_cons_of_pos (by simp [Bool.eq_false_iff.mpr (mt isDots_iff.mp hdots)])]
        rfl
      rw [if_neg hdots, hlisted]
      dsimp only
      by_cases hseen : seen.contains (dir ++ name) = true
      · rw [if_pos hseen, ih, List.filter_cons_of_neg (by simp [hseen])]
      · rw [if_neg hseen, List.filter_cons_of_pos (by simpa using hseen), List.eraseDups_cons, ← filter_put,
          ← ih, List.map_cons]
        have hload := loadFiles_loaded rest (seen.put (dir ++ name) h.fresh)
          (h.newFileSpec ⟨dir ++ name, dir ++ name, none, none, .unchecked⟩)
        have hspec := (hload.spec h.fresh (Nat.lt_succ_self _)).trans (spec_newFileSpec_self h _)
        exact congrArg (· :: _) (congrArg FileSpec.oldName hspec)

theorem loadFiles_listedNames (entries : List (CString × CString)) (h : Heap) :
    (loadFiles entries Table.empty h).2.map (loadFiles entries Table.empty h).1.oldName =
      (listedNames entries).eraseDups := by
  have hall : (listedNames entries).filter (fun n => !(Table.empty : Table CString SpecId).contains n) =
      listedNames entries := List.filter_eq_self.mpr fun _ _ => rfl
  rw [loadFiles_names, hall]

/-- What a command makes of the list `names`. -/
structure NewList {φ : Type} (names : List CString) (s : Session φ) : Prop where
  oldNames : s.workFiles.map s.heap.oldName = names.eraseDups
  unchanged : ∀ t ∈ s.workFiles, s.heap.newName t = s.heap.oldName t ∧ s.heap.status t = .unchecked

/-! ### `import_command` -/

/-- The line in the buffer of `getline` after `buf[rc-1] = '\0'`. -/
def importedName (buf : List UInt8) : CString := lineString (buf.set (buf.length - 1) 0)

/-- The names that the loop of `import_command` reads, and `ferror` after it. -/
def importedNames : TextFile → List CString × Bool
  | .line buf :: file =>
    if buf = [] then ([], false)
    else
      let (names, ferror) := importedNames file
      (importedName buf :: names, ferror)
  | .error :: _ => ([], true)
  | .eof :: _ | [] => ([], false)

/-- The lines of a text that end in a newline, without it. -/
def wholeLines (text : List UInt8) : List CString := (text.splitOn newline).dropLast

/-- What a text has after its last newline. -/
def openLine (text : List UInt8) : CString := (text.splitOn newline).getLastD []

/-- The lines of a text. -/
def fileLines (text : List UInt8) : List CString :=
  wholeLines text ++ if openLine text = [] then [] else [openLine text]

/-- `import_command` makes `work_files` the list of the lines of the text. -/
def ImportsLines {φ : Type} (text : List UInt8) (s : Session φ) : Prop :=
  NewList ((fileLines text).filter (!isDots ·)) (s.importCommand (some (importedNames (textLines text))))

section
variable {φ : Type} {text : List UInt8}

theorem splitOn_cons_line {l : List UInt8} (hl : newline ∉ l) (text : List UInt8) :
    wholeLines (l ++ newline :: text) = l :: wholeLines text ∧ openLine (l ++ newline :: text) = openLine text := by
  have hne := List.splitOn_ne_nil newline text
  rw [wholeLines, openLine, List.splitOn_append_cons_self_of_not_mem hl, List.dropLast_cons_of_ne_nil hne]
  refine ⟨rfl, ?_⟩
  rw [openLine]
  obtain ⟨a, as, h⟩ := List.exists_cons_of_ne_nil hne
  rw [h, List.getLastD_cons, List.getLastD_cons, List.getLastD_cons]

theorem textLines_of_notMem {l : List UInt8} (hl : newline ∉ l) :
    textLines l = if l = [] then [] else [.line l] := by
  have := linesAfter_append hl [] []
  rw [List.append_nil, List.nil_append] at this
  rw [textLines, this, linesAfter]

theorem lines_induction {P : List UInt8 → Prop} (last : ∀ l, newline ∉ l → P l)
    (line : ∀ l text, newline ∉ l → P text → P (l ++ newline :: text)) (text : List UInt8) : P text := by
  induction hn : text.length using Nat.strong_induction_on generalizing text with
  | _ n ih =>
    by_cases hmem : newline ∈ text
    · obtain ⟨l, rest, rfl, hl⟩ := List.eq_append_cons_of_mem hmem
      exact line l rest hl (ih rest.length (by simp at hn; omega) rest rfl)
    · exact last text hmem

theorem splitOn_last {l : List UInt8} (hl : newline ∉ l) : wholeLines l = [] ∧ openLine l = l := by
  rw [wholeLines, openLine, List.splitOn_eq_singleton hl]
  exact ⟨rfl, rfl⟩

theorem lines_text (text : List UInt8) : (wholeLines text).flatMap (· ++ [newline]) ++ openLine text = text := by
  induction text using lines_induction with
  | last l hl => rw [(splitOn_last hl).1, (splitOn_last hl).2, List.flatMap_nil, List.nil_append]
  | line l text hl ih =>
    obtain ⟨hwhole, hopen⟩ := splitOn_cons_line hl text
    rw [hwhole, hopen, List.flatMap_cons, List.append_assoc, ih, List.append_assoc]
    rfl

theorem textLines_eq (text : List UInt8) : textLines text =
    (wholeLines text).map (fun l => .line (l ++ [newline])) ++
      if openLine text = [] then [] else [.line (openLine text)] := by
  induction text using lines_induction with
  | last l hl => rw [textLines_of_notMem hl, (splitOn_last hl).1, (splitOn_last hl).2, List.map_nil, List.nil_append]
  | line l text hl ih =>
    obtain ⟨hwhole, hopen⟩ := splitOn_cons_line hl text
    rw [textLines_line hl, hwhole, hopen, ih]
    rfl

theorem notMem_wholeLines (htext : 0 ∉ text) : (∀ l ∈ wholeLines text, 0 ∉ l) ∧ 0 ∉ openLine text := by
  rw [← lines_text text, List.mem_append, not_or] at htext
  exact ⟨fun l hl h => htext.1 (List.mem_flatMap.mpr ⟨l, hl, List.mem_append_left _ h⟩), htext.2⟩

theorem importedName_eq {buf : List UInt8} (hne : buf ≠ []) (hbuf : 0 ∉ buf) : importedName buf = buf.dropLast := by
  obtain ⟨l, c, rfl⟩ : ∃ l c, buf = l ++ [c] := ⟨_, _, (List.dropLast_append_getLast hne).symm⟩
  have hl : 0 ∉ l := fun h => hbuf (by simp [h])
  rw [importedName, List.length_append, List.length_singleton, Nat.add_sub_cancel,
    List.set_append_right _ _ (Nat.le_refl _), Nat.sub_self, List.set_cons_zero, lineString_append_zero hl,
    List.dropLast_concat]

theorem importedNames_lines (bufs : List (List UInt8)) (hbufs : ∀ buf ∈ bufs, buf ≠ []) :
    importedNames (bufs.map .line) = (bufs.map importedName, false) := by
  induction bufs with
  | nil => rfl
  | cons buf bufs ih =>
    rw [List.map_cons, importedNames, if_neg (hbufs buf List.mem_cons_self),
      ih fun b hb => hbufs b (List.mem_cons_of_mem _ hb)]
    rfl

/-- What the loop reads: the last line, if it has no newline, loses its last byte. -/
theorem importedNames_textLines (htext : 0 ∉ text) : importedNames (textLines text) =
    (wholeLines text ++ (if openLine text = [] then [] else [(openLine text).dropLast]), false) := by
  obtain ⟨hwhole, hopen⟩ := notMem_wholeLines htext
  have hlast : textLines text = ((wholeLines text).map (· ++ [newline]) ++
      if openLine text = [] then [] else [openLine text]).map .line := by
    rw [textLines_eq, List.map_append, List.map_map]
    split <;> rfl
  have hnames : (wholeLines text).map (importedName ∘ (· ++ [newline])) = wholeLines text := by
    refine (List.map_congr_left fun l hl => ?_).trans (List.map_id _)
    rw [Function.comp_apply, importedName_eq (by simp) (by simp [hwhole l hl, newline]), List.dropLast_concat]
    rfl
  rw [hlast, importedNames_lines, List.map_append, List.map_map, hnames]
  · by_cases h : openLine text = []
    · rw [if_pos h, if_pos h]
      rfl
    · rw [if_neg h, if_neg h, List.map_singleton, importedName_eq h hopen]
  · intro buf hbuf
    rcases List.mem_append.mp hbuf with hbuf | hbuf
    · obtain ⟨l, _, rfl⟩ := List.mem_map.mp hbuf
      simp
    · split at hbuf
      · cases hbuf
      · rename_i h
        rwa [List.mem_singleton.mp hbuf]

theorem listedNames_import (names : List CString) :
    listedNames (names.map ([], ·)) = names.filter (!isDots ·) := by
  rw [listedNames, List.filter_map, List.map_map]
  exact List.map_id _

theorem newList_importCommand (names : List CString) (s : Session φ) :
    NewList (names.filter (!isDots ·)) (s.importCommand (some (names, false))) := by
  have hload := loadFiles_loaded (names.map ([], ·)) Table.empty s.heap
  have only := linksOnly_freeFiles s.workFiles (loadFiles (names.map ([], ·)) Table.empty s.heap).1
  refine ⟨?_, fun t ht => ?_⟩
  · have hnames := loadFiles_listedNames (names.map ([], ·)) s.heap
    rw [listedNames_import] at hnames
    exact (congrArg (List.map · _) only.oldName).trans hnames
  · exact ⟨(congrFun only.newName t).trans ((hload.new t ht).1.trans (congrFun only.oldName t).symm),
      (congrFun only.status t).trans (hload.new t ht).2.2.2⟩

/-- The name is not listed after the lines of the text that end in a newline. -/
def Absorbed (text : List UInt8) (name : CString) : Prop := isDots name = true ∨ name ∈ wholeLines text

instance (text : List UInt8) (name : CString) : Decidable (Absorbed text name) :=
  inferInstanceAs (Decidable (_ ∨ _))

theorem eraseDups_wholeLines (text : List UInt8) (name : CString) :
    ((wholeLines text ++ [name]).filter (!isDots ·)).eraseDups =
      ((wholeLines text).filter (!isDots ·)).eraseDups ++ if Absorbed text name then [] else [name] := by
  rw [List.filter_append, List.eraseDups_append]
  congr 1
  by_cases hdots : isDots name = true
  · simp [Absorbed, hdots, List.removeAll]
  · have hmem : name ∈ (wholeLines text).filter (!isDots ·) ↔ name ∈ wholeLines text := by simp [hdots]
    by_cases hin : name ∈ wholeLines text
    · simp [Absorbed, hdots, List.removeAll, hin]
    · simp [Absorbed, hdots, List.removeAll, hin, List.eraseDups_cons]

end

/-- `import_command` keeps every name whole exactly when the text is empty or ends in a newline, or neither
the last line nor what is left of it is a new name. -/
theorem importCommand_whole_iff {φ : Type} (text : List UInt8) (htext : 0 ∉ text) (s : Session φ) :
    ImportsLines text s ↔
      openLine text = [] ∨ Absorbed text (openLine text) ∧ Absorbed text (openLine text).dropLast := by
  rw [ImportsLines, importedNames_textLines htext, fileLines]
  by_cases hopen : openLine text = []
  · rw [if_pos hopen, if_pos hopen]
    exact iff_of_true (newList_importCommand _ s) (.inl hopen)
  rw [if_neg hopen, if_neg hopen]
  have hread := newList_importCommand (wholeLines text ++ [(openLine text).dropLast]) s
  have hne : openLine text ≠ (openLine text).dropLast := fun h => by
    have := congrArg List.length h
    rw [List.length_dropLast] at this
    have := List.length_pos_iff.mpr hopen
    omega
  constructor
  · intro hlines
    have heq := hread.oldNames.symm.trans hlines.oldNames
    rw [eraseDups_wholeLines, eraseDups_wholeLines, List.append_cancel_left_eq] at heq
    refine .inr ⟨?_, ?_⟩
    · by_contra h
      rw [if_neg h] at heq
      split at heq
      · cases heq
      · exact hne (List.cons.inj heq).1.symm
    · by_contra h
      rw [if_neg h] at heq
      split at heq
      · cases heq
      · exact hne (List.cons.inj heq).1.symm
  · rintro (h | ⟨h₁, h₂⟩)
    · exact absurd h hopen
    · refine ⟨hread.oldNames.trans ?_, hread.unchanged⟩
      rw [eraseDups_wholeLines, eraseDups_wholeLines, if_pos h₁, if_pos h₂]

/-- Two lines, the second one with a newline. -/
theorem importCommand_whole_newline :
    ImportsLines [97, 10, 98, 10] ({ fs := Table.empty } : Session Unit) :=
  (importCommand_whole_iff [97, 10, 98, 10] (by decide) { fs := Table.empty }).mpr (.inl (by decide))

/-- The last name loses its last character when no newline follows. -/
theorem importCommand_cut : ¬ ∀ text (s : Session Unit), 0 ∉ text → ImportsLines text s := by
  intro h
  have hlines := (h [97, 98] { fs := Table.empty } (by decide)).oldNames
  exact absurd hlines (by decide)

end Renameutils
