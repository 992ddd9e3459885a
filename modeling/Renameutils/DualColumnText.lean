import Renameutils.EditRoundTrip

/-!
# The records of `dual-column.c` in a text

How `input` of `dual-column.c` reads the text that `output` writes for one record: a record on one line is
given to `process_single_line` (`record_single`), one on two lines to `process_dual_line` (`record_dual`).
`process_single_line` looks for the end of the first column from the start of the second
(`processSingleLine_eq`).
-/

namespace Renameutils
open CString

namespace DualColumn

/-! ### Lines that are read again -/

/-- The lines that are to be read. -/
def Input.lines (i : Input) : TextFile := i.unreadLines.map .line ++ i.file

section
variable {i : Input} {line : List UInt8} {file : TextFile}

theorem Input.readUnreadLine_cons (h : i.lines = .line line :: file) :
    ∃ i', i.readUnreadLine = (.line line, i') ∧ i'.lines = file := by
  obtain ⟨unread, rest⟩ := i
  cases unread with
  | nil =>
    obtain rfl : rest = .line line :: file := h
    exact ⟨_, rfl, rfl⟩
  | cons l unread =>
    simp only [lines, List.map_cons, List.cons_append, List.cons.injEq, ReadResult.line.injEq] at h
    obtain ⟨rfl, rfl⟩ := h
    exact ⟨_, rfl, rfl⟩

theorem Input.readUnreadLine_nil (h : i.lines = []) :
    ∃ i', i.readUnreadLine = (.eof, i') ∧ i'.lines = [] := by
  obtain ⟨unread, rest⟩ := i
  obtain ⟨h₁, h₂⟩ := List.append_eq_nil_iff.mp h
  obtain rfl := List.map_eq_nil_iff.mp h₁
  obtain rfl : rest = [] := h₂
  exact ⟨_, rfl, rfl⟩

theorem finish_of_lines (h : i.lines = []) : finish i = true := by
  obtain ⟨i', hi, _⟩ := i.readUnreadLine_nil h
  rw [finish, hi]
  rfl

end

/-! ### Blanks -/

section
variable {a b s e blanks : CString} {x : UInt8} {d k : Nat} {line : List UInt8}

theorem isBlank_tabTo {c pos tabsize : Nat} (hx : x ∈ tabTo c pos tabsize) : isBlank x = true := by
  rcases mem_tabTo hx with rfl | rfl <;> rfl

theorem blankTo_append (ha : ∀ x ∈ a, isBlank x = true) (b : CString) : blankTo (a ++ b) a.length = true := by
  rw [blankTo, List.takeWhile_append_of_pos ha]
  simp

theorem blankTo_of_mem (hx : x ∈ a) (hblank : isBlank x = false) (hd : a.length ≤ d) (b : CString) :
    blankTo (a ++ b) d = false := by
  obtain ⟨l, r, rfl⟩ := List.append_of_mem hx
  have hle : ((l ++ x :: (r ++ b)).takeWhile isBlank).length ≤ l.length := by
    rw [List.takeWhile_append]
    split
    · rw [List.takeWhile_cons_of_neg (by simp [hblank])]
      simp
    · exact (List.takeWhile_sublist _).length_le
  simp only [List.length_append, List.length_cons] at hd
  rw [blankTo, List.append_assoc, List.cons_append, decide_eq_false_iff_not]
  omega

theorem getD_append_cons (s : CString) (x : UInt8) (r : CString) : (s ++ x :: r).getD s.length 0 = x := by
  rw [List.getD_eq_getElem?_getD, List.getElem?_append_right le_rfl, Nat.sub_self]
  rfl

theorem set_append_cons (s : CString) (x y : UInt8) (r : CString) : (s ++ x :: r).set s.length y = s ++ y :: r := by
  rw [List.set_append_right _ _ le_rfl, Nat.sub_self]
  rfl

theorem charAt_append_cons (s : CString) (x : UInt8) (r : CString) : charAt (s ++ x :: r) s.length = some x := by
  have hlt : s.length < (s ++ x :: r).length := by simp
  rw [charAt, if_neg hlt.ne, List.getElem?_append_right le_rfl, Nat.sub_self]
  rfl

theorem stringAt_append (a : CString) (hb : 0 ∉ b) (r : CString) : stringAt (a ++ (b ++ 0 :: r)) a.length = some b := by
  rw [stringAt, if_pos (by simp), List.drop_left]
  exact congrArg some (lineString_append_zero hb r)

theorem lastNonBlank_skip (h : ∀ j < k, isBlank (line.getD (d + j) 0) = true) :
    lastNonBlank line (d + k) = lastNonBlank line d := by
  induction k with
  | zero => rfl
  | succ k ih =>
    rw [← Nat.add_assoc, lastNonBlank, if_pos (h k (by omega)), ih fun j hj => h j (by omega)]

theorem lastNonBlank_append (s : CString) (hb : ∀ x ∈ blanks, isBlank x = true) (r : CString) :
    lastNonBlank (s ++ (blanks ++ r)) (s.length + blanks.length) = lastNonBlank (s ++ (blanks ++ r)) s.length := by
  refine lastNonBlank_skip fun j hj => ?_
  rw [List.getD_eq_getElem?_getD, List.getElem?_append_right (by omega), Nat.add_sub_cancel_left,
    List.getElem?_append_left hj, List.getElem?_eq_getElem hj]
  exact hb _ (List.getElem_mem _)

theorem lastNonBlank_snoc (hx : isBlank x = false) (r : CString) :
    lastNonBlank (s ++ x :: r) (s.length + 1) = some s.length := by
  rw [lastNonBlank, getD_append_cons, if_neg (by simp [hx])]

end

/-! ### A record on one line -/

section
variable {o : Options} {realWidth : Nat} {oldName f g : CString} {i : Input} {hasNext : Bool}

/-- There is only an unquoted blank before the second column, so that the line is no record. -/
theorem processSingleLine_blank (hind₁ : o.indicator1 = []) {blanks : CString}
    (hblanks : ∀ x ∈ blanks, isBlank x = true) (hline : OneLine (blanks ++ g)) (hg : g ≠ [])
    (hd : tabIndex (blanks ++ g) realWidth o.tabsize = blanks.length) :
    processSingleLine o realWidth oldName (blanks ++ g ++ [newline]) i = .undefined := by
  obtain ⟨c, g, rfl⟩ := List.exists_cons_of_ne_nil hg
  have hc : c ≠ 0 := fun h => hline.nul (by simp [h])
  have hchar : charAt (blanks ++ c :: g ++ [0]) blanks.length = some c := by
    rw [List.append_assoc]
    exact charAt_append_cons blanks c (g ++ [0])
  have hlast : lastNonBlank (blanks ++ c :: g ++ [0]) blanks.length = none := by
    have h := lastNonBlank_append [] hblanks (c :: g ++ [0])
    simp only [List.nil_append, List.length_nil, Nat.zero_add] at h
    rw [List.append_assoc, h, lastNonBlank]
  rw [processSingleLine, hind₁, if_neg (by simp [CString.startsWith])]
  simp only [chompLine_newline hline.nul, lineString_append_zero hline.nul, hd, hchar, hlast]

/-- A `NUL` is written over the character after the first column. The second column is left if that is a blank. -/
theorem exists_cut (col blanks : CString) (hg : 0 ∉ g) : ∃ r g', (blanks ≠ [] → g' = g) ∧
    (col ++ (blanks ++ (g ++ [0]))).set col.length 0 = col ++ 0 :: r ∧
    stringAt (col ++ 0 :: r) (col.length + blanks.length) = some g' := by
  obtain ⟨y, r, hyr⟩ := List.exists_cons_of_ne_nil (show blanks ++ (g ++ [0]) ≠ [] by simp)
  rw [hyr, set_append_cons]
  cases blanks with
  | nil => exact ⟨r, [], fun h => absurd rfl h, rfl, stringAt_append col List.not_mem_nil r⟩
  | cons z blanks =>
    simp only [List.cons_append, List.cons.injEq] at hyr
    have hsplit : col ++ 0 :: r = (col ++ 0 :: blanks) ++ (g ++ 0 :: []) := by simp [← hyr.2]
    have hlen : col.length + (z :: blanks).length = (col ++ 0 :: blanks).length := by
      simp only [List.length_append, List.length_cons]
    exact ⟨r, g, fun _ => rfl, rfl, by rw [hsplit, hlen, stringAt_append _ hg]⟩

/-- The first column ends with the last character `b` that is not blank, or with the blank `e` after it if
`b` is a backslash. Where no other blank is left before the second column, that is cut off. -/
theorem processSingleLine_eq {s e blanks : CString} {b : UInt8} (hb : isBlank b = false)
    (hblanks : ∀ x ∈ e ++ blanks, isBlank x = true) (he : e.length = if b = backslash then 1 else 0)
    (hsep : e ++ blanks ≠ []) (hline : OneLine (o.indicator1 ++ s ++ b :: (e ++ (blanks ++ g)))) (hg : g ≠ [])
    (hd : tabIndex (o.indicator1 ++ s ++ b :: (e ++ (blanks ++ g))) realWidth o.tabsize =
      (o.indicator1 ++ s).length + 1 + e.length + blanks.length) :
    ∃ g', (blanks ≠ [] → g' = g) ∧
      processSingleLine o realWidth oldName (o.indicator1 ++ s ++ b :: (e ++ (blanks ++ g)) ++ [newline]) i =
        if CString.startsWith g' o.indicator2 then
          assign o oldName (dequoteOutputFile (s ++ b :: e)) (dequoteOutputFile (g'.drop o.indicator2.length)) i
        else .rejected := by
  obtain ⟨c, g, rfl⟩ := List.exists_cons_of_ne_nil hg
  have hc : c ≠ 0 := fun h => hline.nul (by simp [h])
  have hcol : 0 ∉ s ++ b :: e := fun h => hline.nul (by
    simp only [List.mem_append, List.mem_cons] at h ⊢; tauto)
  have hgz : 0 ∉ c :: g := fun h => hline.nul (by
    simp only [List.mem_append, List.mem_cons] at h ⊢; tauto)
  -- `s` with the indicator before it
  obtain ⟨t, ht⟩ : ∃ t, t = o.indicator1 ++ s := ⟨_, rfl⟩
  rw [← ht] at hline hd ⊢
  set d := t.length + 1 + e.length + blanks.length with hdef
  -- the line in its buffer
  set buf := t ++ b :: (e ++ (blanks ++ c :: g)) ++ [0] with hbuf
  have hchar : charAt buf d = some c := by
    have hsplit : buf = (t ++ b :: e ++ blanks) ++ c :: (g ++ [0]) := by simp [hbuf]
    have hlen : d = (t ++ b :: e ++ blanks).length := by simp only [hdef, List.length_append, List.length_cons]; omega
    rw [hsplit, hlen, charAt_append_cons]
  have hlast : lastNonBlank buf d = some t.length := by
    have hsplit : buf = (t ++ [b]) ++ ((e ++ blanks) ++ (c :: g ++ [0])) := by simp [hbuf]
    have hlen : d = (t ++ [b]).length + (e ++ blanks).length := by simp [hdef]; omega
    rw [hlen, hsplit, lastNonBlank_append _ hblanks, List.append_assoc, List.length_append]
    exact lastNonBlank_snoc hb _
  have hget : buf.getD t.length 0 = b := by
    rw [hbuf, List.append_assoc, List.cons_append, getD_append_cons]
  have hend : (if buf.getD t.length 0 = backslash then t.length + 1 else t.length) = t.length + e.length := by
    rw [hget, he]; split <;> rfl
  have hlt : t.length + 1 ≠ d := by
    have := List.length_pos_iff.mpr hsep
    rw [List.length_append] at this
    omega
  obtain ⟨r, g', hg', hcut, hrest⟩ := exists_cut (t ++ b :: e) blanks hgz
  have hcollen : t.length + e.length + 1 = (t ++ b :: e).length := by
    rw [List.length_append, List.length_cons]; omega
  have hset : buf.set (t.length + e.length + 1) 0 = (t ++ b :: e) ++ 0 :: r := by
    rw [hcollen, ← hcut, hbuf]
    simp
  have hstart : stringAt ((t ++ b :: e) ++ 0 :: r) o.indicator1.length = some (s ++ b :: e) := by
    rw [ht, List.append_assoc o.indicator1, List.append_assoc o.indicator1]
    exact stringAt_append o.indicator1 hcol r
  rw [← hcollen, show t.length + e.length + 1 + blanks.length = d by omega] at hrest
  have hstr : lineString buf = t ++ b :: (e ++ (blanks ++ c :: g)) := lineString_append_zero hline.nul []
  have hprefix : CString.startsWith (lineString (t ++ b :: (e ++ (blanks ++ c :: g)) ++ [newline]))
      o.indicator1 = true := by
    rw [lineString_newline hline.nul, ht, List.append_assoc, List.append_assoc]
    exact startsWith_append ..
  refine ⟨g', hg', ?_⟩
  rw [processSingleLine, hprefix, if_neg (by decide)]
  simp only [chompLine_newline hline.nul, ← hbuf, hstr, hd, hchar, hlast, hlt, if_false, hend, hset, hstart, hrest,
    Option.bind_some]
  cases CString.startsWith g' o.indicator2 <;> rfl

end

/-! ### The layout of a record -/

inductive Layout where
  | oneLine
  | twoLines
deriving DecidableEq, Repr

/-- The layout in which `output` writes a record. -/
def outputLayout (o : Options) (realWidth : Nat) (oldName : CString) : Layout :=
  if oldName.length ≥ realWidth + o.indicator1.length then .twoLines else .oneLine

/-- The layout that `input` takes the next record for. `none` if there is no record. -/
def inputLayout (o : Options) (realWidth : Nat) (hasNext : Bool) (i : Input) : Option Layout :=
  match i.readUnreadLine with
  | (.line _, i) =>
    match i.readUnreadLine with
    | (.line line2, _) =>
      let d := tabIndex (lineString line2) realWidth o.tabsize
      some (if blankTo (lineString line2) d then .twoLines else .oneLine)
    | (.error, _) => none
    | (.eof, _) => if hasNext then none else some .oneLine
  | _ => none

theorem record_inputLayout (o : Options) (realWidth : Nat) (oldName : CString) (hasNext : Bool) (i : Input) :
    match inputLayout o realWidth hasNext i with
    | some .oneLine => ∃ line i', record o realWidth oldName hasNext i =
        checkSeparator o hasNext (processSingleLine o realWidth oldName line i')
    | some .twoLines => ∃ line1 line2 i', record o realWidth oldName hasNext i =
        checkSeparator o hasNext (processDualLine o realWidth oldName line1 line2 i')
    | none => record o realWidth oldName hasNext i = .rejected := by
  rcases hi₁ : i.readUnreadLine with ⟨r₁, i₁⟩
  rw [inputLayout, record, hi₁]
  cases r₁ with
  | eof => rfl
  | error => rfl
  | line line1 =>
    dsimp only
    rcases i₁.readUnreadLine with ⟨r₂, i₂⟩
    cases r₂ with
    | error => rfl
    | eof => cases hasNext <;> first | rfl | exact ⟨line1, i₂, rfl⟩
    | line line2 =>
      dsimp only
      cases blankTo (lineString line2) (tabIndex (lineString line2) realWidth o.tabsize) with
      | false => exact ⟨line1, i₂.unreadLine line2, rfl⟩
      | true => exact ⟨line1, line2, i₂, rfl⟩

/-! ### A record in a text -/

/-- What follows a record in the text: nothing after the last one, and after the others a line that is not
taken for the second line of the record, or the blank line. -/
def NextLine (o : Options) (realWidth : Nat) (hasNext : Bool) (rest : List UInt8) : Prop :=
  if hasNext then
    o.separate = true ∨ ∃ line file, textLines rest = .line line :: file ∧
      blankTo (lineString line) (tabIndex (lineString line) realWidth o.tabsize) = false
  else rest = []

section
variable {o : Options} {realWidth : Nat} {oldName f g : CString} {i : Input} {hasNext : Bool}
  {rest : List UInt8}

theorem blankTo_cons {c : UInt8} (hc : isBlank c = false) (h : 0 < realWidth) (str : CString) :
    blankTo (c :: str) (tabIndex (c :: str) realWidth o.tabsize) = false := by
  have hd : 0 < tabIndex (c :: str) realWidth o.tabsize := tabIndex_pos (by rintro rfl; cases hc) h str
  rw [blankTo, List.takeWhile_cons_of_neg (by simp [hc]), decide_eq_false_iff_not, not_le]
  exact hd

theorem checkSeparator_accepted (n : Option (Option CString))
    (hi : i.lines = textLines (separator o.separate hasNext ++ rest)) :
    ∃ i', checkSeparator o hasNext ⟨n, .accepted i⟩ = ⟨n, .accepted i'⟩ ∧ i'.lines = textLines rest := by
  rw [checkSeparator]
  dsimp only
  rw [separator] at hi
  split at hi
  · rw [List.singleton_append, textLines_newline] at hi
    obtain ⟨i', hread, hi'⟩ := i.readUnreadLine_cons hi
    rw [if_pos ‹_›, hread]
    exact ⟨i', rfl, hi'⟩
  · rw [if_neg ‹_›]
    exact ⟨i, rfl, hi⟩

theorem checkSeparator_of_not_accepted {r : Record Input} (h : ∀ i, r.verdict ≠ .accepted i) :
    checkSeparator o hasNext r = r := by
  rw [checkSeparator]
  split
  · exact absurd ‹_› (h _)
  · rfl

theorem Options.tabsize_or_zero (o : Options) :
    (if o.useSpaces then 0 else o.tabsize) = o.tabsize ∨ (if o.useSpaces then 0 else o.tabsize) = 0 := by
  split <;> simp

theorem outputRecord_single (hlen : f.length + o.indicator1.length < realWidth) :
    outputRecord o realWidth hasNext f g =
      o.indicator1 ++ f ++ tabTo (o.indicator1 ++ f).length realWidth (if o.useSpaces then 0 else o.tabsize) ++
        (o.indicator2 ++ g) ++ newline :: separator o.separate hasNext := by
  have hno : ¬ f.length ≥ realWidth + o.indicator1.length := by omega
  simp only [outputRecord, hno, if_false, List.length_append, Nat.add_comm f.length, List.append_assoc]

/-- Whatever the layout, a record starts with a line that has the first column. -/
theorem outputRecord_line (hind₁ : OneLine o.indicator1) (hind₂ : OneLine o.indicator2) (hf : OneLine f)
    (hg : OneLine g) : ∃ l text, OneLine (o.indicator1 ++ f ++ l) ∧
      outputRecord o realWidth hasNext f g = o.indicator1 ++ f ++ l ++ newline :: text := by
  have hfirst := hind₁.append hf
  rw [outputRecord]
  split
  · exact ⟨[], _, by rwa [List.append_nil], by simp only [List.append_nil, List.append_assoc, List.cons_append]; rfl⟩
  · refine ⟨tabTo (f.length + o.indicator1.length) realWidth (if o.useSpaces then 0 else o.tabsize) ++
      (o.indicator2 ++ g), separator o.separate hasNext, hfirst.append (.append (.tabTo ..) (hind₂.append hg)), ?_⟩
    simp only [List.append_assoc]

theorem record_single (hind₁ : OneLine o.indicator1) (hind₂ : OneLine o.indicator2) (hf : OneLine f)
    (hlen : f.length + o.indicator1.length < realWidth) (hg : OneLine g)
    (hnext : NextLine o realWidth hasNext rest)
    (hi : i.lines = textLines (outputRecord o realWidth hasNext f g ++ rest)) (oldName : CString) :
    inputLayout o realWidth hasNext i = some .oneLine ∧
    ∃ i', i'.lines = textLines (separator o.separate hasNext ++ rest) ∧
      record o realWidth oldName hasNext i = checkSeparator o hasNext (processSingleLine o realWidth oldName
        (o.indicator1 ++ f ++ tabTo (o.indicator1 ++ f).length realWidth (if o.useSpaces then 0 else o.tabsize) ++
          (o.indicator2 ++ g) ++ [newline]) i') := by
  rw [outputRecord_single hlen, List.append_assoc _ _ rest, List.cons_append,
    (((hind₁.append hf).append (.tabTo ..)).append (hind₂.append hg)).textLines] at hi
  obtain ⟨i₁, hread₁, hi₁⟩ := i.readUnreadLine_cons hi
  rw [record, inputLayout, hread₁]
  dsimp only
  cases hasNext with
  | false =>
    obtain rfl : rest = [] := hnext
    simp only [separator, Bool.and_false, Bool.false_eq_true, if_false, List.append_nil, textLines_nil] at hi₁ ⊢
    obtain ⟨i₂, hread₂, hi₂⟩ := i₁.readUnreadLine_nil hi₁
    rw [hread₂]
    exact ⟨rfl, i₂, hi₂, rfl⟩
  | true =>
    -- the line that is read ahead is put back
    have hahead : ∃ line file, textLines (separator o.separate true ++ rest) = .line line :: file ∧
        blankTo (lineString line) (tabIndex (lineString line) realWidth o.tabsize) = false := by
      rw [separator]
      by_cases hsep : o.separate = true
      · rw [if_pos (by simp [hsep]), List.singleton_append, textLines_newline]
        exact ⟨_, _, rfl, blankTo_cons (by decide) (by omega) []⟩
      · rw [if_neg (by simp [hsep]), List.nil_append]
        exact (Or.resolve_left hnext hsep)
    obtain ⟨line, file, hlines, hblank⟩ := hahead
    rw [hlines] at hi₁ ⊢
    obtain ⟨i₂, hread₂, hi₂⟩ := i₁.readUnreadLine_cons hi₁
    rw [hread₂]
    simp only [hblank, Bool.false_eq_true, if_false]
    exact ⟨trivial, i₂.unreadLine line, congrArg (ReadResult.line line :: ·) hi₂, rfl⟩

theorem record_single_blank (hind₁ : OneLine o.indicator1) (hind₂ : OneLine o.indicator2) (hf : OneLine f)
    (htab : tab ∉ o.indicator1 ++ f) (hlen : f.length + o.indicator1.length < realWidth) (hg : OneLine g)
    (hnext : NextLine o realWidth hasNext rest)
    (hi : i.lines = textLines (outputRecord o realWidth hasNext f g ++ rest)) (oldName : CString) :
    inputLayout o realWidth hasNext i = some .oneLine ∧
    ∃ x pad i', (∀ y ∈ x :: pad, isBlank y = true) ∧
      OneLine (o.indicator1 ++ f ++ (x :: pad) ++ (o.indicator2 ++ g)) ∧
      tabIndex (o.indicator1 ++ f ++ (x :: pad) ++ (o.indicator2 ++ g)) realWidth o.tabsize =
        (o.indicator1 ++ f ++ (x :: pad)).length ∧
      i'.lines = textLines (separator o.separate hasNext ++ rest) ∧
      record o realWidth oldName hasNext i = checkSeparator o hasNext (processSingleLine o realWidth oldName
        (o.indicator1 ++ f ++ (x :: pad) ++ (o.indicator2 ++ g) ++ [newline]) i') := by
  obtain ⟨hlayout, i', hi', hrec⟩ := record_single hind₁ hind₂ hf hlen hg hnext hi oldName
  have hlt : (o.indicator1 ++ f).length < realWidth := by rw [List.length_append]; omega
  obtain ⟨x, pad, hpad⟩ := List.exists_cons_of_ne_nil
    (tabTo_ne_nil (if o.useSpaces then 0 else o.tabsize) hlt)
  have hd := tabIndex_tabTo htab hlt.le o.tabsize_or_zero (o.indicator2 ++ g)
  rw [hpad] at hd hrec
  refine ⟨hlayout, x, pad, i', fun y hy => isBlank_tabTo (hpad ▸ hy),
    ((hind₁.append hf).append ?_).append (hind₂.append hg), hd, hi', hrec⟩
  rw [← hpad]
  exact .tabTo ..

theorem record_dual (hind₁ : OneLine o.indicator1) (hind₂ : OneLine o.indicator2) (hf : OneLine f)
    (hlen : realWidth + o.indicator1.length ≤ f.length) (hg : OneLine g)
    (hi : i.lines = textLines (outputRecord o realWidth hasNext f g ++ rest)) {name : CString}
    (hname : dequoteOutputFile f = some name) (oldName : CString) :
    inputLayout o realWidth hasNext i = some .twoLines ∧
    ∃ i', i'.lines = textLines (separator o.separate hasNext ++ rest) ∧
      record o realWidth oldName hasNext i = checkSeparator o hasNext (assign o oldName
        (some (name.stringStripTrailing [space, tab])) (dequoteOutputFile g) i') := by
  set pad := tabTo 0 realWidth (if o.useSpaces then 0 else o.tabsize) with hpadeq
  have hblank : ∀ x ∈ pad, isBlank x = true := fun x hx => isBlank_tabTo hx
  have hline₁ : OneLine (o.indicator1 ++ f) := hind₁.append hf
  have hline₂ : OneLine (pad ++ (o.indicator2 ++ g)) := .append (.tabTo ..) (hind₂.append hg)
  have htext : outputRecord o realWidth hasNext f g ++ rest = o.indicator1 ++ f ++
      newline :: (pad ++ (o.indicator2 ++ g) ++ newline :: (separator o.separate hasNext ++ rest)) := by
    simp only [outputRecord, ge_iff_le, hlen, if_true, hpadeq, List.append_assoc, List.cons_append]
  have hd : ∀ b, tabIndex (pad ++ b) realWidth o.tabsize = pad.length := fun b => by
    simpa using tabIndex_tabTo (a := []) (by simp) (Nat.zero_le realWidth) o.tabsize_or_zero b
  rw [htext, hline₁.textLines, hline₂.textLines] at hi
  obtain ⟨i₁, hread₁, hi₁⟩ := i.readUnreadLine_cons hi
  obtain ⟨i₂, hread₂, hi₂⟩ := i₁.readUnreadLine_cons hi₁
  have hstring : lineString (pad ++ (o.indicator2 ++ g) ++ [newline]) = pad ++ (o.indicator2 ++ g ++ [newline]) := by
    rw [lineString_newline hline₂.nul, List.append_assoc]
  rw [record, inputLayout, hread₁]
  dsimp only
  rw [hread₂]
  dsimp only
  rw [hstring, hd, blankTo_append hblank, if_pos rfl]
  refine ⟨rfl, i₂, hi₂, ?_⟩
  rw [if_pos rfl]
  congr 1
  have hfirst : stringAt (chompLine (o.indicator1 ++ f ++ [newline])) o.indicator1.length = some f := by
    rw [chompLine_newline hline₁.nul, List.append_assoc]
    exact stringAt_append o.indicator1 hf.nul []
  have hprefix₁ : CString.startsWith (lineString (o.indicator1 ++ f ++ [newline])) o.indicator1 = true := by
    rw [lineString_newline hline₁.nul, List.append_assoc]
    exact startsWith_append ..
  rw [processDualLine, hprefix₁, if_neg (by decide)]
  simp only [hfirst, Option.bind_some, hname, lineString_chompLine hline₂.nul, hd, blankTo_append hblank,
    List.drop_left, List.drop_length_add_append, startsWith_append, Bool.not_true, Bool.false_eq_true, if_false]

end

/-! ### The prepared names -/

section
variable {isprint : UInt8 → Bool} {o : Options} {h : Heap} {files rest : List SpecId} {s : SpecId}
  {names : List (CString × CString)} {q f : CString} {realWidth realWidth' : Nat}

/-- `quote_first_last` adds nothing but backslashes. -/
theorem mem_quoteFirstLast (hf : quoteFirstLast o realWidth q = some f) :
    (∀ c ∈ f, c ∈ q ∨ c = backslash) ∧ ∀ c ∈ q, c ∈ f := by
  rw [quoteFirstLast] at hf
  split at hf
  · cases hf; exact ⟨fun _ => .inl, fun _ => id⟩
  obtain ⟨last, hlast, hf⟩ := Option.bind_eq_some_iff.mp hf
  obtain ⟨p, rfl⟩ := List.getLast?_eq_some_iff.mp hlast
  dsimp only [Option.pure_def] at hf
  obtain rfl := Option.some.inj hf
  by_cases hb : blankTo (p ++ [last]) (tabIndex (p ++ [last]) realWidth o.tabsize) = true <;>
    by_cases hl : last = space <;> simp [hb, hl] <;> grind

theorem prepare_cons (hp : prepare isprint o h (s :: rest) realWidth = some (names, realWidth')) :
    ∃ f names', quoteFirstLast o realWidth (quoteOutputFile isprint (h.oldName s)) = some f ∧
      names = (f, quoteOutputFile isprint (h.newName s)) :: names' ∧
      prepare isprint o h rest (if o.autowidth then max realWidth
        ((if o.swap then quoteOutputFile isprint (h.newName s) else f).length + 1) else realWidth) =
        some (names', realWidth') := by
  rw [prepare] at hp
  obtain ⟨f, hf, hp⟩ := Option.bind_eq_some_iff.mp hp
  obtain ⟨⟨names', w⟩, hrest, hp⟩ := Option.bind_eq_some_iff.mp hp
  obtain ⟨rfl, rfl⟩ := Prod.mk.inj (Option.some.inj hp)
  exact ⟨f, names', hf, rfl, hrest⟩

theorem output_of_prepare (hp : prepare isprint o h files o.width = some (names, realWidth)) :
    output isprint o h files = some (outputNames o realWidth names, realWidth) := by
  rw [output, hp]
  rfl

theorem prepare_isEmpty (hp : prepare isprint o h files realWidth = some (names, realWidth')) :
    names.isEmpty = files.isEmpty := by
  cases files with
  | nil => rw [prepare] at hp; cases hp; rfl
  | cons s rest =>
    obtain ⟨f, names', _, rfl, _⟩ := prepare_cons hp
    rfl

theorem prepare_le (hp : prepare isprint o h files realWidth = some (names, realWidth')) :
    realWidth ≤ realWidth' := by
  induction files generalizing realWidth names with
  | nil => rw [prepare] at hp; cases hp; exact le_rfl
  | cons s rest ih =>
    obtain ⟨f, names', _, _, hrest⟩ := prepare_cons hp
    have hle := ih hrest
    split at hle
    · exact (Nat.le_max_left ..).trans hle
    · exact hle

theorem prepare_isSome (isprint : UInt8 → Bool) (o : Options)
    (hold : ∀ s ∈ files, 0 ∉ h.oldName s ∧ h.oldName s ≠ []) (realWidth : Nat) :
    ∃ names realWidth', prepare isprint o h files realWidth = some (names, realWidth') := by
  induction files generalizing realWidth with
  | nil => exact ⟨_, _, rfl⟩
  | cons s rest ih =>
    obtain ⟨hs, hne⟩ := hold s List.mem_cons_self
    obtain ⟨p, l, hq⟩ := (List.eq_nil_or_concat _).resolve_left (quoteOutputFile_ne_nil isprint hs hne)
    obtain ⟨f, hf⟩ : ∃ f, quoteFirstLast o realWidth (quoteOutputFile isprint (h.oldName s)) = some f := by
      rw [quoteFirstLast, hq, List.concat_eq_append, List.getLast?_concat]
      split <;> exact ⟨_, rfl⟩
    rw [prepare]
    simp only [hf, Option.bind_eq_bind, Option.bind_some]
    obtain ⟨names, w, hrest⟩ := ih (fun s hs => hold s (List.mem_cons_of_mem _ hs)) _
    rw [hrest]
    exact ⟨_, _, rfl⟩

end

end DualColumn

end Renameutils
