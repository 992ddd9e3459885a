import Renameutils.DualColumnText

/-!
# The round trip of `dual-column.c`

Without `swap` and with `autowidth` every record is on one line. The first column ends where the blanks
begin that lead to the second, and `quote_first_last` protects the blanks that belong to the name; but the
reader takes a blank after any backslash for a part of the name. `TakenAs` says what it takes for the first
column, and `OldNameKept` which names come back (`dualColumn_input_output_iff`).
-/

namespace Renameutils
open CString

namespace DualColumn

/-! ### What the reader takes for the first column -/

/-- The first column `f`, followed by the blank `x`, is taken as `col`; `none` if it is all blank. With
`whole` the blank `x` is left. -/
inductive TakenAs (x : UInt8) : CString → Option CString → (whole : Bool) → Prop
  | plain {s blanks : CString} {b : UInt8} (hb : isBlank b = false) (hne : b ≠ backslash)
    (hblanks : ∀ y ∈ blanks, isBlank y = true) : TakenAs x (s ++ b :: blanks) (some (s ++ [b])) true
  | escaped {s blanks : CString} {y : UInt8} (hy : isBlank y = true)
    (hblanks : ∀ y ∈ blanks, isBlank y = true) :
    TakenAs x (s ++ backslash :: y :: blanks) (some (s ++ [backslash, y])) true
  | atEnd {s : CString} : TakenAs x (s ++ [backslash]) (some (s ++ [backslash, x])) false
  | blank {blanks : CString} (hblanks : ∀ y ∈ blanks, isBlank y = true) : TakenAs x blanks none true

section
variable {o : Options} {realWidth : Nat} {oldName f g pad : CString} {i : Input} {x : UInt8} {col : Option CString}
  {whole : Bool}

/-- What `process_single_line` does with the first column `f` and the second column `g`. -/
theorem TakenAs.processSingleLine (hcol : TakenAs x f col whole) (hind : col = none → o.indicator1 = [])
    (hpad : ∀ y ∈ x :: pad, isBlank y = true) (hline : OneLine (o.indicator1 ++ f ++ (x :: pad) ++ g)) (hg : g ≠ [])
    (hd : tabIndex (o.indicator1 ++ f ++ (x :: pad) ++ g) realWidth o.tabsize =
      (o.indicator1 ++ f ++ (x :: pad)).length) (oldName : CString) (i : Input) :
    ∃ g', (whole = true → g' = g) ∧
      processSingleLine o realWidth oldName (o.indicator1 ++ f ++ (x :: pad) ++ g ++ [newline]) i =
        col.elim .undefined fun col =>
          if CString.startsWith g' o.indicator2 then
            assign o oldName (dequoteOutputFile col) (dequoteOutputFile (g'.drop o.indicator2.length)) i
          else .rejected := by
  have hx : isBlank x = true := hpad x List.mem_cons_self
  cases hcol with
  | @plain s blanks b hb hne hblanks =>
    have hsplit : o.indicator1 ++ (s ++ b :: blanks) ++ (x :: pad) ++ g =
        o.indicator1 ++ s ++ b :: ([] ++ ((blanks ++ x :: pad) ++ g)) := by simp
    rw [hsplit] at hline hd ⊢
    have hall : ∀ y ∈ [] ++ (blanks ++ x :: pad), isBlank y = true :=
      List.forall_mem_append.mpr ⟨by simp, List.forall_mem_append.mpr ⟨hblanks, hpad⟩⟩
    obtain ⟨g', hg', heq⟩ := processSingleLine_eq hb hall (by simp [hne]) (by simp) hline hg
      (by rw [hd]; simp; omega)
    exact ⟨g', fun _ => hg' (by simp), heq⟩
  | @escaped s blanks y hy hblanks =>
    have hsplit : o.indicator1 ++ (s ++ backslash :: y :: blanks) ++ (x :: pad) ++ g =
        o.indicator1 ++ s ++ backslash :: ([y] ++ ((blanks ++ x :: pad) ++ g)) := by simp
    rw [hsplit] at hline hd ⊢
    have hall : ∀ z ∈ [y] ++ (blanks ++ x :: pad), isBlank z = true :=
      List.forall_mem_append.mpr ⟨by simpa using hy, List.forall_mem_append.mpr ⟨hblanks, hpad⟩⟩
    obtain ⟨g', hg', heq⟩ := processSingleLine_eq (b := backslash) (by decide) hall (by simp)
      (by simp) hline hg (by rw [hd]; simp; omega)
    exact ⟨g', fun _ => hg' (by simp), heq⟩
  | @atEnd s =>
    have hsplit : o.indicator1 ++ (s ++ [backslash]) ++ (x :: pad) ++ g =
        o.indicator1 ++ s ++ backslash :: ([x] ++ (pad ++ g)) := by simp
    rw [hsplit] at hline hd ⊢
    have hall : ∀ y ∈ [x] ++ pad, isBlank y = true := hpad
    obtain ⟨g', _, heq⟩ := processSingleLine_eq (b := backslash) (by decide) hall (by simp)
      (by simp) hline hg (by rw [hd]; simp; omega)
    exact ⟨g', fun h => (Bool.false_ne_true h).elim, heq⟩
  | blank hblanks =>
    have hnil := hind rfl
    rw [hnil, List.nil_append] at hline hd ⊢
    exact ⟨g, fun _ => rfl, processSingleLine_blank hnil
      (List.forall_mem_append.mpr ⟨hblanks, hpad⟩) hline hg hd⟩

end

/-! ### The ends of quoted names -/

section
variable {isprint : UInt8 → Bool}

/-- A character that is no space is quoted from non-blank to non-blank, and only a backslash to a
backslash. -/
theorem quoteChar_ends (hprint : ∀ c, isControl c = true → isprint c = false) {c : UInt8} (hc : c ≠ 0)
    (hspace : c ≠ space) :
    (∃ b e, quoteChar isprint c = b :: e ∧ isBlank b = false) ∧
      ∃ e b, quoteChar isprint c = e ++ [b] ∧ isBlank b = false ∧ (b = backslash ↔ c = backslash) := by
  have habbrev : ∀ n < 7, isBlank (cAbbrevs.getD n 0) = false ∧ cAbbrevs.getD n 0 ≠ backslash := by decide
  have hdigit : ∀ n < 8, isBlank (octalDigit n) = false ∧ octalDigit n ≠ backslash := by decide
  unfold quoteChar
  split
  · rename_i hb
    exact ⟨⟨_, _, rfl, rfl⟩, [backslash], backslash, rfl, rfl, by simp [hb]⟩
  rename_i hb
  split
  · rename_i hpr
    have hblank : isBlank c = false := by
      have htab : c ≠ tab := by
        rintro rfl
        rw [hprint tab rfl] at hpr; cases hpr
      simp [isBlank, hspace, htab]
    rw [strbufAppendChar, if_neg hc]
    exact ⟨⟨_, _, rfl, hblank⟩, [], c, rfl, hblank, Iff.rfl⟩
  split
  · have hlt : (charValue c - 7).toNat < 7 := by omega
    obtain ⟨h1, h2⟩ := habbrev _ hlt
    exact ⟨⟨_, _, rfl, rfl⟩, [backslash], _, rfl, h1, iff_of_false h2 hb⟩
  · obtain ⟨h1, h2⟩ := hdigit ((charValue c % 256).toNat % 8) (by omega)
    exact ⟨⟨_, _, rfl, rfl⟩, [backslash, _, _], _, rfl, h1, iff_of_false h2 hb⟩

theorem quoteOutputFile_end (hprint : ∀ c, isControl c = true → isprint c = false) {s : CString}
    (hs : 0 ∉ s) (hne : s ≠ []) (hlast : s.getLast? ≠ some space) :
    ∃ e b, quoteOutputFile isprint s = e ++ [b] ∧ isBlank b = false ∧
      (b = backslash ↔ s.getLast? = some backslash) := by
  obtain ⟨a, c, rfl⟩ := (List.eq_nil_or_concat s).resolve_left hne
  simp only [List.concat_eq_append, List.getLast?_append, List.getLast?_singleton, Option.some_or, ne_eq,
    Option.some.injEq, List.mem_append, List.mem_singleton, not_or] at hlast hs ⊢
  obtain ⟨_, e, b, hq, hb, hiff⟩ := quoteChar_ends hprint (Ne.symm hs.2) hlast
  exact ⟨quoteOutputFile isprint a ++ e, b, by
    rw [quoteOutputFile_append, quoteOutputFile_singleton, hq, List.append_assoc], hb, hiff⟩

end

theorem encodesByte_escaped : EncodesByte space [backslash, space] := .self (by decide) (by decide)

theorem encodes_blank {x : UInt8} (hx : isBlank x = true) : Encodes [x] [x] :=
  .byte (.raw (by rintro rfl; exact absurd hx (by decide)))

/-! ### Which old names come back -/

/-- The old names that are read back when `real_width` is `realWidth` at the time they are quoted. A
blank after a backslash is taken for a part of the name, and an escaped backslash for an escaped blank.
With a `real_width` of 0, the blanks at the end are not protected. -/
def OldNameKept (tabsize realWidth : Nat) (name : CString) : Prop :=
  if realWidth = 0 then
    (name.getLast? ≠ some space ∧ name.getLast? ≠ some backslash) ∨ [backslash, space] <:+ name
  else name.getLast? ≠ some backslash ∧ ¬ (name = [space] ∧ (tabsize ≠ 0 ∨ realWidth = 1))

instance (tabsize realWidth : Nat) (name : CString) : Decidable (OldNameKept tabsize realWidth name) := by
  unfold OldNameKept; infer_instance

/-- The old names of a list. Only the first is quoted with the option `width`; after it `real_width` is at
least 2. -/
def OldNamesKept (tabsize width : Nat) : List CString → Prop
  | [] => True
  | name :: rest => OldNameKept tabsize width name ∧ ∀ n ∈ rest, OldNameKept tabsize 2 n

theorem oldNamesKept_of_two_le {tabsize width : Nat} (h : 2 ≤ width) (names : List CString) :
    OldNamesKept tabsize width names ↔ ∀ n ∈ names, OldNameKept tabsize 2 n := by
  have hkept : ∀ n, OldNameKept tabsize width n ↔ OldNameKept tabsize 2 n := by
    intro n
    have h0 : width ≠ 0 := by omega
    have h1 : width ≠ 1 := by omega
    simp [OldNameKept, h0, h1]
  cases names with
  | nil => simp [OldNamesKept]
  | cons n names => simp [OldNamesKept, hkept]

/-- The column that is taken for `f` reads as `name` if and only if `kept`, and then the blank after it is
left. -/
def ReadsBack (x : UInt8) (f name : CString) (kept : Prop) : Prop :=
  ∃ col whole, TakenAs x f col whole ∧ (kept → whole = true ∧ col.bind dequoteOutputFile = some name) ∧
    (¬ kept → col.bind dequoteOutputFile ≠ some name)

theorem exists_spaces (name : CString) :
    ∃ base n, name = base ++ List.replicate n space ∧ base.getLast? ≠ some space := by
  induction name using List.reverseRecOn with
  | nil => exact ⟨[], 0, rfl, by simp⟩
  | append_singleton a c ih =>
    by_cases hc : c = space
    · obtain ⟨base, n, rfl, hlast⟩ := ih
      exact ⟨base, n + 1, by rw [hc, List.append_assoc, List.replicate_succ'], hlast⟩
    · exact ⟨a ++ [c], 0, by simp, by simpa using hc⟩

section
variable {isprint : UInt8 → Bool} {x : UInt8} {name f : CString} {tabsize realWidth : Nat} {o : Options}

theorem readsBack_of_end (hx : isBlank x = true) (hname : 0 ∉ name) (henc : Encodes name f)
    (hend : ∃ e b, f = e ++ [b] ∧ isBlank b = false ∧ (b = backslash ↔ name.getLast? = some backslash)) :
    ReadsBack x f name (name.getLast? ≠ some backslash) := by
  obtain ⟨e, b, rfl, hb, hiff⟩ := hend
  by_cases hbs : b = backslash
  · subst hbs
    refine ⟨_, _, .atEnd, fun hk => absurd (hiff.mp rfl) hk, fun _ => ?_⟩
    have hcol : Encodes (name ++ [x]) (e ++ [backslash] ++ [x]) := henc.append (encodes_blank hx)
    have hx0 : x ≠ 0 := by rintro rfl; exact absurd hx (by decide)
    have hd := hcol.dequote (by simp [hname, hx0.symm])
    rw [List.append_assoc] at hd
    show dequoteOutputFile (e ++ [backslash, x]) ≠ _
    rw [show e ++ [backslash, x] = e ++ ([backslash] ++ [x]) from rfl, hd]
    simp
  · refine ⟨_, _, .plain hb hbs (by simp), fun _ => ⟨rfl, henc.dequote hname⟩, fun hk => ?_⟩
    exact absurd (hiff.mpr (not_not.mp hk)) hbs

theorem getLast?_spaces (base : CString) (n : Nat) :
    (base ++ List.replicate (n + 1) space).getLast? = some space := by
  rw [List.replicate_succ', ← List.append_assoc, List.getLast?_concat]

theorem oldNameKept_zero_iff {base : CString} (hlast : base.getLast? ≠ some space) (n : Nat) :
    OldNameKept tabsize 0 (base ++ List.replicate n space) ↔
      (n = 0 ∧ base.getLast? ≠ some backslash) ∨ (n = 1 ∧ base.getLast? = some backslash) := by
  rw [OldNameKept, if_pos rfl]
  have hsuffix : ∀ a : CString, [backslash, space] <:+ a ++ [space] ↔ a.getLast? = some backslash := by
    intro a
    rw [List.getLast?_eq_some_iff]
    constructor
    · rintro ⟨l, h⟩
      have heq : l ++ [backslash] ++ [space] = a ++ [space] := by simpa using h
      exact ⟨l, (List.append_cancel_right heq).symm⟩
    · rintro ⟨l, rfl⟩
      exact ⟨l, by simp⟩
  cases n with
  | zero =>
    rw [List.replicate_zero, List.append_nil]
    constructor
    · rintro (h | ⟨l, h⟩)
      · exact .inl ⟨rfl, h.2⟩
      · exact absurd (by rw [← h]; simp) hlast
    · rintro (h | h)
      · exact .inl ⟨hlast, h.2⟩
      · cases h.1
  | succ n =>
    rw [getLast?_spaces, List.replicate_succ', ← List.append_assoc, hsuffix]
    cases n with
    | zero => simp
    | succ n => rw [getLast?_spaces]; simp [space, backslash]

theorem readsBack_unquoted (hp : PrintsAscii isprint) (hx : isBlank x = true) (hname : 0 ∉ name)
    (hne : name ≠ []) : ReadsBack x (quoteOutputFile isprint name) name (OldNameKept tabsize 0 name) := by
  obtain ⟨base, n, rfl, hlast⟩ := exists_spaces name
  have hbase : 0 ∉ base := fun h => hname (List.mem_append_left _ h)
  have henc := quoteOutputFile_encodes isprint hbase
  have hblanks : ∀ m, ∀ y ∈ List.replicate m space, isBlank y = true := fun m y hy =>
    List.eq_of_mem_replicate hy ▸ rfl
  rw [quoteOutputFile_append, hp.quote_spaces, oldNameKept_zero_iff hlast]
  by_cases hb : base = []
  · subst hb
    refine ⟨_, _, .blank (by simpa [quoteOutputFile] using hblanks n), fun hk => ?_, by simp⟩
    obtain rfl : n = 0 := by simpa using hk
    exact absurd rfl hne
  have hend := quoteOutputFile_end hp.control hbase hb hlast
  cases n with
  | zero => simpa using readsBack_of_end hx hbase henc hend
  | succ n =>
    obtain ⟨e, b, hq, hbl, hiff⟩ := hend
    rw [hq, List.append_assoc, List.singleton_append]
    by_cases hbs : b = backslash
    · -- one blank is taken with the backslash
      subst hbs
      have hcol : dequoteOutputFile (e ++ [backslash, space]) = some (base ++ [space]) := by
        have h := (henc.append (encodes_blank (x := space) (by decide))).dequote (by simp [hbase, space])
        rwa [hq, List.append_assoc] at h
      rw [List.replicate_succ]
      refine ⟨_, _, .escaped (by decide) (hblanks n), fun hk => ⟨rfl, ?_⟩, fun hk heq => hk (.inr ?_)⟩
      · obtain rfl : n = 0 := Nat.succ.inj (hk.resolve_left (by simp)).1
        exact hcol
      · rw [Option.bind_some, hcol, Option.some.injEq, List.append_cancel_left_eq] at heq
        exact ⟨by simpa using (congrArg List.length heq).symm, hiff.mp rfl⟩
    · refine ⟨_, _, .plain hbl hbs (hblanks (n + 1)), fun hk => ?_, fun _ heq => ?_⟩
      · exact absurd (hiff.mpr (hk.resolve_left (by simp)).2) hbs
      · rw [Option.bind_some, ← hq, henc.dequote hbase, Option.some.injEq] at heq
        simpa using congrArg List.length heq

/-- The backslash before a name that starts with blanks. -/
def leadingBackslash (o : Options) (realWidth : Nat) (q : CString) : CString :=
  if blankTo q (tabIndex q realWidth o.tabsize) then [backslash] else []

theorem quoteFirstLast_eq (hw : realWidth ≠ 0) (p : CString) (l : UInt8) :
    quoteFirstLast o realWidth (p ++ [l]) = some (leadingBackslash o realWidth (p ++ [l]) ++ p ++
      if l = space then [backslash, space] else [l]) := by
  rw [quoteFirstLast, if_neg hw, List.getLast?_concat, leadingBackslash]
  have hdrop : (backslash :: (p ++ [l])).dropLast = backslash :: p := by
    rw [← List.cons_append, List.dropLast_concat]
  by_cases hb : blankTo (p ++ [l]) (tabIndex (p ++ [l]) realWidth o.tabsize) = true <;>
    by_cases hl : l = space <;> simp_all

/-- A leading backslash protects a blank. -/
theorem leadingBackslash_cases (hp : PrintsAscii isprint) (hw : realWidth ≠ 0) (hname : 0 ∉ name)
    (hne : name ≠ []) :
    leadingBackslash o realWidth (quoteOutputFile isprint name) = [] ∨
      leadingBackslash o realWidth (quoteOutputFile isprint name) = [backslash] ∧ ∃ a, name = space :: a := by
  rw [leadingBackslash]
  split
  · rename_i hblank
    refine .inr ⟨rfl, ?_⟩
    obtain ⟨c, a, rfl⟩ := List.exists_cons_of_ne_nil hne
    by_cases hc : c = space
    · exact ⟨a, by rw [hc]⟩
    exfalso
    have hc0 : c ≠ 0 := fun h => hname (by simp [h])
    obtain ⟨⟨b, e, hq, hb⟩, _⟩ := quoteChar_ends hp.control hc0 hc
    have hquote : quoteOutputFile isprint (c :: a) = b :: (e ++ quoteOutputFile isprint a) := by
      rw [← List.singleton_append, quoteOutputFile_append, quoteOutputFile_singleton, hq, List.cons_append]
    have htab := hp.tab_notMem_quote (c :: a)
    rw [hquote] at hblank htab
    rw [tabIndex_of_notMem htab, blankTo, List.takeWhile_cons_of_neg (by simp [hb])] at hblank
    simp only [List.length_nil, Nat.le_zero, decide_eq_true_eq, List.length_cons] at hblank
    split at hblank <;> omega
  · exact .inl rfl

theorem leadingBackslash_space (hw : realWidth ≠ 0) :
    leadingBackslash o realWidth [space] = [backslash] ↔ o.tabsize ≠ 0 ∨ realWidth = 1 := by
  have htab : tab ∉ [space] := by decide
  have hrun : List.takeWhile isBlank [space] = [space] := by decide
  rw [leadingBackslash, tabIndex_of_notMem htab, blankTo, hrun]
  by_cases ht : o.tabsize = 0
  · simp only [ht, if_true, List.length_singleton, decide_eq_true_eq, ne_eq, not_true_eq_false, false_or]
    split <;> simp <;> omega
  · have hmin : min realWidth 1 ≤ 1 := Nat.min_le_right ..
    simp [ht, hmin]

theorem encodes_leading (isprint : UInt8 → Bool) (hp : PrintsAscii isprint) (hname : 0 ∉ name) {lead : CString}
    (hlead : lead = [] ∨ lead = [backslash] ∧ ∃ a, name = space :: a) :
    Encodes name (lead ++ quoteOutputFile isprint name) := by
  rcases hlead with rfl | ⟨rfl, a, rfl⟩
  · exact quoteOutputFile_encodes isprint hname
  · rw [← List.singleton_append, quoteOutputFile_append, quoteOutputFile_singleton, hp.quoteChar_space,
      ← List.append_assoc]
    exact .cons encodesByte_escaped (quoteOutputFile_encodes isprint fun h => hname (.tail _ h))

/-- `quote_first_last` leaves a form of the name, unless it protects the same blank twice. -/
theorem encodes_quoteFirstLast (hp : PrintsAscii isprint) (hname : 0 ∉ name) (hne : name ≠ [])
    (hw : realWidth ≠ 0) (honce : ¬ (name = [space] ∧ (o.tabsize ≠ 0 ∨ realWidth = 1)))
    (hf : quoteFirstLast o realWidth (quoteOutputFile isprint name) = some f) : Encodes name f := by
  have hlead := leadingBackslash_cases (o := o) hp hw hname hne
  obtain ⟨a, c, rfl⟩ := (List.eq_nil_or_concat name).resolve_left hne
  rw [List.concat_eq_append] at *
  by_cases hc : c = space
  · subst hc
    rw [quoteOutputFile_append, quoteOutputFile_singleton, hp.quoteChar_space] at hf hlead
    rw [quoteFirstLast_eq hw, if_pos rfl] at hf
    obtain rfl := Option.some.inj hf
    have ha : 0 ∉ a := fun h => hname (List.mem_append_left _ h)
    have hlead' : leadingBackslash o realWidth (quoteOutputFile isprint a ++ [space]) = [] ∨
        leadingBackslash o realWidth (quoteOutputFile isprint a ++ [space]) = [backslash] ∧
          ∃ a', a = space :: a' := by
      refine hlead.imp_right fun ⟨h1, a', h2⟩ => ⟨h1, ?_⟩
      cases a with
      | nil => exact absurd ⟨rfl, (leadingBackslash_space hw).mp h1⟩ honce
      | cons b a =>
        simp only [List.cons_append, List.cons.injEq] at h2
        exact ⟨a, by rw [h2.1]⟩
    exact (encodes_leading isprint hp ha hlead').append (.byte encodesByte_escaped)
  · have hlast : (a ++ [c]).getLast? ≠ some space := by simpa using hc
    obtain ⟨e, b, hq, hb, _⟩ := quoteOutputFile_end hp.control hname hne hlast
    rw [hq, quoteFirstLast_eq hw, if_neg (by rintro rfl; exact absurd hb (by decide)), List.append_assoc,
      ← hq] at hf
    obtain rfl := Option.some.inj hf
    exact encodes_leading isprint hp hname hlead

theorem readsBack_quoted (hp : PrintsAscii isprint) (hx : isBlank x = true) (hname : 0 ∉ name)
    (hne : name ≠ []) (hw : realWidth ≠ 0)
    (hf : quoteFirstLast o realWidth (quoteOutputFile isprint name) = some f) :
    ReadsBack x f name (OldNameKept o.tabsize realWidth name) := by
  have henc : ¬ (name = [space] ∧ (o.tabsize ≠ 0 ∨ realWidth = 1)) → Encodes name f := fun honce =>
    encodes_quoteFirstLast hp hname hne hw honce hf
  rw [OldNameKept, if_neg hw]
  obtain ⟨a, c, rfl⟩ := (List.eq_nil_or_concat name).resolve_left hne
  rw [List.concat_eq_append] at *
  by_cases hc : c = space
  · -- the last blank is protected
    subst hc
    by_cases hsingle : a ++ [space] = [space] ∧ (o.tabsize ≠ 0 ∨ realWidth = 1)
    · have hback := (leadingBackslash_space hw).mpr hsingle.2
      obtain rfl : a = [] := by simpa using congrArg List.length hsingle.1
      rw [List.nil_append, quoteOutputFile_singleton, hp.quoteChar_space, ← List.nil_append [space],
        quoteFirstLast_eq hw, List.nil_append, hback, if_pos rfl] at hf
      obtain rfl := Option.some.inj hf
      refine ⟨_, _, .escaped (by decide) (by simp), fun hk => absurd ⟨rfl, hsingle.2⟩ hk.2, fun _ => ?_⟩
      decide
    · have hdequote := (henc hsingle).dequote hname
      rw [quoteOutputFile_append, quoteOutputFile_singleton, hp.quoteChar_space, quoteFirstLast_eq hw,
        if_pos rfl] at hf
      obtain rfl := Option.some.inj hf
      exact ⟨_, _, .escaped (by decide) (by simp), fun _ => ⟨rfl, hdequote⟩, fun hk =>
        absurd ⟨by simp [space, backslash], hsingle⟩ hk⟩
  · have hlast : (a ++ [c]).getLast? ≠ some space := by simpa using hc
    have honce : ¬ (a ++ [c] = [space] ∧ (o.tabsize ≠ 0 ∨ realWidth = 1)) := by
      rintro ⟨h, _⟩
      rw [h] at hlast
      exact hlast rfl
    have henc := henc honce
    obtain ⟨e, b, hq, hb, hiff⟩ := quoteOutputFile_end hp.control hname hne hlast
    rw [hq, quoteFirstLast_eq hw, if_neg (by rintro rfl; exact absurd hb (by decide))] at hf
    obtain rfl := Option.some.inj hf
    obtain ⟨col, whole, htaken, hk, hn⟩ := readsBack_of_end hx hname henc ⟨_, b, rfl, hb, hiff⟩
    exact ⟨col, whole, htaken, fun h => hk h.1, fun h => hn fun h' => h ⟨h', honce⟩⟩

end

/-! ### The records of `output` -/

section
variable {isprint : UInt8 → Bool} {o : Options} {h : Heap} {files : List SpecId} {oldName f g : CString}
  {i : Input} {hasNext : Bool} {rest : List UInt8} {names : List (CString × CString)}
  {width realWidth : Nat}

/-- The first column of a prepared record. -/
structure Prepared (isprint : UInt8 → Bool) (o : Options) (width : Nat) (oldName f : CString) : Prop where
  line : OneLine f
  tab : tab ∉ f
  ne_nil : f ≠ []
  nonblank : width ≠ 0 → ∃ y ∈ f, isBlank y = false
  readsBack : ∀ x, isBlank x = true → ReadsBack x f oldName (OldNameKept o.tabsize width oldName)

theorem prepared (hp : PrintsAscii isprint) (hold : 0 ∉ oldName) (hne : oldName ≠ [])
    (hf : quoteFirstLast o width (quoteOutputFile isprint oldName) = some f) :
    Prepared isprint o width oldName f := by
  obtain ⟨hsub, hsup⟩ := mem_quoteFirstLast hf
  have hquote : OneLine (quoteOutputFile isprint oldName) := .quote hp.control oldName
  obtain ⟨c, q, hq⟩ := List.exists_cons_of_ne_nil (quoteOutputFile_ne_nil isprint hold hne)
  refine ⟨⟨fun hm => ?_, fun hm => ?_⟩, fun hm => ?_, fun h => ?_, fun hw => ?_, fun x hx => ?_⟩
  · exact (hsub _ hm).elim hquote.newline (by decide)
  · exact (hsub _ hm).elim hquote.nul (by decide)
  · exact (hsub _ hm).elim (hp.tab_notMem_quote oldName) (by decide)
  · have := hsup c (by rw [hq]; exact List.mem_cons_self)
    rw [h] at this
    cases this
  · obtain ⟨p, l, hq⟩ := (List.eq_nil_or_concat _).resolve_left (quoteOutputFile_ne_nil isprint hold hne)
    rw [List.concat_eq_append] at hq
    by_cases hl : l = space
    · rw [hq, quoteFirstLast_eq hw, if_pos hl] at hf
      exact ⟨backslash, by rw [← Option.some.inj hf]; simp, rfl⟩
    · refine ⟨l, hsup l (by rw [hq]; simp), ?_⟩
      have htab : l ≠ CString.tab := by
        rintro rfl
        exact hp.tab_notMem_quote oldName (by rw [hq]; simp)
      simp [isBlank, hl, htab]
  · by_cases hw : width = 0
    · subst hw
      rw [quoteFirstLast, if_pos rfl] at hf
      obtain rfl := Option.some.inj hf
      exact readsBack_unquoted hp hx hold hne
    · exact readsBack_quoted hp hx hold hne hw hf

/-- A record that `output` writes is read back if and only if its old name is. -/
theorem Prepared.record (hind₁ : o.indicator1 = []) (hind₂ : o.indicator2 = []) (hswap : o.swap = false)
    (p : Prepared isprint o width oldName f) (hlen : f.length < realWidth) (hg : OneLine g) (hgne : g ≠ [])
    (hnext : NextLine o realWidth hasNext rest)
    (hi : i.lines = textLines (outputRecord o realWidth hasNext f g ++ rest)) :
    inputLayout o realWidth hasNext i = some .oneLine ∧
    (OldNameKept o.tabsize width oldName → ∃ i', i'.lines = textLines rest ∧
      record o realWidth oldName hasNext i = ⟨some (dequoteOutputFile g), .accepted i'⟩) ∧
    (¬ OldNameKept o.tabsize width oldName → ∀ i',
      (record o realWidth oldName hasNext i).verdict ≠ .accepted i') := by
  obtain ⟨hlayout, x, pad, i₁, hblank, hline, hd, hi₁, hrec⟩ := record_single_blank (hind₁ ▸ .nil) (hind₂ ▸ .nil)
    p.line (by simpa [hind₁] using p.tab) (by simpa [hind₁] using hlen) hg hnext hi oldName
  obtain ⟨col, whole, htaken, hkept, hlost⟩ := p.readsBack x (hblank x List.mem_cons_self)
  obtain ⟨g', hg', heq⟩ := htaken.processSingleLine (fun _ => hind₁) hblank hline (by simp [hgne]) hd oldName i₁
  have hprefix : CString.startsWith g' [] = true := startsWith_append [] g'
  simp only [hind₂, hprefix, if_true, List.length_nil, List.drop_zero, List.nil_append] at hg' heq hrec
  rw [heq] at hrec
  rw [hrec]
  refine ⟨hlayout, ?_, ?_⟩
  · intro hk
    obtain ⟨rfl, hname⟩ := hkept hk
    obtain ⟨col, rfl, hcol⟩ := Option.bind_eq_some_iff.mp hname
    obtain ⟨i', hcheck, hi'⟩ := checkSeparator_accepted (some (dequoteOutputFile g)) hi₁
    refine ⟨i', hi', ?_⟩
    rw [← hcheck, hg' rfl, Option.elim_some, hcol]
    simp [assign, hswap]
  · intro hk i' hacc
    have hno : ∀ i, (col.elim .undefined fun col =>
        assign o oldName (dequoteOutputFile col) (dequoteOutputFile g') i₁).verdict ≠ .accepted i := by
      intro i
      cases hcol : col.bind dequoteOutputFile with
      | none =>
        cases col with
        | none => simp [Record.undefined]
        | some col => simp [assign, hswap, (show dequoteOutputFile col = none from hcol), Record.undefined]
      | some name =>
        have hne : oldName ≠ name := by
          rintro rfl
          exact hlost hk hcol
        obtain ⟨col, rfl, hname⟩ := Option.bind_eq_some_iff.mp hcol
        simp [assign, hswap, hname, hne, Record.rejected]
    rw [checkSeparator_of_not_accepted hno] at hacc
    exact hno i' hacc

theorem Prepared.nextLine (hind₁ : o.indicator1 = []) (hind₂ : o.indicator2 = [])
    (p : Prepared isprint o width oldName f) (hw : width ≠ 0) (hlen : f.length < realWidth) (hg : OneLine g) :
    NextLine o realWidth true (outputRecord o realWidth hasNext f g ++ rest) := by
  obtain ⟨y, hy, hblank⟩ := p.nonblank hw
  have hpad : OneLine (tabTo f.length realWidth (if o.useSpaces then 0 else o.tabsize)) := .tabTo ..
  have hline := (p.line.append hpad).append hg
  have hlen' : f.length + o.indicator1.length < realWidth := by simpa [hind₁] using hlen
  have htext : outputRecord o realWidth hasNext f g = _ := outputRecord_single hlen'
  simp only [hind₁, hind₂, List.nil_append] at htext
  refine .inr ⟨_, _, by rw [htext, List.append_assoc _ _ rest, List.cons_append, hline.textLines], ?_⟩
  rw [lineString_newline hline.nul, List.append_assoc _ _ [newline], tabIndex_tabTo p.tab hlen.le o.tabsize_or_zero,
    List.append_assoc f]
  exact blankTo_of_mem hy hblank (by simp) _

theorem nextLine_outputNames (hp : PrintsAscii isprint) (hind₁ : o.indicator1 = []) (hind₂ : o.indicator2 = [])
    (hswap : o.swap = false) (hauto : o.autowidth = true)
    (hold : ∀ s ∈ files, 0 ∉ h.oldName s ∧ h.oldName s ≠ []) (hw : width ≠ 0)
    (hprep : prepare isprint o h files width = some (names, realWidth)) :
    NextLine o realWidth (!files.isEmpty) (outputNames o realWidth names) := by
  cases files with
  | nil => rw [prepare] at hprep; cases hprep; rfl
  | cons s files =>
    obtain ⟨f, names', hf, rfl, hrest⟩ := prepare_cons hprep
    rw [hauto, hswap, if_pos rfl, if_neg (by decide)] at hrest
    have hlen : f.length < realWidth := by have := prepare_le hrest; omega
    have p := prepared hp (hold s List.mem_cons_self).1 (hold s List.mem_cons_self).2 hf
    exact p.nextLine hind₁ hind₂ hw hlen (.quote hp.control (h.newName s))

theorem readRecords_outputNames (hp : PrintsAscii isprint) (hind₁ : o.indicator1 = [])
    (hind₂ : o.indicator2 = []) (hswap : o.swap = false) (hauto : o.autowidth = true)
    (hold : ∀ s ∈ files, 0 ∉ h.oldName s ∧ h.oldName s ≠ [])
    (hnew : ∀ s ∈ files, 0 ∉ h.newName s ∧ h.newName s ≠ [])
    (hprep : prepare isprint o h files width = some (names, realWidth))
    (hi : i.lines = textLines (outputNames o realWidth names)) :
    (OldNamesKept o.tabsize width (files.map h.oldName) → ∃ i', i'.lines = [] ∧
      readRecords (record o realWidth) h.oldName files i =
        (files.flatMap fun s => (some (some (h.newName s))).toList.map (s, ·), .accepted i')) ∧
    (¬ OldNamesKept o.tabsize width (files.map h.oldName) → ∀ i',
      (readRecords (record o realWidth) h.oldName files i).2 ≠ .accepted i') := by
  induction files generalizing width names i with
  | nil =>
    rw [prepare] at hprep
    cases hprep
    exact ⟨fun _ => ⟨i, hi, rfl⟩, fun h => absurd trivial h⟩
  | cons s files ih =>
    obtain ⟨f, names', hf, rfl, hrest⟩ := prepare_cons hprep
    rw [hauto, hswap, if_pos rfl, if_neg (by decide)] at hrest
    have hw' : 2 ≤ max width (f.length + 1) := by
      have p := prepared hp (hold s List.mem_cons_self).1 (hold s List.mem_cons_self).2 hf
      have := List.length_pos_iff.mpr p.ne_nil
      omega
    have hlen : f.length < realWidth := by have := prepare_le hrest; omega
    obtain ⟨hnz, hne⟩ := hnew s List.mem_cons_self
    have hold' := fun s hs => hold s (List.mem_cons_of_mem _ hs)
    have hnext := nextLine_outputNames hp hind₁ hind₂ hswap hauto hold' (by omega) hrest
    rw [outputNames, prepare_isEmpty hrest] at hi
    obtain ⟨-, hkept, hlost⟩ := (prepared hp (hold s List.mem_cons_self).1 (hold s List.mem_cons_self).2 hf).record
      hind₁ hind₂ hswap hlen (.quote hp.control (h.newName s)) (quoteOutputFile_ne_nil isprint hnz hne) hnext hi
    have hiff : OldNamesKept o.tabsize width ((s :: files).map h.oldName) ↔
        OldNameKept o.tabsize width (h.oldName s) ∧
          OldNamesKept o.tabsize (max width (f.length + 1)) (files.map h.oldName) := by
      rw [List.map_cons, OldNamesKept, oldNamesKept_of_two_le hw']
    rw [hiff, readRecords]
    by_cases hs : OldNameKept o.tabsize width (h.oldName s)
    · obtain ⟨i', hi', hrec⟩ := hkept hs
      obtain ⟨ih₁, ih₂⟩ := ih hold' (fun s hs => hnew s (List.mem_cons_of_mem _ hs)) hrest hi'
      simp only [hrec, hs, true_and, dequoteOutputFile_quote isprint hnz]
      refine ⟨fun hk => ?_, ih₂⟩
      obtain ⟨i'', hi'', hread⟩ := ih₁ hk
      refine ⟨i'', hi'', ?_⟩
      rw [hread, List.flatMap_cons]
    · refine ⟨fun hk => absurd hk.1 hs, fun _ i' => ?_⟩
      have hno := hlost hs
      cases hv : (DualColumn.record o realWidth (h.oldName s) (!files.isEmpty) i).verdict with
      | accepted i₁ => exact absurd hv (hno i₁)
      | rejected => simp
      | undefined => simp

end

/-! ### The result of `input` -/

section
variable {o : Options} {h : Heap} {files : List SpecId} {i i' : Input} {file : TextFile} {realWidth : Nat}
  {specs specs' : EditSpecs}

theorem input_ne_accepted
    (hlost : ∀ i', (readRecords (record o realWidth) specs.oldName files ⟨[], file⟩).2 ≠ .accepted i') :
    input o realWidth files file specs ≠ .returned true specs' := by
  intro hin
  rw [input, inputLoop_eq] at hin
  cases hv : (readRecords (record o realWidth) specs.oldName files ⟨[], file⟩).2 with
  | accepted i' => exact hlost i' hv
  | rejected => simp [hv, Verdict.result] at hin
  | undefined => simp [hv, Verdict.result] at hin

theorem input_of_accepted (hread : readRecords (record o realWidth) h.oldName files ⟨[], file⟩ =
      (files.flatMap fun s => (some (some (h.newName s))).toList.map (s, ·), .accepted i')) (hi' : i'.lines = []) :
    input o realWidth files file ⟨h.oldName, fun s => some (h.newName s), h.status⟩ =
      .returned true ⟨h.oldName, fun s => some (h.newName s), h.status⟩ := by
  have hsame : EditSpecs.assignAll ⟨h.oldName, fun s => some (h.newName s), h.status⟩ files
      (fun s => some (some (h.newName s))) = ⟨h.oldName, fun s => some (h.newName s), h.status⟩ := by
    simp [EditSpecs.assignAll]
  rw [input, inputLoop_eq, hread, EditSpecs.assign_flatMap, hsame]
  simp [Verdict.result, finish_of_lines hi']

end

end DualColumn

/-- What `output` of the dual-column format writes is read back as it was if and only if the old names
are: the first as `width` has it quoted, the others as they always are. -/
theorem dualColumn_input_output_iff {isprint : UInt8 → Bool} (hp : PrintsAscii isprint)
    {o : DualColumn.Options} (hind₁ : o.indicator1 = []) (hind₂ : o.indicator2 = []) (hswap : o.swap = false)
    (hauto : o.autowidth = true) {h : Heap} {files : List SpecId}
    (hold : ∀ s ∈ files, 0 ∉ h.oldName s ∧ h.oldName s ≠ [])
    (hnew : ∀ s ∈ files, 0 ∉ h.newName s ∧ h.newName s ≠ []) :
    (∃ text realWidth, DualColumn.output isprint o h files = some (text, realWidth) ∧
      DualColumn.input o realWidth files (textLines text) ⟨h.oldName, fun s => some (h.newName s), h.status⟩ =
        .returned true ⟨h.oldName, fun s => some (h.newName s), h.status⟩) ↔
    DualColumn.OldNamesKept o.tabsize o.width (files.map h.oldName) := by
  obtain ⟨names, realWidth, hprep⟩ := DualColumn.prepare_isSome isprint o hold o.width
  have hout := DualColumn.output_of_prepare hprep
  obtain ⟨hkept, hlost⟩ := DualColumn.readRecords_outputNames hp hind₁ hind₂ hswap hauto hold hnew hprep
    (i := ⟨[], textLines (DualColumn.outputNames o realWidth names)⟩) rfl
  constructor
  · rintro ⟨text, w, hout', hin⟩
    rw [hout] at hout'
    obtain ⟨rfl, rfl⟩ := Prod.mk.inj (Option.some.inj hout')
    by_contra hk
    exact DualColumn.input_ne_accepted (hlost hk) hin
  · intro hk
    obtain ⟨i', hi', hread⟩ := hkept hk
    exact ⟨_, _, hout, DualColumn.input_of_accepted hread hi'⟩

/-- Two names with blanks at their ends. -/
theorem dualColumn_input_output_blanks :
    let isprint : UInt8 → Bool := fun c => 32 ≤ c && c < 127
    let h := (Heap.empty.newFileSpec ⟨[97, 32], [32, 98], none, none, .unchecked⟩).newFileSpec
      ⟨[32, 32], [98, 92], none, none, .unchecked⟩
    (∃ text realWidth, DualColumn.output isprint {} h [0, 1] = some (text, realWidth) ∧
      DualColumn.input {} realWidth [0, 1] (textLines text) ⟨h.oldName, fun s => some (h.newName s), h.status⟩ =
        .returned true ⟨h.oldName, fun s => some (h.newName s), h.status⟩) ↔
    DualColumn.OldNamesKept 8 40 ([0, 1].map h.oldName) := by
  intro isprint h
  exact dualColumn_input_output_iff printsAscii rfl rfl rfl rfl (h := h) (by decide) (by decide)

/-- A file whose name ends with a backslash. -/
theorem dualColumn_input_output_backslash :
    let isprint : UInt8 → Bool := fun c => 32 ≤ c && c < 127
    let h := Heap.empty.newFileSpec ⟨[97, 92], [97, 92], none, none, .unchecked⟩
    ¬ ∃ text realWidth, DualColumn.output isprint {} h [0] = some (text, realWidth) ∧
      DualColumn.input {} realWidth [0] (textLines text) ⟨h.oldName, fun s => some (h.newName s), h.status⟩ =
        .returned true ⟨h.oldName, fun s => some (h.newName s), h.status⟩ := by
  rintro isprint h ⟨text, realWidth, hout, hin⟩
  have hrun : (DualColumn.output isprint {} h [0]).map (fun p =>
      (readRecords (DualColumn.record {} p.2) h.oldName [0] ⟨[], textLines p.1⟩).2.result DualColumn.finish) =
      some (some false) := by decide +kernel
  rw [hout, Option.map_some, Option.some.injEq] at hrun
  rw [DualColumn.input, inputLoop_eq, hrun] at hin
  cases hin

end Renameutils
