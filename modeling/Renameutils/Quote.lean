import Renameutils.CString

/-!
# Quoted names (`quote.c`)

Names are written to the edit file and to file lists in quoted form: one line without control
characters, whatever bytes the name has. `Encodes` says which quoted forms a name has;
`dequoteOutputFile` reads all of them back, and `quoteOutputFile` writes one of them. Texts of 2³¹ bytes and more are
left out: there the `int` lengths of `quote.c` and the `int32_t` positions of the string buffer end.
-/

namespace Renameutils
open CString

/-- The value of a `char`, which is signed. -/
def charValue (b : UInt8) : Int := if b.toNat < 128 then b.toNat else (b.toNat : Int) - 256

/-- `"abtnvfr"`. -/
def cAbbrevs : CString := [97, 98, 116, 110, 118, 102, 114]

def isOctalDigit (c : UInt8) : Bool := 48 ≤ charValue c ∧ charValue c ≤ 55

def octalToChar (c₀ c₁ c₂ : UInt8) : UInt8 :=
  UInt8.ofInt ((charValue c₀ - 48) * 64 + (charValue c₁ - 48) * 8 + (charValue c₂ - 48))

/-- The octal digit of value `n`. -/
def octalDigit (n : Nat) : UInt8 := UInt8.ofNat (48 + n)

/-- What `%03o` prints for a number below 512. -/
def octal3 (n : Nat) : CString := [octalDigit (n / 64), octalDigit (n / 8 % 8), octalDigit (n % 8)]

/-- `strbuf_append_char`. The character is added as a string of length 1, and NUL is none. -/
def strbufAppendChar (res : CString) (c : UInt8) : CString := if c = 0 then res else res ++ [c]

def quoteChar (isprint : UInt8 → Bool) (c : UInt8) : CString :=
  if c = backslash then [backslash, backslash]
  else if isprint c then strbufAppendChar [] c
  else if 7 ≤ charValue c ∧ charValue c ≤ 13 then
    [backslash, cAbbrevs.getD (charValue c - 7).toNat 0]
  else backslash :: octal3 (charValue c % 256).toNat -- `t[c] & 0xFF`

def quoteOutputFile (isprint : UInt8 → Bool) (t : CString) : CString := t.flatMap (quoteChar isprint)

/-- The loop of `dequote_output_file` over what is left of `str`. -/
def dequoteLoop : CString → CString → Option CString
  | [], res => some res
  | c :: str, res =>
    if c = backslash then
      match str with
      | [] => none
      | c₀ :: str =>
        if isOctalDigit c₀ then
          match str with
          | c₁ :: c₂ :: str =>
            if isOctalDigit c₁ && isOctalDigit c₂ then
              dequoteLoop str (strbufAppendChar res (octalToChar c₀ c₁ c₂))
            else none
          | _ => none
        else match cAbbrevs.idxOf? c₀ with
          | some i => dequoteLoop str (strbufAppendChar res (UInt8.ofNat (7 + i)))
          | none => dequoteLoop str (strbufAppendChar res c₀)
    else dequoteLoop str (strbufAppendChar res c)

def dequoteOutputFile (str : CString) : Option CString := dequoteLoop str []

section
variable {c₀ c₁ c₂ : UInt8} {str res : CString}

theorem dequoteLoop_raw (h : c₀ ≠ backslash) :
    dequoteLoop (c₀ :: str) res = dequoteLoop str (strbufAppendChar res c₀) := by
  rw [dequoteLoop.eq_def]
  exact if_neg h

theorem dequoteLoop_octal (h₀ : isOctalDigit c₀ = true) (h₁ : isOctalDigit c₁ = true)
    (h₂ : isOctalDigit c₂ = true) :
    dequoteLoop (backslash :: c₀ :: c₁ :: c₂ :: str) res =
      dequoteLoop str (strbufAppendChar res (octalToChar c₀ c₁ c₂)) := by
  rw [dequoteLoop.eq_def]
  simp only [if_pos, h₀, h₁, h₂, Bool.and_self]

theorem dequoteLoop_escape (h : isOctalDigit c₀ = false) :
    dequoteLoop (backslash :: c₀ :: str) res =
      dequoteLoop str (strbufAppendChar res (((cAbbrevs.idxOf? c₀).map fun i => UInt8.ofNat (7 + i)).getD c₀)) := by
  rw [dequoteLoop.eq_def]
  simp only [if_pos, h, Bool.false_eq_true, if_false]
  cases cAbbrevs.idxOf? c₀ <;> rfl

end

/-! ### The quoted forms of a name -/

/-- The quoted forms of one byte. -/
inductive EncodesByte : UInt8 → CString → Prop
  | raw {c : UInt8} (hc : c ≠ backslash) : EncodesByte c [c]
  | letter {c : UInt8} (i : Fin 7) (hc : c.toNat = 7 + i) : EncodesByte c [backslash, cAbbrevs.get i]
  | octal {c : UInt8} (i j k : Fin 8) (hc : c.toNat = (i * 64 + j * 8 + k : Nat) % 256) :
    EncodesByte c [backslash, octalDigit i, octalDigit j, octalDigit k]
  | self {c : UInt8} (hdigit : ∀ i : Fin 8, c ≠ octalDigit i) (habbrev : c ∉ cAbbrevs) :
    EncodesByte c [backslash, c]

/-- `Encodes s e`: `e` is a quoted form of `s`. -/
inductive Encodes : CString → CString → Prop
  | nil : Encodes [] []
  | cons {c : UInt8} {w s e : CString} (hw : EncodesByte c w) (h : Encodes s e) :
    Encodes (c :: s) (w ++ e)

/-- The control characters of ASCII. -/
def isControl (c : UInt8) : Bool := c < 32 || c = 127

theorem charValue_mod (c : UInt8) : (charValue c % 256).toNat = c.toNat := by
  have := c.toNat_lt
  unfold charValue
  split <;> omega

theorem charValue_octalDigit (i : Fin 8) : charValue (octalDigit i) = 48 + i := by
  revert i; decide

theorem isOctalDigit_octalDigit (i : Fin 8) : isOctalDigit (octalDigit i) = true := by
  rw [isOctalDigit, charValue_octalDigit, decide_eq_true_eq]
  omega

theorem isOctalDigit_iff {c : UInt8} : isOctalDigit c = true ↔ ∃ i : Fin 8, c = octalDigit i := by
  refine ⟨fun h => ?_, fun ⟨i, h⟩ => h ▸ isOctalDigit_octalDigit i⟩
  rw [isOctalDigit, decide_eq_true_eq] at h
  have hlt := c.toNat_lt
  have hc : 48 ≤ c.toNat ∧ c.toNat ≤ 55 := by
    unfold charValue at h
    split at h <;> omega
  refine ⟨⟨c.toNat - 48, by omega⟩, UInt8.toNat_inj.mp ?_⟩
  show c.toNat = (UInt8.ofNat (48 + (c.toNat - 48))).toNat
  rw [UInt8.toNat_ofNat']
  omega

theorem octalToChar_octalDigit (i j k : Fin 8) :
    (octalToChar (octalDigit i) (octalDigit j) (octalDigit k)).toNat = (i * 64 + j * 8 + k : Nat) % 256 := by
  simp only [octalToChar, charValue_octalDigit, UInt8.ofInt, UInt8.toNat_ofNat']
  omega

theorem isOctalDigit_abbrev (i : Fin 7) : isOctalDigit (cAbbrevs.get i) = false := by
  revert i; decide

theorem idxOf_abbrev (i : Fin 7) : cAbbrevs.idxOf? (cAbbrevs.get i) = some i.val := by
  revert i; decide

/-- One step of the loop of `dequote_output_file` takes one quoted byte. -/
theorem dequoteLoop_byte {c : UInt8} {w : CString} (hw : EncodesByte c w) (hc : c ≠ 0) (str res : CString) :
    dequoteLoop (w ++ str) res = dequoteLoop str (res ++ [c]) := by
  have happend : strbufAppendChar res c = res ++ [c] := if_neg hc
  cases hw with
  | raw hb => rw [List.singleton_append, dequoteLoop_raw hb, happend]
  | letter i hv =>
    have hchar : UInt8.ofNat (7 + i) = c := by rw [← hv, UInt8.ofNat_toNat]
    show dequoteLoop (backslash :: cAbbrevs.get i :: str) res = _
    rw [dequoteLoop_escape (isOctalDigit_abbrev i), idxOf_abbrev, Option.map_some, Option.getD_some, hchar,
      happend]
  | octal i j k hv =>
    have hchar : octalToChar (octalDigit i) (octalDigit j) (octalDigit k) = c :=
      UInt8.toNat_inj.mp (by rw [octalToChar_octalDigit, hv])
    show dequoteLoop (backslash :: octalDigit i :: octalDigit j :: octalDigit k :: str) res = _
    rw [dequoteLoop_octal (isOctalDigit_octalDigit i) (isOctalDigit_octalDigit j) (isOctalDigit_octalDigit k),
      hchar, happend]
  | self hdigit habbrev =>
    have hno : isOctalDigit c = false := by
      rw [← Bool.not_eq_true, isOctalDigit_iff]
      exact fun ⟨i, hi⟩ => hdigit i hi
    have hidx : cAbbrevs.idxOf? c = none := List.idxOf?_eq_none_iff.mpr habbrev
    show dequoteLoop (backslash :: c :: str) res = _
    rw [dequoteLoop_escape hno, hidx, Option.map_none, Option.getD_none, happend]

/-- The quoted forms of a name are read back, whatever was read before. -/
theorem dequoteLoop_encodes {s e : CString} (h : Encodes s e) (hs : 0 ∉ s) (res : CString) :
    dequoteLoop e res = some (res ++ s) := by
  induction h generalizing res with
  | nil => rw [dequoteLoop, List.append_nil]
  | @cons c w s e hw _ ih =>
    have hc : c ≠ 0 := fun h => hs (h ▸ List.mem_cons_self)
    rw [dequoteLoop_byte hw hc, ih fun h => hs (List.mem_cons_of_mem _ h), List.append_assoc,
      List.singleton_append]

theorem Encodes.append {s t e f : CString} (h : Encodes s e) (h' : Encodes t f) :
    Encodes (s ++ t) (e ++ f) := by
  induction h with
  | nil => exact h'
  | @cons c w s e hw _ ih =>
    rw [List.append_assoc]
    exact .cons hw ih

theorem Encodes.byte {c : UInt8} {w : CString} (hw : EncodesByte c w) : Encodes [c] w := by
  simpa using Encodes.cons hw .nil

theorem Encodes.dequote {s e : CString} (h : Encodes s e) (hs : 0 ∉ s) : dequoteOutputFile e = some s :=
  dequoteLoop_encodes h hs []

/-! ### What `quote_output_file` writes -/

theorem quoteOutputFile_append (isprint : UInt8 → Bool) (a b : CString) :
    quoteOutputFile isprint (a ++ b) = quoteOutputFile isprint a ++ quoteOutputFile isprint b :=
  List.flatMap_append

theorem quoteOutputFile_singleton (isprint : UInt8 → Bool) (c : UInt8) :
    quoteOutputFile isprint [c] = quoteChar isprint c := List.flatMap_singleton ..

theorem quoteChar_encodes (isprint : UInt8 → Bool) {c : UInt8} (hc : c ≠ 0) :
    EncodesByte c (quoteChar isprint c) := by
  unfold quoteChar
  split
  · rename_i hb
    subst hb
    exact .self (by decide) (by decide)
  rename_i hb
  split
  · rw [strbufAppendChar, if_neg hc]
    exact .raw hb
  split
  · rename_i hr
    have hlt := c.toNat_lt
    have hn : 7 ≤ c.toNat ∧ c.toNat ≤ 13 ∧ (charValue c - 7).toNat = c.toNat - 7 := by
      unfold charValue at hr ⊢
      split at hr <;> split <;> omega
    have h7 : c.toNat - 7 < cAbbrevs.length := by
      rw [show cAbbrevs.length = 7 from rfl]; omega
    rw [hn.2.2, List.getD_eq_getElem?_getD, List.getElem?_eq_getElem h7]
    exact .letter ⟨c.toNat - 7, h7⟩ (by show c.toNat = 7 + (c.toNat - 7); omega)
  · have hlt := c.toNat_lt
    rw [charValue_mod]
    refine .octal ⟨c.toNat / 64, by omega⟩ ⟨c.toNat / 8 % 8, by omega⟩ ⟨c.toNat % 8, by omega⟩ ?_
    show c.toNat = (c.toNat / 64 * 64 + c.toNat / 8 % 8 * 8 + c.toNat % 8) % 256
    omega

theorem quoteOutputFile_encodes (isprint : UInt8 → Bool) {s : CString} (hs : 0 ∉ s) :
    Encodes s (quoteOutputFile isprint s) := by
  induction s with
  | nil => exact .nil
  | cons c s ih =>
    have hc : c ≠ 0 := fun h => hs (h ▸ List.mem_cons_self)
    exact .cons (quoteChar_encodes isprint hc) (ih fun h => hs (List.mem_cons_of_mem _ h))

theorem isControl_quoteChar {isprint : UInt8 → Bool} (hprint : ∀ c, isControl c = true → isprint c = false)
    {c b : UInt8} (hb : b ∈ quoteChar isprint c) : isControl b = false := by
  have hdigit : ∀ n < 8, isControl (octalDigit n) = false := by decide
  have hlt := c.toNat_lt
  unfold quoteChar at hb
  split at hb
  · simp only [List.mem_cons, List.not_mem_nil, or_false, or_self] at hb
    rw [hb]; rfl
  split at hb
  · rename_i hp
    have hbc : b = c := by
      unfold strbufAppendChar at hb
      split at hb <;> simp at hb
      exact hb
    rw [hbc, ← Bool.not_eq_true]
    exact fun h => absurd (hprint c h) (by rw [hp]; simp)
  split at hb
  · rename_i hr
    rcases List.mem_cons.mp hb with rfl | hb
    · rfl
    · rw [List.mem_singleton.mp hb]
      have h7 : (charValue c - 7).toNat < 7 := by omega
      have habbrev : ∀ n < 7, isControl (cAbbrevs.getD n 0) = false := by decide
      exact habbrev _ h7
  · rw [charValue_mod] at hb
    simp only [octal3, List.mem_cons, List.not_mem_nil, or_false] at hb
    rcases hb with rfl | rfl | rfl | rfl
    · rfl
    all_goals exact hdigit _ (by omega)

theorem isControl_quoteOutputFile {isprint : UInt8 → Bool}
    (hprint : ∀ c, isControl c = true → isprint c = false) {s : CString} {b : UInt8}
    (hb : b ∈ quoteOutputFile isprint s) : isControl b = false := by
  obtain ⟨c, _, hb⟩ := List.mem_flatMap.mp hb
  exact isControl_quoteChar hprint hb

/-! ### Locales in which ASCII can be printed -/

/-- A locale in which ASCII can be printed, and control characters can not. -/
structure PrintsAscii (isprint : UInt8 → Bool) : Prop where
  control : ∀ c, isControl c = true → isprint c = false
  ascii : ∀ c : UInt8, 32 ≤ c → c ≤ 126 → isprint c = true

theorem printsAscii : PrintsAscii fun c => 32 ≤ c && c < 127 where
  control c hc := by
    simp only [isControl, Bool.or_eq_true, decide_eq_true_eq, UInt8.lt_iff_toNat_lt] at hc
    rcases hc with hc | rfl
    · have hno : ¬ 32 ≤ c := by
        rw [UInt8.le_iff_toNat_le]
        simp only [UInt8.toNat_ofNat] at hc ⊢
        omega
      simp [hno]
    · decide
  ascii c h₁ h₂ := by
    have hlt : c < 127 := by
      rw [UInt8.le_iff_toNat_le] at h₂
      rw [UInt8.lt_iff_toNat_lt]
      simp only [UInt8.toNat_ofNat] at h₂ ⊢
      omega
    simp [h₁, hlt]

section
variable {isprint : UInt8 → Bool}

namespace PrintsAscii

theorem quoteChar_space (hp : PrintsAscii isprint) : quoteChar isprint space = [space] := by
  rw [quoteChar, if_neg (by decide), if_pos (hp.ascii space (by decide) (by decide))]
  rfl

theorem quote_spaces (hp : PrintsAscii isprint) (n : Nat) :
    quoteOutputFile isprint (List.replicate n space) = List.replicate n space := by
  induction n with
  | zero => rfl
  | succ n ih =>
    rw [List.replicate_succ, ← List.singleton_append, quoteOutputFile_append, quoteOutputFile_singleton,
      hp.quoteChar_space, ih]

theorem tab_notMem_quote (hp : PrintsAscii isprint) (s : CString) : tab ∉ quoteOutputFile isprint s :=
  fun h => absurd (isControl_quoteOutputFile hp.control h) (by decide)

end PrintsAscii

end

/-- A quoted name has no control characters and is read back as the name, as are all other quoted forms
of the name. -/
theorem dequote_quote {isprint : UInt8 → Bool} (hprint : ∀ c, isControl c = true → isprint c = false)
    {s : CString} (hs : 0 ∉ s) :
    (∀ b ∈ quoteOutputFile isprint s, isControl b = false) ∧
      dequoteOutputFile (quoteOutputFile isprint s) = some s ∧
      ∀ e, Encodes s e → dequoteOutputFile e = some s :=
  ⟨fun _ hb => isControl_quoteOutputFile hprint hb,
    dequoteLoop_encodes (quoteOutputFile_encodes isprint hs) hs [],
    fun _ he => dequoteLoop_encodes he hs []⟩

/-- A name with a newline, a backslash and a byte above 127, where only ASCII can be printed. -/
theorem dequote_quote_newline :
    let isprint : UInt8 → Bool := fun c => 32 ≤ c ∧ c < 127
    quoteOutputFile isprint [97, 10, 92, 233] = [97, 92, 110, 92, 92, 92, 51, 53, 49] ∧
      dequoteOutputFile (quoteOutputFile isprint [97, 10, 92, 233]) = some [97, 10, 92, 233] := by
  intro isprint
  have hprint : ∀ c, isControl c = true → isprint c = false := by
    intro c hc
    simp only [isControl, Bool.or_eq_true, decide_eq_true_eq, UInt8.lt_iff_toNat_lt] at hc
    simp only [isprint, decide_eq_false_iff_not, UInt8.le_iff_toNat_le, UInt8.lt_iff_toNat_lt]
    rcases hc with hc | rfl
    · simp only [UInt8.toNat_ofNat] at hc ⊢
      omega
    · decide
  exact ⟨by decide, (dequote_quote hprint (by decide)).2.1⟩

end Renameutils
