import Renameutils.StrBuf

/-!
# Decoding names (`deurlname.c`)

`newName` is what `main` makes of one argument. `urlDecode` is its loop over the last component of the
name alone. The loop never looks back, so what is written as a `%` stays one (`urlDecode_append`), and each
encoding of a component is decoded to it (`urlDecode_encodes`).
-/

namespace Renameutils
open CString

def percent : UInt8 := 37

/-- `isxdigit`, which is the same in all locales. -/
def isxdigit (c : UInt8) : Bool := (48 ≤ c && c ≤ 57) || (65 ≤ c && c ≤ 70) || (97 ≤ c && c ≤ 102)

def hexvalue (c : UInt8) : Int :=
  if 48 ≤ charValue c ∧ charValue c ≤ 57 then charValue c - 48
  else if 65 ≤ charValue c ∧ charValue c ≤ 70 then charValue c - 65 + 10
  else charValue c - 97 + 10

/-- `char newch = (hexvalue(c₁) << 4) | hexvalue(c₂)`, for two hexadecimal digits. -/
def newChar (c₁ c₂ : UInt8) : UInt8 := UInt8.ofNat ((hexvalue c₁).toNat <<< 4 ||| (hexvalue c₂).toNat)

/-- The loop of `main` over what is left of the name. -/
def decodeLoop : CString → StrBuf → StrBuf
  | [], newnamebuf => newnamebuf
  | c :: name, newnamebuf =>
    match name with
    | c₁ :: c₂ :: rest =>
      if c = percent && isxdigit c₁ && isxdigit c₂ then
        let newch := newChar c₁ c₂
        if newch ≠ 0 ∧ newch ≠ slash then decodeLoop rest (newnamebuf.appendChar newch)
        else decodeLoop (c₁ :: c₂ :: rest) (newnamebuf.appendChar c)
      else decodeLoop (c₁ :: c₂ :: rest) (newnamebuf.appendChar c)
    | name => decodeLoop name (newnamebuf.appendChar c)

/-- `strrchr`: the index of the last `c`. -/
def strrchr (str : CString) (c : UInt8) : Option Nat := (str.reverse.idxOf? c).map (str.length - 1 - ·)

/-- The new name of the file `name`; `newnamebuf` is what the name before has left there. -/
def newName (newnamebuf : StrBuf) (name : CString) : StrBuf :=
  let newnamebuf := newnamebuf.clear
  match strrchr name slash with
  | some basename => decodeLoop (name.drop (basename + 1)) (newnamebuf.appendSubstring name 0 (basename + 1 : Nat))
  | none => decodeLoop name newnamebuf

/-- The loop of `main` over the arguments: the calls of `rename`. -/
def renameCalls : List CString → StrBuf → List (CString × CString)
  | [], _ => []
  | name :: args, newnamebuf =>
    let newnamebuf := newName newnamebuf name
    (if name ≠ newnamebuf then [(name, newnamebuf)] else []) ++ renameCalls args newnamebuf

/-! ### The loop -/

/-- What the loop makes of the last component of a name. -/
def urlDecode (component : CString) : CString := decodeLoop component []

/-- `%`, two hexadecimal digits, and the character that they stand for, which the loop writes. -/
structure Decoded (c₁ c₂ newch : UInt8) : Prop where
  digit₁ : isxdigit c₁ = true
  digit₂ : isxdigit c₂ = true
  value : newChar c₁ c₂ = newch
  ne_zero : newch ≠ 0
  ne_slash : newch ≠ slash

section
variable {c c₁ c₂ newch : UInt8} {a b e name rest : CString} {newnamebuf : StrBuf}

theorem decodeLoop_decoded (h : Decoded c₁ c₂ newch) :
    decodeLoop (percent :: c₁ :: c₂ :: rest) newnamebuf = decodeLoop rest (newnamebuf ++ [newch]) := by
  rw [decodeLoop.eq_def]
  simp only [h.digit₁, h.digit₂, decide_true, Bool.and_self, if_true, h.value]
  rw [if_pos ⟨h.ne_zero, h.ne_slash⟩, StrBuf.appendChar_of_ne _ h.ne_zero]

theorem decodeLoop_raw (h : ∀ c₁ c₂ rest newch, c = percent → name = c₁ :: c₂ :: rest → ¬ Decoded c₁ c₂ newch) :
    decodeLoop (c :: name) newnamebuf = decodeLoop name (newnamebuf.appendChar c) := by
  rw [decodeLoop.eq_def]
  dsimp only
  split
  · rename_i c₁ c₂ rest
    split
    · rename_i hdigits
      simp only [Bool.and_eq_true, decide_eq_true_eq] at hdigits
      rw [if_neg fun hch => h c₁ c₂ rest _ hdigits.1.1 rfl ⟨hdigits.1.2, hdigits.2, rfl, hch.1, hch.2⟩]
    · rfl
  · rfl

/-- The loop takes three characters that it decodes, or one that it does not. -/
theorem decode_induction {P : CString → Prop} (nil : P [])
    (decoded : ∀ c₁ c₂ newch rest, Decoded c₁ c₂ newch → P rest → P (percent :: c₁ :: c₂ :: rest))
    (raw : ∀ c name, (∀ c₁ c₂ rest newch, c = percent → name = c₁ :: c₂ :: rest → ¬ Decoded c₁ c₂ newch) →
      P name → P (c :: name)) (name : CString) : P name := by
  induction hn : name.length using Nat.strong_induction_on generalizing name with
  | _ n ih =>
    cases name with
    | nil => exact nil
    | cons c name =>
      by_cases h : ∃ c₁ c₂ rest newch, c = percent ∧ name = c₁ :: c₂ :: rest ∧ Decoded c₁ c₂ newch
      · obtain ⟨c₁, c₂, rest, newch, rfl, rfl, hd⟩ := h
        exact decoded c₁ c₂ newch rest hd (ih rest.length (by simp at hn; omega) rest rfl)
      · exact raw c name (fun c₁ c₂ rest newch h₁ h₂ h₃ => h ⟨c₁, c₂, rest, newch, h₁, h₂, h₃⟩)
          (ih name.length (by simp at hn; omega) name rfl)

theorem decodeLoop_eq (name : CString) (newnamebuf : StrBuf) :
    decodeLoop name newnamebuf = newnamebuf ++ urlDecode name := by
  induction name using decode_induction generalizing newnamebuf with
  | nil => exact (List.append_nil _).symm
  | decoded c₁ c₂ newch rest hd ih =>
    rw [urlDecode, decodeLoop_decoded hd, decodeLoop_decoded hd, ih, List.nil_append, ih [newch],
      List.append_assoc]
  | raw c name hraw ih =>
    rw [urlDecode, decodeLoop_raw hraw, decodeLoop_raw hraw, ih, ih (StrBuf.appendChar [] c),
      StrBuf.appendChar_eq, StrBuf.appendChar_eq, strbufAppendChar, strbufAppendChar]
    split <;> simp

@[simp] theorem urlDecode_nil : urlDecode [] = [] := rfl

theorem urlDecode_cons_raw
    (h : ∀ c₁ c₂ rest newch, c = percent → name = c₁ :: c₂ :: rest → ¬ Decoded c₁ c₂ newch) :
    urlDecode (c :: name) = StrBuf.appendChar [] c ++ urlDecode name := by
  rw [urlDecode, decodeLoop_raw h, decodeLoop_eq]

theorem urlDecode_decoded (h : Decoded c₁ c₂ newch) :
    urlDecode (percent :: c₁ :: c₂ :: rest) = newch :: urlDecode rest := by
  rw [urlDecode, decodeLoop_decoded h, decodeLoop_eq]
  rfl

theorem urlDecode_raw (hc : c ≠ 0)
    (h : ∀ c₁ c₂ rest newch, c = percent → name = c₁ :: c₂ :: rest → ¬ Decoded c₁ c₂ newch) :
    urlDecode (c :: name) = c :: urlDecode name := by
  rw [urlDecode_cons_raw h, StrBuf.appendChar_of_ne _ hc]
  rfl

theorem urlDecode_cons (hc : c ≠ 0) (hp : c ≠ percent) : urlDecode (c :: name) = c :: urlDecode name :=
  urlDecode_raw hc fun _ _ _ _ h => absurd h hp

theorem isxdigit_percent : isxdigit percent = false := by decide

/-- No decoding reaches over a `%`. -/
theorem urlDecode_append (a b : CString) :
    urlDecode (a ++ percent :: b) = urlDecode a ++ urlDecode (percent :: b) := by
  induction a using decode_induction with
  | nil => rfl
  | decoded c₁ c₂ newch rest hd ih =>
    rw [urlDecode_decoded hd, List.cons_append, List.cons_append, List.cons_append, urlDecode_decoded hd, ih]
    rfl
  | raw c a hraw ih =>
    have hraw' : ∀ c₁ c₂ rest newch, c = percent → a ++ percent :: b = c₁ :: c₂ :: rest → ¬ Decoded c₁ c₂ newch := by
      intro c₁ c₂ rest newch hc heq hd
      match a with
      | [] =>
        obtain ⟨rfl, _⟩ := List.cons.inj heq
        exact absurd hd.digit₁ (by rw [isxdigit_percent]; decide)
      | [a₁] =>
        obtain ⟨_, heq⟩ := List.cons.inj heq
        obtain ⟨rfl, _⟩ := List.cons.inj heq
        exact absurd hd.digit₂ (by rw [isxdigit_percent]; decide)
      | a₁ :: a₂ :: a =>
        simp only [List.cons_append, List.cons.injEq] at heq
        obtain ⟨rfl, rfl, _⟩ := heq
        exact hraw _ _ a newch hc rfl hd
    rw [List.cons_append, urlDecode_cons_raw hraw', urlDecode_cons_raw hraw, ih, List.append_assoc]

theorem slash_notMem_urlDecode (h : slash ∉ name) : slash ∉ urlDecode name := by
  induction name using decode_induction with
  | nil => exact h
  | decoded c₁ c₂ newch rest hd ih =>
    rw [urlDecode_decoded hd, List.mem_cons, not_or]
    exact ⟨Ne.symm hd.ne_slash, ih fun hm => h (by simp [hm])⟩
  | raw c name hraw ih =>
    have hname := ih fun hm => h (List.mem_cons_of_mem _ hm)
    by_cases hc : c = 0
    · rw [urlDecode_cons_raw hraw, StrBuf.appendChar_eq, strbufAppendChar, if_pos hc]
      exact hname
    · rw [urlDecode_raw hc hraw, List.mem_cons, not_or]
      exact ⟨fun hs => h (hs ▸ List.mem_cons_self), hname⟩

/-! ### Encodings -/

def lowerHex : CString := [48, 49, 50, 51, 52, 53, 54, 55, 56, 57, 97, 98, 99, 100, 101, 102]

def upperHex : CString := [48, 49, 50, 51, 52, 53, 54, 55, 56, 57, 65, 66, 67, 68, 69, 70]

/-- The hexadecimal digits of value `v`, of either case. -/
def HexDigit (v : Fin 16) (c : UInt8) : Prop := c = lowerHex.get v ∨ c = upperHex.get v

/-- `UrlEncodes b e`: `e` is an encoding of `b`, in which `%` is encoded and other bytes may be. -/
inductive UrlEncodes : CString → CString → Prop
  | nil : UrlEncodes [] []
  | raw {c : UInt8} {b e : CString} (hc : c ≠ percent) (h : UrlEncodes b e) : UrlEncodes (c :: b) (c :: e)
  | hex {c c₁ c₂ : UInt8} {b e : CString} (v w : Fin 16) (hc : c.toNat = v * 16 + w) (h₁ : HexDigit v c₁)
    (h₂ : HexDigit w c₂) (h : UrlEncodes b e) : UrlEncodes (c :: b) (percent :: c₁ :: c₂ :: e)

/-- `LeftAsWritten seq rest`: what starts with a `%`, before `rest`, and is no encoding of a character that
a name can have: `%2f`, `%00`, and a `%` without two digits after it, with the one digit that it may have. -/
inductive LeftAsWritten : CString → CString → Prop
  | reserved {c₁ c₂ : UInt8} (v w : Fin 16) (hc : (v * 16 + w : Nat) = 0 ∨ (v * 16 + w : Nat) = 47)
    (h₁ : HexDigit v c₁) (h₂ : HexDigit w c₂) (rest : CString) : LeftAsWritten [percent, c₁, c₂] rest
  | noDigit {rest : CString} (h : ∀ c ∈ rest.head?, ∀ v, ¬ HexDigit v c) : LeftAsWritten [percent] rest
  | oneDigit {c₁ : UInt8} {rest : CString} (v : Fin 16) (h₁ : HexDigit v c₁)
    (h : ∀ c ∈ rest.head?, ∀ v, ¬ HexDigit v c) : LeftAsWritten [percent, c₁] rest

theorem hexvalue_hexDigit {v : Fin 16} (h : HexDigit v c) : hexvalue c = v := by
  have hlower : ∀ v : Fin 16, hexvalue (lowerHex.get v) = v := by decide
  have hupper : ∀ v : Fin 16, hexvalue (upperHex.get v) = v := by decide
  rcases h with rfl | rfl
  · exact hlower v
  · exact hupper v

theorem isxdigit_iff : isxdigit c = true ↔ ∃ v, HexDigit v c := by
  constructor
  · intro h
    have hmem : ∀ n < 256, isxdigit (UInt8.ofNat n) = true →
        UInt8.ofNat n ∈ lowerHex ∨ UInt8.ofNat n ∈ upperHex := by decide +kernel
    have hc := hmem c.toNat c.toNat_lt
    rw [UInt8.ofNat_toNat] at hc
    rcases hc h with hc | hc
    · obtain ⟨v, hv⟩ := List.get_of_mem hc
      exact ⟨v, .inl hv.symm⟩
    · obtain ⟨v, hv⟩ := List.get_of_mem hc
      exact ⟨v, .inr hv.symm⟩
  · have hlower : ∀ c ∈ lowerHex, isxdigit c = true := by decide +kernel
    have hupper : ∀ c ∈ upperHex, isxdigit c = true := by decide +kernel
    rintro ⟨v, rfl | rfl⟩
    · exact hlower _ (List.get_mem _ _)
    · exact hupper _ (List.get_mem _ _)

theorem newChar_hexDigit {v w : Fin 16} (h₁ : HexDigit v c₁) (h₂ : HexDigit w c₂) :
    (newChar c₁ c₂).toNat = v * 16 + w := by
  rw [newChar, hexvalue_hexDigit h₁, hexvalue_hexDigit h₂, Int.toNat_natCast, Int.toNat_natCast,
    ← Nat.shiftLeft_add_eq_or_of_lt (by omega), Nat.shiftLeft_eq, UInt8.toNat_ofNat']
  omega

theorem urlDecode_encodes (h : UrlEncodes b e) (hzero : 0 ∉ b) (hslash : slash ∉ b) : urlDecode e = b := by
  induction h with
  | nil => rfl
  | @raw c b e hc _ ih =>
    simp only [List.mem_cons, not_or] at hzero hslash
    rw [urlDecode_cons (Ne.symm hzero.1) hc, ih hzero.2 hslash.2]
  | @hex c c₁ c₂ b e v w hc h₁ h₂ _ ih =>
    simp only [List.mem_cons, not_or] at hzero hslash
    have hchar : newChar c₁ c₂ = c := UInt8.toNat_inj.mp ((newChar_hexDigit h₁ h₂).trans hc.symm)
    rw [urlDecode_decoded ⟨isxdigit_iff.mpr ⟨v, h₁⟩, isxdigit_iff.mpr ⟨w, h₂⟩, hchar, Ne.symm hzero.1,
      Ne.symm hslash.1⟩, ih hzero.2 hslash.2]

theorem HexDigit.ne {v : Fin 16} (h : HexDigit v c) : c ≠ 0 ∧ c ≠ percent ∧ c ≠ slash := by
  have hlower : ∀ c ∈ lowerHex, c ≠ 0 ∧ c ≠ percent ∧ c ≠ slash := by decide +kernel
  have hupper : ∀ c ∈ upperHex, c ≠ 0 ∧ c ≠ percent ∧ c ≠ slash := by decide +kernel
  rcases h with rfl | rfl
  · exact hlower _ (List.get_mem _ _)
  · exact hupper _ (List.get_mem _ _)

theorem UrlEncodes.slash_notMem (h : UrlEncodes b e) (hslash : slash ∉ b) : slash ∉ e := by
  have hpercent : slash ≠ percent := by decide
  induction h with
  | nil => exact hslash
  | raw _ _ ih =>
    simp only [List.mem_cons, not_or] at hslash ⊢
    exact ⟨hslash.1, ih hslash.2⟩
  | hex _ _ _ h₁ h₂ _ ih =>
    simp only [List.mem_cons, not_or] at hslash ⊢
    exact ⟨hpercent, Ne.symm h₁.ne.2.2, Ne.symm h₂.ne.2.2, ih hslash.2⟩

theorem LeftAsWritten.ne_nil {seq : CString} (h : LeftAsWritten seq rest) : ∃ seq', seq = percent :: seq' := by
  cases h with
  | reserved _ _ _ _ _ => exact ⟨_, rfl⟩
  | noDigit _ => exact ⟨_, rfl⟩
  | oneDigit _ _ _ => exact ⟨_, rfl⟩

theorem LeftAsWritten.urlDecode {seq : CString} (h : LeftAsWritten seq rest) :
    urlDecode (seq ++ rest) = seq ++ urlDecode rest := by
  have hzero : percent ≠ 0 := by decide
  cases h with
  | @reserved c₁ c₂ v w hc h₁ h₂ =>
    have hraw : ∀ d₁ d₂ r newch, percent = percent → c₁ :: c₂ :: rest = d₁ :: d₂ :: r → ¬ Decoded d₁ d₂ newch := by
      rintro d₁ d₂ r newch - heq hd
      simp only [List.cons.injEq] at heq
      obtain ⟨rfl, rfl, _⟩ := heq
      have hvalue := newChar_hexDigit h₁ h₂
      rw [hd.value] at hvalue
      rcases hc with hc | hc
      · exact hd.ne_zero (UInt8.toNat_inj.mp (hvalue.trans hc))
      · exact hd.ne_slash (UInt8.toNat_inj.mp (hvalue.trans hc))
    rw [List.cons_append, List.cons_append, List.cons_append, List.nil_append, urlDecode_raw hzero hraw,
      urlDecode_cons h₁.ne.1 h₁.ne.2.1, urlDecode_cons h₂.ne.1 h₂.ne.2.1]
    rfl
  | noDigit h =>
    refine urlDecode_raw hzero fun c₁ c₂ r newch _ heq hd => ?_
    subst heq
    obtain ⟨v, hv⟩ := isxdigit_iff.mp hd.digit₁
    exact h c₁ rfl v hv
  | @oneDigit c₁ _ v h₁ h =>
    have hraw : ∀ d₁ d₂ r newch, percent = percent → c₁ :: rest = d₁ :: d₂ :: r → ¬ Decoded d₁ d₂ newch := by
      rintro d₁ d₂ r newch - heq hd
      obtain ⟨rfl, rfl⟩ := List.cons.inj heq
      obtain ⟨w, hw⟩ := isxdigit_iff.mp hd.digit₂
      exact h d₂ rfl w hw
    rw [List.cons_append, List.cons_append, List.nil_append, urlDecode_raw hzero hraw,
      urlDecode_cons h₁.ne.1 h₁.ne.2.1]
    rfl

/-! ### The last slash -/

theorem strrchr_of_notMem (h : c ∉ name) : strrchr name c = none := by
  rw [strrchr, List.idxOf?_eq_none_iff.mpr (by simpa using h)]
  rfl

theorem strrchr_append (h : c ∉ b) : strrchr (a ++ c :: b) c = some a.length := by
  have hidx : (b.reverse ++ c :: a.reverse).idxOf? c = some b.length := by
    have hnone := List.idxOf?_eq_none_iff.mpr (show c ∉ b.reverse by simpa using h)
    rw [List.idxOf?] at hnone ⊢
    rw [List.findIdx?_append, hnone]
    simp [List.findIdx?_cons]
  rw [strrchr, List.reverse_append, List.reverse_cons, List.append_assoc, List.singleton_append, hidx]
  simp

/-- A directory prefix: empty, or the text up to and including a slash. -/
def DirPrefix (dir : CString) : Prop := dir = [] ∨ ∃ d, dir = d ++ [slash]

variable {dir base : CString}

theorem newName_split (hdir : DirPrefix dir) (hbase : slash ∉ base) :
    newName newnamebuf (dir ++ base) = dir ++ urlDecode base := by
  rcases hdir with rfl | ⟨d, rfl⟩
  · rw [List.nil_append, newName, strrchr_of_notMem hbase, StrBuf.clear_eq]
    rfl
  · have htext : d ++ [slash] ++ base = d ++ slash :: base := by simp
    have hlen : d.length + 1 = (d ++ [slash]).length := by simp
    rw [htext, newName, strrchr_append hbase, StrBuf.clear_eq]
    dsimp only
    rw [StrBuf.appendSubstring_prefix, ← htext, hlen, List.take_left, List.drop_left, List.nil_append,
      decodeLoop_eq]

theorem newName_base (hbase : slash ∉ base) : newName newnamebuf base = urlDecode base :=
  newName_split (.inl rfl) hbase

theorem exists_split (name : CString) : ∃ dir base, name = dir ++ base ∧ DirPrefix dir ∧ slash ∉ base := by
  by_cases h : slash ∈ name
  · obtain ⟨as, bs, hrev, has⟩ := List.eq_append_cons_of_mem (List.mem_reverse.mpr h)
    refine ⟨bs.reverse ++ [slash], as.reverse, ?_, .inr ⟨_, rfl⟩, by simpa using has⟩
    rw [← List.reverse_reverse name, hrev]
    simp
  · exact ⟨[], name, rfl, .inl rfl, h⟩

theorem newName_buf (buf buf' : StrBuf) (name : CString) : newName buf name = newName buf' name := by
  obtain ⟨dir, base, rfl, hdir, hbase⟩ := exists_split name
  rw [newName_split hdir hbase, newName_split hdir hbase]

theorem renameCalls_eq (args : List CString) (newnamebuf : StrBuf) :
    renameCalls args newnamebuf =
      (args.filter (fun name => decide (name ≠ newName [] name))).map fun name => (name, newName [] name) := by
  induction args generalizing newnamebuf with
  | nil => rfl
  | cons name args ih =>
    rw [renameCalls, ih, newName_buf newnamebuf [] name]
    by_cases h : name = newName [] name
    · rw [if_neg (not_not.mpr h), List.filter_cons_of_neg (by simpa using h)]
      rfl
    · rw [if_pos h, List.filter_cons_of_pos (by simpa using h)]
      rfl

end

/-- An encoded component is decoded to the name that it encodes. In any name the loop decodes the last
component only, makes no slash there, and leaves what is no encoding as it is written. -/
theorem decodes_once (newnamebuf : StrBuf) :
    (∀ dir b e, DirPrefix dir → 0 ∉ b → slash ∉ b → UrlEncodes b e → newName newnamebuf (dir ++ e) = dir ++ b) ∧
    ∀ name, ∃ dir base, name = dir ++ base ∧ DirPrefix dir ∧ slash ∉ base ∧
      newName newnamebuf name = dir ++ newName newnamebuf base ∧ slash ∉ newName newnamebuf base ∧
      ∀ x seq y, base = x ++ seq ++ y → LeftAsWritten seq y →
        newName newnamebuf base = newName newnamebuf x ++ seq ++ newName newnamebuf y := by
  refine ⟨fun dir b e hdir hzero hslash h => ?_, fun name => ?_⟩
  · rw [newName_split hdir (h.slash_notMem hslash), urlDecode_encodes h hzero hslash]
  obtain ⟨dir, base, rfl, hdir, hbase⟩ := exists_split name
  refine ⟨dir, base, rfl, hdir, hbase, ?_, ?_, ?_⟩
  · rw [newName_split hdir hbase, newName_base hbase]
  · rw [newName_base hbase]
    exact slash_notMem_urlDecode hbase
  rintro x seq y rfl hseq
  have hx : slash ∉ x := fun h => hbase (by simp [h])
  have hy : slash ∉ y := fun h => hbase (by simp [h])
  obtain ⟨seq', rfl⟩ := hseq.ne_nil
  rw [newName_base hbase, newName_base hx, newName_base hy, List.append_assoc, List.cons_append,
    urlDecode_append, ← List.cons_append, hseq.urlDecode, List.append_assoc]

/-- `d/%41%2541` is an encoding of `d/A%41`. -/
theorem decodes_once_nested : newName [] [100, 47, 37, 52, 49, 37, 50, 53, 52, 49] = [100, 47, 65, 37, 52, 49] :=
  (decodes_once []).1 [100, 47] [65, 37, 52, 49] [37, 52, 49, 37, 50, 53, 52, 49] (.inr ⟨[100], rfl⟩) (by decide)
    (by decide) (.hex 4 1 rfl (.inl rfl) (.inl rfl) (.hex 2 5 rfl (.inl rfl) (.inl rfl)
      (.raw (by decide) (.raw (by decide) .nil))))

end Renameutils
