import Renameutils.Quote
import Mathlib.Algebra.Group.Int.Defs
import Mathlib.Algebra.Group.Nat.Defs

/-!
# Parsing integers (`common/intutil.c`)

The eight functions differ in their types and their limits. `value` is kept as an integer, with the
conversion to the type of the variable at each assignment; `computed` is what the expressions that are
assigned come to before that. Each function takes the value that the output variable has before the call.

All are exact on every string but one: the functions for unsigned types take the empty string for 0
(`parse_exact_iff`).
-/

namespace Renameutils
open CString

/-- An integer type of C: its limits, and the conversion to it. -/
structure IntType where
  min : Int
  max : Int
  convert : Int → Int

namespace IntType

def signed (bits : Nat) : IntType where
  min := -2 ^ (bits - 1)
  max := 2 ^ (bits - 1) - 1
  convert x := x.bmod (2 ^ bits)

def unsigned (bits : Nat) : IntType where
  min := 0
  max := 2 ^ bits - 1
  convert x := x % 2 ^ bits

end IntType

/-- `int8_t c = *instr - '0'`. -/
def digitOf (ch : UInt8) : Int := (IntType.signed 8).convert (charValue ch - 48)

/-- How a loop ends: with `value`, or with `return false`. -/
structure DigitScan where
  value : Option Int
  computed : List Int
deriving DecidableEq, Repr

namespace DigitScan

def returnFalse : DigitScan := ⟨none, []⟩

def compute (xs : List Int) (scan : DigitScan) : DigitScan := { scan with computed := xs ++ scan.computed }

end DigitScan

/-- The loop over the digits of a number that is not negative. -/
def positiveLoop (t : IntType) : CString → Int → DigitScan
  | [], value => ⟨some value, []⟩
  | ch :: instr, value =>
    let c := digitOf ch
    if c < 0 ∨ 9 < c then .returnFalse
    else if t.max.tdiv 10 < value ∨ value = t.max.tdiv 10 ∧ t.max.tmod 10 < c then .returnFalse
    else (positiveLoop t instr (t.convert (value * 10 + c))).compute [value * 10, value * 10 + c]

/-- The loop over the digits of a number with a sign. -/
def negativeLoop (t : IntType) : CString → Int → DigitScan
  | [], value => ⟨some value, []⟩
  | ch :: instr, value =>
    let c := digitOf ch
    if c < 0 ∨ 9 < c then .returnFalse
    else if value < t.min.tdiv 10 ∨ value = t.min.tdiv 10 ∧ -t.min.tmod 10 < c then .returnFalse
    else (negativeLoop t instr (t.convert (value * 10 - c))).compute [value * 10, value * 10 - c]

/-- What a function returns, the output variable after it, and what it has computed on the way. -/
structure Parsed where
  result : Bool
  outint : Int
  computed : List Int
deriving DecidableEq, Repr

/-- The end of a function. -/
def DigitScan.finish (scan : DigitScan) (outint : Int) : Parsed :=
  ⟨scan.value.isSome, scan.value.getD outint, scan.computed⟩

def parseSigned (t : IntType) (instr : CString) (outint : Int) : Parsed :=
  match instr with
  | ch :: instr =>
    if ch = dash then
      if instr = [] then DigitScan.returnFalse.finish outint else (negativeLoop t instr 0).finish outint
    else (positiveLoop t (ch :: instr) 0).finish outint
  | [] => DigitScan.returnFalse.finish outint

def parseUnsigned (t : IntType) (instr : CString) (outint : Int) : Parsed := (positiveLoop t instr 0).finish outint

def parseInt8 : CString → Int → Parsed := parseSigned (.signed 8)
def parseInt16 : CString → Int → Parsed := parseSigned (.signed 16)
def parseInt32 : CString → Int → Parsed := parseSigned (.signed 32)
def parseInt64 : CString → Int → Parsed := parseSigned (.signed 64)
def parseUint8 : CString → Int → Parsed := parseUnsigned (.unsigned 8)
def parseUint16 : CString → Int → Parsed := parseUnsigned (.unsigned 16)
def parseUint32 : CString → Int → Parsed := parseUnsigned (.unsigned 32)
def parseUint64 : CString → Int → Parsed := parseUnsigned (.unsigned 64)

/-- The functions. -/
inductive ParseInt where
  | int8 | int16 | int32 | int64 | uint8 | uint16 | uint32 | uint64
deriving DecidableEq, Repr

namespace ParseInt

def isSigned : ParseInt → Bool
  | int8 | int16 | int32 | int64 => true
  | uint8 | uint16 | uint32 | uint64 => false

/-- The type of `*outint`. -/
def type : ParseInt → IntType
  | int8 => .signed 8
  | int16 => .signed 16
  | int32 => .signed 32
  | int64 => .signed 64
  | uint8 => .unsigned 8
  | uint16 => .unsigned 16
  | uint32 => .unsigned 32
  | uint64 => .unsigned 64

def run : ParseInt → CString → Int → Parsed
  | int8 => parseInt8
  | int16 => parseInt16
  | int32 => parseInt32
  | int64 => parseInt64
  | uint8 => parseUint8
  | uint16 => parseUint16
  | uint32 => parseUint32
  | uint64 => parseUint64

end ParseInt

/-! ### Numerals -/

def isDigit (ch : UInt8) : Bool := 48 ≤ ch && ch ≤ 57

/-- The number that the digits of a string make when they come after those of `n`. -/
def numberAfter (n : Nat) (digits : CString) : Nat := digits.foldl (fun n ch => n * 10 + (ch.toNat - 48)) n

/-- `s` is a numeral of `v`: one digit or more, after a `-` if the numeral has a sign. -/
inductive Denotes (isSigned : Bool) : CString → Int → Prop
  | digits {digits : CString} (hne : digits ≠ []) (hdigits : ∀ ch ∈ digits, isDigit ch = true) :
    Denotes isSigned digits (numberAfter 0 digits)
  | dash {digits : CString} (hsigned : isSigned = true) (hne : digits ≠ [])
    (hdigits : ∀ ch ∈ digits, isDigit ch = true) : Denotes isSigned (dash :: digits) (-numberAfter 0 digits)

/-- The call has parsed `s` exactly: it returns true for the numerals of the numbers of the type, and gives
that number; it returns false for all other strings, and leaves the output variable as it was; and it has
computed no number that is not of the type. -/
structure ParsesExactly (isSigned : Bool) (t : IntType) (s : CString) (outint : Int) (p : Parsed) : Prop where
  result_iff : p.result = true ↔ ∃ v, Denotes isSigned s v ∧ t.min ≤ v ∧ v ≤ t.max
  value : p.result = true → Denotes isSigned s p.outint ∧ t.min ≤ p.outint ∧ p.outint ≤ t.max
  unchanged : p.result = false → p.outint = outint
  inRange : ∀ x ∈ p.computed, t.min ≤ x ∧ x ≤ t.max

/-! ### The loops -/

section
variable {t : IntType} {ch : UInt8} {n : Nat} {s : CString} {v x : Int}

theorem digitOf_of_isDigit (h : isDigit ch = true) : digitOf ch = (ch.toNat - 48 : Nat) ∧ digitOf ch ≤ 9 := by
  simp only [isDigit, Bool.and_eq_true, decide_eq_true_eq, UInt8.le_iff_toNat_le, UInt8.toNat_ofNat] at h
  have hval : charValue ch = ch.toNat := by rw [charValue, if_pos (by omega)]
  rw [digitOf, hval]
  simp only [IntType.signed, Int.bmod]
  omega

theorem digitOf_of_not (h : isDigit ch = false) : digitOf ch < 0 ∨ 9 < digitOf ch := by
  rw [← Bool.not_eq_true] at h
  simp only [isDigit, Bool.and_eq_true, decide_eq_true_eq, UInt8.le_iff_toNat_le, UInt8.toNat_ofNat] at h
  have hlt := ch.toNat_lt
  have hsize : (2 ^ 8 : Nat) = 256 := rfl
  simp only [digitOf, IntType.signed, hsize, Int.bmod]
  rw [charValue]
  by_cases h128 : ch.toNat < 128
  · rw [if_pos h128]
    omega
  · rw [if_neg h128]
    omega

theorem numberAfter_cons : numberAfter n (ch :: s) = numberAfter (n * 10 + (ch.toNat - 48)) s :=
  List.foldl_cons ..

theorem le_numberAfter (n : Nat) (s : CString) : n ≤ numberAfter n s := by
  induction s generalizing n with
  | nil => exact le_rfl
  | cons ch s ih => exact (by omega : n ≤ n * 10 + (ch.toNat - 48)).trans (ih _)

/-- The loop keeps what it has read so far in `value`. The guard is false for the next digit exactly if the
number with it is not above the limit. -/
theorem positiveLoop_spec (hconv : ∀ x, 0 ≤ x → x ≤ t.max → t.convert x = x) (hn : (n : Int) ≤ t.max) :
    (∀ v, (positiveLoop t s n).value = some v ↔
      (∀ ch ∈ s, isDigit ch = true) ∧ v = numberAfter n s ∧ v ≤ t.max) ∧
    ∀ x ∈ (positiveLoop t s n).computed, 0 ≤ x ∧ x ≤ t.max := by
  induction s generalizing n with
  | nil =>
    refine ⟨fun v => ⟨fun h => ?_, fun h => congrArg some h.2.1.symm⟩, by simp [positiveLoop]⟩
    obtain rfl := Option.some.inj h
    exact ⟨by simp, rfl, hn⟩
  | cons ch s ih =>
    rw [positiveLoop]
    cases hd : isDigit ch with
    | false =>
      rw [if_pos (digitOf_of_not hd)]
      simp [DigitScan.returnFalse, hd]
    | true =>
      obtain ⟨hc, hle⟩ := digitOf_of_isDigit hd
      rw [if_neg (by omega)]
      have hmax : 0 ≤ t.max := by omega
      rw [Int.tdiv_eq_ediv_of_nonneg hmax, Int.tmod_eq_emod_of_nonneg hmax]
      by_cases hfits : t.max / 10 < n ∨ (n : Int) = t.max / 10 ∧ t.max % 10 < digitOf ch
      · rw [if_pos hfits]
        have hover : t.max < (n * 10 + (ch.toNat - 48) : Nat) := by omega
        have hge := le_numberAfter (n * 10 + (ch.toNat - 48)) s
        refine ⟨fun v => ⟨(nomatch ·), fun ⟨_, h₁, h₂⟩ => ?_⟩, by simp [DigitScan.returnFalse]⟩
        rw [numberAfter_cons] at h₁
        omega
      · rw [if_neg hfits]
        have hnext : (n : Int) * 10 + digitOf ch = (n * 10 + (ch.toNat - 48) : Nat) := by omega
        have hn' : ((n * 10 + (ch.toNat - 48) : Nat) : Int) ≤ t.max := by omega
        rw [hnext, hconv _ (Int.natCast_nonneg _) hn']
        obtain ⟨hvalue, hcomputed⟩ := ih hn'
        refine ⟨fun v => ?_, ?_⟩
        · rw [DigitScan.compute, hvalue, numberAfter_cons, List.forall_mem_cons]
          simp [hd]
        · simp only [DigitScan.compute, List.cons_append, List.nil_append, List.forall_mem_cons]
          exact ⟨by omega, ⟨Int.natCast_nonneg _, hn'⟩, hcomputed⟩

/-- The numbers of the type with the other sign. -/
def IntType.neg (t : IntType) : IntType := ⟨-t.max, -t.min, fun x => -t.convert (-x)⟩

def DigitScan.neg (scan : DigitScan) : DigitScan := ⟨scan.value.map (-·), scan.computed.map (-·)⟩

/-- The loop for numbers with a sign is the other one with all signs exchanged. -/
theorem negativeLoop_eq (t : IntType) (s : CString) (v : Int) :
    negativeLoop t s (-v) = (positiveLoop t.neg s v).neg := by
  induction s generalizing v with
  | nil => rfl
  | cons ch s ih =>
    have hdiv : t.neg.max.tdiv 10 = -t.min.tdiv 10 := Int.neg_tdiv ..
    have hmod : t.neg.max.tmod 10 = -t.min.tmod 10 := Int.neg_tmod ..
    have hguard : -v < t.min.tdiv 10 ∨ -v = t.min.tdiv 10 ∧ -t.min.tmod 10 < digitOf ch ↔
        t.neg.max.tdiv 10 < v ∨ v = t.neg.max.tdiv 10 ∧ t.neg.max.tmod 10 < digitOf ch := by
      rw [hdiv, hmod]
      omega
    rw [negativeLoop, positiveLoop]
    split
    · rfl
    simp only [hguard]
    split
    · rfl
    have hconv : t.convert (-v * 10 - digitOf ch) = -t.neg.convert (v * 10 + digitOf ch) := by
      rw [show -v * 10 - digitOf ch = -(v * 10 + digitOf ch) by omega]
      exact (Int.neg_neg _).symm
    rw [hconv, ih]
    simp only [DigitScan.neg, DigitScan.compute, List.map_cons, List.map_append, List.map_nil,
      show -v * 10 = -(v * 10) by omega, show -(v * 10) - digitOf ch = -(v * 10 + digitOf ch) by omega]

theorem negativeLoop_spec (hconv : ∀ x, t.min ≤ x → x ≤ 0 → t.convert x = x) (hmin : t.min ≤ 0) :
    (∀ v, (negativeLoop t s 0).value = some v ↔
      (∀ ch ∈ s, isDigit ch = true) ∧ v = -numberAfter 0 s ∧ t.min ≤ v) ∧
    ∀ x ∈ (negativeLoop t s 0).computed, t.min ≤ x ∧ x ≤ 0 := by
  have hneg : ∀ x, 0 ≤ x → x ≤ t.neg.max → t.neg.convert x = x := by
    intro x h₁ h₂
    have hx : t.convert (-x) = -x := hconv (-x) (by simp only [IntType.neg] at h₂; omega) (by omega)
    show -t.convert (-x) = x
    rw [hx, Int.neg_neg]
  obtain ⟨hvalue, hcomputed⟩ := positiveLoop_spec (n := 0) (s := s) hneg (by simp only [IntType.neg]; omega)
  rw [show (0 : Int) = -(0 : Nat) from rfl, negativeLoop_eq]
  refine ⟨fun v => ?_, fun x hx => ?_⟩
  · have hsome : ((positiveLoop t.neg s (0 : Nat)).neg).value = some v ↔
        (positiveLoop t.neg s (0 : Nat)).value = some (-v) := by
      simp only [DigitScan.neg, Option.map_eq_some_iff]
      constructor
      · rintro ⟨w, hw, rfl⟩
        rwa [Int.neg_neg]
      · exact fun h => ⟨-v, h, Int.neg_neg v⟩
    rw [hsome, hvalue]
    refine and_congr_right fun _ => ?_
    simp only [IntType.neg]
    omega
  · obtain ⟨y, hy, rfl⟩ := List.mem_map.mp hx
    have := hcomputed y hy
    simp only [IntType.neg] at this
    omega

/-! ### The functions -/

theorem isDigit_dash : isDigit dash = false := by decide

theorem denotes_digits {isSigned : Bool} (hne : s ≠ []) (hdash : isSigned = true → s.head? ≠ some dash) :
    Denotes isSigned s v ↔ (∀ ch ∈ s, isDigit ch = true) ∧ v = numberAfter 0 s := by
  constructor
  · intro h
    cases h with
    | digits _ hdigits => exact ⟨hdigits, rfl⟩
    | dash hsigned => exact absurd rfl (hdash hsigned)
  · rintro ⟨hdigits, rfl⟩
    exact .digits hne hdigits

theorem denotes_dash (hne : s ≠ []) :
    Denotes true (dash :: s) v ↔ (∀ ch ∈ s, isDigit ch = true) ∧ v = -numberAfter 0 s := by
  constructor
  · intro h
    cases h with
    | digits _ hdigits => exact absurd (hdigits _ List.mem_cons_self) (by rw [isDigit_dash]; decide)
    | dash _ _ hdigits => exact ⟨hdigits, rfl⟩
  · rintro ⟨hdigits, rfl⟩
    exact .dash rfl hne hdigits

theorem DigitScan.finish_exact {scan : DigitScan} {isSigned : Bool} (outint : Int)
    (hvalue : ∀ v, scan.value = some v ↔ Denotes isSigned s v ∧ t.min ≤ v ∧ v ≤ t.max)
    (hcomputed : ∀ x ∈ scan.computed, t.min ≤ x ∧ x ≤ t.max) :
    ParsesExactly isSigned t s outint (scan.finish outint) where
  result_iff := Option.isSome_iff_exists.trans (exists_congr hvalue)
  value h := by
    obtain ⟨v, hv⟩ := Option.isSome_iff_exists.mp h
    rw [finish, hv]
    exact (hvalue v).mp hv
  unchanged h := by
    have hnone : scan.value = none := by simpa [finish] using h
    rw [finish, hnone]
    rfl
  inRange := hcomputed

theorem DigitScan.returnFalse_exact {isSigned : Bool} (outint : Int) (h : ∀ v, ¬ Denotes isSigned s v) :
    ParsesExactly isSigned t s outint (DigitScan.returnFalse.finish outint) :=
  finish_exact outint (fun v => ⟨(nomatch ·), fun hv => absurd hv.1 (h v)⟩) (by simp [returnFalse])

theorem positiveLoop_exact {isSigned : Bool} (outint : Int) (hmin : t.min ≤ 0) (hmax : 0 ≤ t.max)
    (hconv : ∀ x, t.min ≤ x → x ≤ t.max → t.convert x = x) (hne : s ≠ [])
    (hdash : isSigned = true → s.head? ≠ some dash) :
    ParsesExactly isSigned t s outint ((positiveLoop t s 0).finish outint) := by
  obtain ⟨hvalue, hcomputed⟩ := positiveLoop_spec (n := 0) (s := s)
    (fun x h₁ h₂ => hconv x (Int.le_trans hmin h₁) h₂) hmax
  refine DigitScan.finish_exact outint (fun v => ?_) fun x hx => 
    ⟨Int.le_trans hmin (hcomputed x hx).1, (hcomputed x hx).2⟩
  rw [denotes_digits hne hdash]
  refine (hvalue v).trans ?_
  constructor
  · rintro ⟨hdigits, rfl, hle⟩
    exact ⟨⟨hdigits, rfl⟩, Int.le_trans hmin (Int.natCast_nonneg _), hle⟩
  · rintro ⟨⟨hdigits, rfl⟩, _, hle⟩
    exact ⟨hdigits, rfl, hle⟩

theorem parseSigned_exact (hmin : t.min ≤ 0) (hmax : 0 ≤ t.max)
    (hconv : ∀ x, t.min ≤ x → x ≤ t.max → t.convert x = x) (s : CString) (outint : Int) :
    ParsesExactly true t s outint (parseSigned t s outint) := by
  unfold parseSigned
  split
  · rename_i ch instr
    split
    · rename_i hch
      subst hch
      split
      · rename_i hnil
        subst hnil
        refine DigitScan.returnFalse_exact outint fun v h => ?_
        cases h with
        | digits _ hdigits => exact absurd (hdigits _ List.mem_cons_self) (by rw [isDigit_dash]; decide)
        | dash _ hne => exact hne rfl
      · rename_i hne
        obtain ⟨hvalue, hcomputed⟩ := negativeLoop_spec (s := instr)
          (fun x h₁ h₂ => hconv x h₁ (Int.le_trans h₂ hmax)) hmin
        refine DigitScan.finish_exact outint (fun v => ?_) fun x hx =>
          ⟨(hcomputed x hx).1, Int.le_trans (hcomputed x hx).2 hmax⟩
        rw [denotes_dash hne, hvalue]
        constructor
        · rintro ⟨hdigits, rfl, hle⟩
          exact ⟨⟨hdigits, rfl⟩, hle, by omega⟩
        · rintro ⟨⟨hdigits, rfl⟩, hle, _⟩
          exact ⟨hdigits, rfl, hle⟩
    · rename_i hch
      exact positiveLoop_exact outint hmin hmax hconv (by simp) fun _ h => hch (Option.some.inj h)
  · exact DigitScan.returnFalse_exact outint fun v h => by cases h; contradiction

theorem IntType.convert_signed (bits : Nat) (h₁ : (signed (bits + 1)).min ≤ x) (h₂ : x ≤ (signed (bits + 1)).max) :
    (signed (bits + 1)).convert x = x := by
  simp only [signed, Nat.add_sub_cancel] at h₁ h₂ ⊢
  have hpow : ((2 ^ (bits + 1) : Nat) : Int) = 2 * 2 ^ bits := by push_cast; exact Int.pow_succ' ..
  refine Int.bmod_eq_of_le ?_ ?_ <;> rw [hpow] <;> omega

theorem IntType.convert_unsigned (bits : Nat) (h₁ : 0 ≤ x) (h₂ : x ≤ (unsigned bits).max) :
    (unsigned bits).convert x = x := Int.emod_eq_of_lt h₁ (Int.lt_of_le_sub_one h₂)

end

/-- Each function parses each string exactly, but for the empty string and the unsigned types. -/
theorem parse_exact_iff (f : ParseInt) (s : CString) (outint : Int) :
    ParsesExactly f.isSigned f.type s outint (f.run s outint) ↔ f.isSigned = true ∨ s ≠ [] := by
  have hsigned : ∀ bits s,
      ParsesExactly true (.signed (bits + 1)) s outint (parseSigned (.signed (bits + 1)) s outint) := by
    intro bits s
    have hpos : (0 : Int) < 2 ^ bits := Int.pow_pos (by decide)
    exact parseSigned_exact (by simp only [IntType.signed, Nat.add_sub_cancel]; omega)
      (by simp only [IntType.signed, Nat.add_sub_cancel]; omega) (fun _ => IntType.convert_signed bits) s outint
  have hunsigned : ∀ bits s, ParsesExactly false (.unsigned bits) s outint (parseUnsigned (.unsigned bits) s outint) ↔
      s ≠ [] := by
    intro bits s
    have hpos : (0 : Int) < 2 ^ bits := Int.pow_pos (by decide)
    refine ⟨?_, fun hne => positiveLoop_exact outint (Int.le_refl 0) (by simp only [IntType.unsigned]; omega)
      (fun _ => IntType.convert_unsigned bits) hne (fun h => nomatch h)⟩
    rintro h rfl
    obtain ⟨v, hv, _⟩ := h.result_iff.mp rfl
    cases hv
    contradiction
  cases f
  · exact iff_of_true (hsigned 7 s) (.inl rfl)
  · exact iff_of_true (hsigned 15 s) (.inl rfl)
  · exact iff_of_true (hsigned 31 s) (.inl rfl)
  · exact iff_of_true (hsigned 63 s) (.inl rfl)
  · exact (hunsigned 8 s).trans ⟨.inr, fun h => h.resolve_left (by decide)⟩
  · exact (hunsigned 16 s).trans ⟨.inr, fun h => h.resolve_left (by decide)⟩
  · exact (hunsigned 32 s).trans ⟨.inr, fun h => h.resolve_left (by decide)⟩
  · exact (hunsigned 64 s).trans ⟨.inr, fun h => h.resolve_left (by decide)⟩

/-- `parse_uint16` takes the empty string for a number. -/
theorem parse_exact_empty : ¬ ParsesExactly false (IntType.unsigned 16) [] 8 (parseUint16 [] 8) ∧
    parseUint16 [] 8 = ⟨true, 0, []⟩ := by
  refine ⟨fun h => ?_, rfl⟩
  obtain ⟨v, hv, _⟩ := h.result_iff.mp rfl
  cases hv
  contradiction

end Renameutils
