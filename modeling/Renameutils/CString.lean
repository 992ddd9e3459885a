import Mathlib.Data.List.Basic
import Mathlib.Data.List.Infix

/-!
# C strings

A `CString` is the bytes of a C string before its terminating NUL. The functions of
`common/string-utils.c` that the other modules call are here, and the one use of `xasprintf` that
makes names: `"%s-%d"`.
-/

namespace Renameutils

abbrev CString := List UInt8

def slash : UInt8 := 47

namespace CString

def newline : UInt8 := 10
def tab : UInt8 := 9
def space : UInt8 := 32
def backslash : UInt8 := 92
def dash : UInt8 := 45

/-- `starts_with`. -/
def startsWith (str start : CString) : Bool := start.isPrefixOf str

/-- `string_strip_trailing`. -/
def stringStripTrailing (str stripchars : CString) : CString :=
  (str.reverse.dropWhile (stripchars.contains ·)).reverse

/-- What `%d` prints for a number that is not negative. -/
def decimal (n : Nat) : CString := (Nat.toDigits 10 n).map fun c => c.toNat.toUInt8

/-- `xasprintf("%s-%d", name, n)`. -/
def numbered (name : CString) (n : Nat) : CString := name ++ dash :: decimal n

theorem digit_bounds {n : Nat} {c : Char} (hc : c ∈ Nat.toDigits 10 n) :
    48 ≤ c.toNat ∧ c.toNat ≤ 57 := by
  have h := Nat.isDigit_of_mem_toDigits (by decide) (by decide) hc
  simp only [Char.isDigit, Bool.and_eq_true, decide_eq_true_eq] at h
  exact ⟨h.1, h.2⟩

theorem dash_notMem_decimal (n : Nat) : dash ∉ decimal n := by
  intro h
  obtain ⟨c, hc, hcd⟩ := List.mem_map.mp h
  have hb := digit_bounds hc
  have := congrArg UInt8.toNat hcd
  simp only [Nat.toUInt8, UInt8.toNat_ofNat', dash, UInt8.toNat_ofNat] at this
  omega

theorem decimal_bounds {n : Nat} {ch : UInt8} (h : ch ∈ decimal n) : 48 ≤ ch.toNat ∧ ch.toNat ≤ 57 := by
  obtain ⟨c, hc, rfl⟩ := List.mem_map.mp h
  have hb := digit_bounds hc
  simp only [Nat.toUInt8, UInt8.toNat_ofNat']
  omega

theorem map_decimal (n : Nat) : (decimal n).map (fun b => Char.ofNat b.toNat) = Nat.toDigits 10 n := by
  rw [decimal, List.map_map]
  refine (List.map_congr_left fun c hc => ?_).trans (List.map_id _)
  have hb := digit_bounds hc
  have hmod : c.toNat % 256 = c.toNat := Nat.mod_eq_of_lt (by omega)
  simp [Nat.toUInt8, hmod]

theorem decimal_injective : Function.Injective decimal := by
  intro n m h
  have hd : Nat.toDigits 10 n = Nat.toDigits 10 m := by rw [← map_decimal, h, map_decimal]
  rw [← Nat.ofDigitChars_ten_toDigits (n := n), hd, Nat.ofDigitChars_ten_toDigits]

/-- The last dash of a numbered name is the one before the number. -/
theorem numbered_inj {a b : CString} {n m : Nat} (h : numbered a n = numbered b m) :
    a = b ∧ n = m := by
  simp only [numbered] at h
  rcases List.append_eq_append_iff.mp h with ⟨l, hb, hl⟩ | ⟨l, ha, hl⟩
  · cases l with
    | nil =>
      simp only [List.nil_append, List.cons.injEq, true_and] at hl
      exact ⟨by simpa using hb.symm, decimal_injective hl⟩
    | cons x l =>
      simp only [List.cons_append, List.cons.injEq] at hl
      exact absurd (by rw [hl.2]; simp) (dash_notMem_decimal n)
  · cases l with
    | nil =>
      simp only [List.nil_append, List.cons.injEq, true_and] at hl
      exact ⟨by simpa using ha, (decimal_injective hl).symm⟩
    | cons x l =>
      simp only [List.cons_append, List.cons.injEq] at hl
      exact absurd (by rw [hl.2]; simp) (dash_notMem_decimal m)

end CString

end Renameutils
