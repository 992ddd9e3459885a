import Renameutils.Quote
import Mathlib.Algebra.Group.Int.Defs

/-!
# String buffers (`common/strbuf.c`)

A buffer is the characters that it holds; its capacity is left out. Positions are `int32_t` and may count
from the end; lengths are natural numbers (the source has `uint32_t`: they would differ from 2³¹ characters
on).
-/

namespace Renameutils
open CString

abbrev StrBuf := List UInt8

namespace StrBuf

/-- `normalize_strbuf_pos`. The length is unsigned, and so is the first comparison. -/
def normalizeStrbufPos (sb : StrBuf) (pos : Int) : Nat :=
  if (sb.length : Int) ≤ pos % 2 ^ 32 then sb.length
  else if 0 ≤ pos then pos.toNat
  else (pos + 1 + sb.length).toNat

/-- `normalize_str_pos`. -/
def normalizeStrPos (str : CString) (pos : Int) : Nat :=
  if 0 ≤ pos then min str.length pos.toNat else (pos + 1 + str.length).toNat

/-- `strbuf_replace_data_n`. -/
def replaceData (sb : StrBuf) (sp ep : Int) (times : Nat) (mem : List UInt8) : StrBuf :=
  let sp := sb.normalizeStrbufPos sp
  let ep := sb.normalizeStrbufPos ep
  sb.take (min sp ep) ++ (List.replicate times mem).flatten ++ sb.drop (max sp ep)

/-- `strbuf_replace_substring_n`. -/
def replaceSubstring (sb : StrBuf) (sp ep : Int) (times : Nat) (substr : CString) (subsp subep : Int) : StrBuf :=
  let subsp := normalizeStrPos substr subsp
  let subep := normalizeStrPos substr subep
  sb.replaceData sp ep times ((substr.drop (min subsp subep)).take (max subsp subep - min subsp subep))

/-- `strbuf_replace_char_n`: the character as a string of length 1, which `NUL` is not. -/
def replaceChar (sb : StrBuf) (sp ep : Int) (times : Nat) (ch : UInt8) : StrBuf :=
  sb.replaceSubstring sp ep times (if ch = 0 then [] else [ch]) 0 1

def appendChar (sb : StrBuf) (ch : UInt8) : StrBuf := sb.replaceChar (-1) (-1) 1 ch

def appendSubstring (sb : StrBuf) (str : CString) (subsp subep : Int) : StrBuf :=
  sb.replaceSubstring (-1) (-1) 1 str subsp subep

/-- `strbuf_set`. -/
def set (sb : StrBuf) (str : CString) : StrBuf := sb.replaceSubstring 0 (-1) 1 str 0 (-1)

/-- `strbuf_clear`. -/
def clear (sb : StrBuf) : StrBuf := sb.replaceData 0 (-1) 1 []

/-- `strbuf_char_at`: `NUL` at the end. -/
def charAt (sb : StrBuf) (sp : Int) : UInt8 := sb.getD (sb.normalizeStrbufPos sp) 0

variable (sb : StrBuf) (str : CString)

@[simp] theorem normalizeStrbufPos_end : sb.normalizeStrbufPos (-1) = sb.length := by
  unfold normalizeStrbufPos
  split
  · rfl
  · rw [if_neg (by decide)]
    omega

@[simp] theorem normalizeStrbufPos_zero : sb.normalizeStrbufPos 0 = 0 := by
  unfold normalizeStrbufPos
  split <;> simp_all

@[simp] theorem normalizeStrPos_end : normalizeStrPos str (-1) = str.length := by
  rw [normalizeStrPos, if_neg (by decide)]
  omega

@[simp] theorem normalizeStrPos_nat (n : Nat) : normalizeStrPos str n = min str.length n := by
  rw [normalizeStrPos, if_pos (Int.natCast_nonneg n), Int.toNat_natCast]

@[simp] theorem replaceData_end (mem : List UInt8) : sb.replaceData (-1) (-1) 1 mem = sb ++ mem := by
  simp [replaceData]

@[simp] theorem replaceData_all (mem : List UInt8) : sb.replaceData 0 (-1) 1 mem = mem := by
  simp [replaceData]

@[simp] theorem appendSubstring_prefix (n : Nat) : sb.appendSubstring str 0 n = sb ++ str.take n := by
  have h0 : normalizeStrPos str 0 = 0 := by simp [normalizeStrPos]
  rw [appendSubstring, replaceSubstring, h0, normalizeStrPos_nat, replaceData_end]
  simp [List.take_eq_take_iff, Nat.min_comm]

@[simp] theorem set_eq : sb.set str = str := by
  have h0 : normalizeStrPos str 0 = 0 := by simp [normalizeStrPos]
  rw [set, replaceSubstring, h0, normalizeStrPos_end, replaceData_all]
  simp

@[simp] theorem clear_eq : sb.clear = [] := sb.replaceData_all []

theorem appendChar_eq (ch : UInt8) : sb.appendChar ch = strbufAppendChar sb ch := by
  have h := sb.appendSubstring_prefix (if ch = 0 then [] else [ch]) 1
  rw [strbufAppendChar]
  refine Eq.trans (b := sb ++ (if ch = 0 then [] else [ch]).take 1) h ?_
  split <;> simp

theorem appendChar_of_ne {ch : UInt8} (h : ch ≠ 0) : sb.appendChar ch = sb ++ [ch] := by
  rw [appendChar_eq, strbufAppendChar, if_neg h]

theorem charAt_last (h : sb ≠ []) : sb.charAt (sb.length - 1) = sb.getLast h := by
  have hpos := List.length_pos_iff.mpr h
  have hle : ((sb.length : Int) - 1) % 2 ^ 32 ≤ sb.length - 1 := by omega
  have hlast : ((sb.length : Int) - 1).toNat = sb.length - 1 := by omega
  rw [charAt, normalizeStrbufPos, if_neg (by omega), if_pos (by omega), hlast, List.getLast_eq_getElem,
    List.getD_eq_getElem?_getD, List.getElem?_eq_getElem (by omega), Option.getD_some]

end StrBuf

end Renameutils
