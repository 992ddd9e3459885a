import Mathlib.Algebra.Group.Int.Defs
import Mathlib.Algebra.Group.Nat.Defs

/-!
# Conversions to 32 bits

`uint32 x` and `int32 x` are what is left of `x` after a conversion to `uint32_t` and to `int32_t`.
-/

def uint32 (x : Int) : Nat := (x % 2 ^ 32).toNat

def int32 (x : Int) : Int := if x % 2 ^ 32 < 2 ^ 31 then x % 2 ^ 32 else x % 2 ^ 32 - 2 ^ 32

def IsInt32 (x : Int) : Prop := -2 ^ 31 ≤ x ∧ x < 2 ^ 31

theorem uint32_lt (x : Int) : uint32 x < 2 ^ 32 := by
  unfold uint32
  omega

theorem uint32_eq {x : Int} {n : Nat} (hx : x = n) (hn : n < 2 ^ 32) : uint32 x = n := by
  unfold uint32
  omega

theorem int32_eq {x : Int} (hlo : -2 ^ 31 ≤ x) (hhi : x < 2 ^ 31) : int32 x = x := by
  unfold int32
  split <;> omega

theorem int32_of_ge {n : Nat} (hlo : 2 ^ 31 ≤ n) (hhi : n < 2 ^ 32) : int32 n = n - 2 ^ 32 := by
  unfold int32
  split <;> omega

theorem int32_eq_natCast {n m : Nat} (hn : n < 2 ^ 32) (h : int32 n = m) : m = n ∧ n < 2 ^ 31 := by
  unfold int32 at h
  split at h <;> omega

theorem int32_add (x y : Int) : int32 (int32 x + y) = int32 (x + y) := by
  unfold int32
  split <;> split <;> split <;> omega

theorem isInt32_int32 (x : Int) : IsInt32 (int32 x) := by
  unfold int32 IsInt32
  split <;> constructor <;> omega
