import Mathlib.Data.List.Basic

/-!
# Exchanging adjacent blocks in place

Two adjacent blocks of a list are exchanged by swaps alone. The shorter block is swapped with the far end of the
longer one, where it belongs, and what is left are two shorter blocks. `exchange_eq` says that both blocks keep
their order.
-/

namespace Exchange

variable {α : Type}

/-- Swap two elements. -/
def swapAt (xs : List α) (i j : Nat) : List α :=
  match xs[i]?, xs[j]? with
  | some x, some y => (xs.set i y).set j x
  | _, _ => xs

/-- Swap `len` elements from `i` on with those from `j` on. -/
def swapRange (xs : List α) (i j : Nat) : Nat → List α
  | 0 => xs
  | len + 1 => swapRange (swapAt xs i j) (i + 1) (j + 1) len

/-- Exchange the blocks `[bottom, middle)` and `[middle, top)`. -/
def exchange (xs : List α) (bottom middle top : Nat) : List α :=
  if middle < top ∧ bottom < middle then
    if middle - bottom < top - middle then
      exchange (swapRange xs bottom (top - (middle - bottom)) (middle - bottom)) bottom middle (top - (middle - bottom))
    else
      exchange (swapRange xs bottom middle (top - middle)) (bottom + (top - middle)) middle top
  else xs
termination_by top - bottom

theorem swapAt_eq (pre mid post : List α) (a b : α) :
    swapAt (pre ++ a :: (mid ++ b :: post)) pre.length (pre.length + 1 + mid.length) =
      pre ++ b :: (mid ++ a :: post) := by
  have hi : (pre ++ a :: (mid ++ b :: post))[pre.length]? = some a := by simp
  have hj : (pre ++ a :: (mid ++ b :: post))[pre.length + 1 + mid.length]? = some b := by
    rw [List.getElem?_append_right (by omega), show pre.length + 1 + mid.length - pre.length = mid.length + 1 by omega]
    simp
  rw [swapAt, hi, hj]
  dsimp only
  rw [List.set_append_right _ _ (Nat.le_refl _), Nat.sub_self, List.set_cons_zero,
    List.set_append_right _ _ (by omega), show pre.length + 1 + mid.length - pre.length = mid.length + 1 by omega,
    List.set_cons_succ, List.set_append_right _ _ (Nat.le_refl _), Nat.sub_self, List.set_cons_zero]

theorem swapRange_eq {as bs : List α} (h : as.length = bs.length) (pre mid post : List α) :
    swapRange (pre ++ as ++ mid ++ bs ++ post) pre.length (pre.length + as.length + mid.length) as.length =
      pre ++ bs ++ mid ++ as ++ post := by
  induction as generalizing bs pre mid with
  | nil =>
    cases bs with
    | nil => simp [swapRange]
    | cons => cases h
  | cons a as ih =>
    cases bs with
    | nil => cases h
    | cons b bs =>
      have hswap := swapAt_eq pre (as ++ mid) (bs ++ post) a b
      have hrest := ih (Nat.succ.inj h) (pre ++ [b]) (mid ++ [a])
      simp only [List.append_assoc, List.cons_append, List.nil_append, List.length_append, List.length_cons,
        List.length_nil, Nat.zero_add] at hswap hrest ⊢
      rw [swapRange,
        show pre.length + (as.length + 1) + mid.length = pre.length + 1 + (as.length + mid.length) by omega, hswap,
        show pre.length + 1 + (as.length + mid.length) + 1 = pre.length + 1 + as.length + (mid.length + 1) by omega]
      exact hrest

theorem exchange_eq (pre as bs post : List α) :
    exchange (pre ++ as ++ bs ++ post) pre.length (pre.length + as.length) (pre.length + as.length + bs.length) =
      pre ++ bs ++ as ++ post := by
  induction hn : as.length + bs.length using Nat.strongRecOn generalizing pre as bs post with
  | ind n ih =>
    unfold exchange
    split
    · rename_i hboth
      split
      · -- the block at the bottom is the shorter one
        rename_i hshort
        obtain ⟨bs₁, bs₂, rfl, hlen⟩ : ∃ bs₁ bs₂, bs = bs₁ ++ bs₂ ∧ as.length = bs₂.length :=
          ⟨bs.take (bs.length - as.length), bs.drop (bs.length - as.length), (List.take_append_drop _ _).symm, by
            rw [List.length_drop]; omega⟩
        have hswap := swapRange_eq hlen pre bs₁ post
        have hrest := ih (bs₂.length + bs₁.length) (by simp only [List.length_append] at hn; omega) pre bs₂ bs₁
          (as ++ post) rfl
        rw [List.length_append, show pre.length + as.length + (bs₁.length + bs₂.length) - (pre.length + as.length -
          pre.length) = pre.length + as.length + bs₁.length by omega, Nat.add_sub_cancel_left, ← List.append_assoc,
          hswap, hlen]
        simpa only [List.append_assoc] using hrest
      · rename_i hlong
        obtain ⟨as₁, as₂, rfl, hlen⟩ : ∃ as₁ as₂, as = as₁ ++ as₂ ∧ as₁.length = bs.length :=
          ⟨as.take bs.length, as.drop bs.length, (List.take_append_drop _ _).symm, by
            rw [List.length_take]; omega⟩
        have hswap := swapRange_eq hlen pre as₂ post
        have hrest := ih (as₂.length + as₁.length) (by simp only [List.length_append] at hn; omega) (pre ++ bs) as₂ as₁
          post rfl
        rw [Nat.add_sub_cancel_left, ← hlen, List.length_append, ← Nat.add_assoc, ← List.append_assoc, hswap]
        simp only [List.length_append, List.append_assoc, ← hlen] at hrest ⊢
        rw [show pre.length + as₁.length + as₂.length + as₁.length = pre.length + (as₁.length + (as₂.length +
          as₁.length)) by omega]
        simpa only [Nat.add_assoc] using hrest
    · rename_i hnone
      rcases Nat.eq_zero_or_pos as.length with has | has
      · rw [List.length_eq_zero_iff.mp has]
        simp
      · have hbs : bs = [] := List.length_eq_zero_iff.mp (by omega)
        rw [hbs]
        simp

end Exchange
