import Mathlib.Data.List.Basic

/-!
# Iterators

`Yields hasNext next it values`: calling `next` as long as `hasNext` says so gives the `values` one by one;
then `hasNext` is false, and `next` gives nothing and stays where it is.
-/

inductive Yields {ι α : Type} (hasNext : ι → Bool) (next : ι → Option (Option α × ι)) : ι → List α → Prop
  | stop {it : ι} : hasNext it = false → next it = some (none, it) → Yields hasNext next it []
  | item {it it' : ι} {a : α} {as : List α} : hasNext it = true → next it = some (some a, it') →
      Yields hasNext next it' as → Yields hasNext next it (a :: as)

namespace Yields
variable {ι α β : Type} {hasNext : ι → Bool} {next : ι → Option (Option α × ι)} {value : β → α}

theorem of_ahead (Ahead : ι → List β → Prop)
    (hstop : ∀ it, Ahead it [] → hasNext it = false ∧ next it = some (none, it))
    (hitem : ∀ it b bs, Ahead it (b :: bs) →
      hasNext it = true ∧ ∃ it', next it = some (some (value b), it') ∧ Ahead it' bs)
    {it : ι} {bs : List β} (h : Ahead it bs) : Yields hasNext next it (bs.map value) := by
  induction bs generalizing it with
  | nil => exact .stop (hstop it h).1 (hstop it h).2
  | cons b bs ih =>
    obtain ⟨hhas, it', hnext, h'⟩ := hitem it b bs h
    exact .item hhas hnext (ih h')

end Yields
