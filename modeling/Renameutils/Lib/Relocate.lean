import Renameutils.Lib.Table

/-!
# Moving things between places

A table `t₀` has things at the places `start w` of the `w` with `I w`. They are moved one at a time,
each time to an empty place; `loc w` is where the thing that was at `start w` is now. `Relocated` says
what the table is at any moment: the things are at their places, the places that they left are empty
again and nothing else has changed.
-/

namespace Table

variable {κ α ι : Type}

/-- Move what is at `src` to `dst`. -/
def move [DecidableEq κ] (t : Table κ α) (src dst : κ) (a : α) : Table κ α := (t.remove src).put dst a

structure Relocated (I : ι → Prop) (start : ι → κ) (t₀ : Table κ α) (loc : ι → κ) (t : Table κ α) :
    Prop where
  loc_inj : ∀ w v, I w → I v → loc w = loc v → w = v
  at_loc : ∀ w, I w → t (loc w) = t₀ (start w)
  start_some : ∀ w, I w → ∃ a, t₀ (start w) = some a
  loc_fresh : ∀ w, I w → (∃ v, I v ∧ loc w = start v) ∨ t₀ (loc w) = none
  left : ∀ w, I w → (∀ v, I v → loc v ≠ start w) → t (start w) = none
  other : ∀ k, (∀ w, I w → start w ≠ k) → (∀ w, I w → loc w ≠ k) → t k = t₀ k

namespace Relocated
variable {I : ι → Prop} {start loc : ι → κ} {t₀ t : Table κ α} {w : ι} {dst : κ} {a : α}

theorem refl (hinj : ∀ w v, I w → I v → start w = start v → w = v)
    (hsome : ∀ w, I w → ∃ a, t₀ (start w) = some a) : Relocated I start t₀ start t₀ where
  loc_inj := hinj
  at_loc _ _ := rfl
  start_some := hsome
  loc_fresh w hw := .inl ⟨w, hw, rfl⟩
  left w hw h := absurd rfl (h w hw)
  other _ _ _ := rfl

theorem at_some (r : Relocated I start t₀ loc t) (hw : I w) : ∃ a, t (loc w) = some a := by
  rw [r.at_loc w hw]; exact r.start_some w hw

theorem loc_ne (r : Relocated I start t₀ loc t) (hw : I w) (hdst : t dst = none) : loc w ≠ dst := by
  rintro rfl
  obtain ⟨a, ha⟩ := r.at_some hw
  rw [ha] at hdst; cases hdst

/-- One more thing is moved to an empty place. -/
theorem move [DecidableEq κ] [DecidableEq ι] (r : Relocated I start t₀ loc t) (hw : I w) (ha : t (loc w) = some a)
    (hdst : t dst = none) :
    Relocated I start t₀ (Function.update loc w dst) (t.move (loc w) dst a) := by
  have hloc : ∀ v, v ≠ w → Function.update loc w dst v = loc v := fun v hv => Function.update_of_ne hv _ _
  have hself : Function.update loc w dst w = dst := Function.update_self ..
  have hkeep : ∀ k, k ≠ dst → k ≠ loc w → t.move (loc w) dst a k = t k := by
    intro k h1 h2
    rw [Table.move, Table.put_ne _ _ h1, Table.remove_ne _ h2]
  refine ⟨fun v u hv hu heq => ?_, fun v hv => ?_, r.start_some, fun v hv => ?_, fun v hv hgone => ?_,
    fun k hstart hgone => ?_⟩
  · by_cases hvw : v = w <;> by_cases huw : u = w
    · rw [hvw, huw]
    · rw [hvw, hself, hloc u huw] at heq
      exact absurd heq.symm (r.loc_ne hu hdst)
    · rw [huw, hself, hloc v hvw] at heq
      exact absurd heq (r.loc_ne hv hdst)
    · rw [hloc v hvw, hloc u huw] at heq
      exact r.loc_inj v u hv hu heq
  · by_cases hvw : v = w
    · rw [hvw, hself, Table.move, Table.put_same, ← r.at_loc w hw, ha]
    · rw [hloc v hvw, hkeep _ (r.loc_ne hv hdst) fun h => hvw (r.loc_inj v w hv hw h)]
      exact r.at_loc v hv
  · by_cases hvw : v = w
    · rw [hvw, hself]
      by_cases hs : ∃ u, I u ∧ dst = start u
      · exact .inl hs
      · refine .inr ?_
        rw [← r.other dst (fun u hu h => hs ⟨u, hu, h.symm⟩) fun u hu => r.loc_ne hu hdst, hdst]
    · rw [hloc v hvw]; exact r.loc_fresh v hv
  · have hdst' : start v ≠ dst := fun h => hgone w hw (by rw [hself, h])
    by_cases hsw : start v = loc w
    · rw [hsw] at hdst' ⊢
      rw [Table.move, Table.put_ne _ _ hdst', Table.remove_same]
    · rw [hkeep _ hdst' hsw]
      refine r.left v hv fun u hu heq => ?_
      by_cases huw : u = w
      · rw [huw] at heq; exact hsw heq.symm
      · exact hgone u hu (by rw [hloc u huw, heq])
  · have hdst' : k ≠ dst := fun h => hgone w hw (by rw [hself, h])
    by_cases hkw : k = loc w
    · rw [hkw] at hdst' ⊢
      rw [Table.move, Table.put_ne _ _ hdst', Table.remove_same]
      rcases r.loc_fresh w hw with ⟨u, hu, h⟩ | h
      · exact absurd (hkw.trans h).symm (hstart u hu)
      · exact h.symm
    · rw [hkeep _ hdst' hkw]
      refine r.other k hstart fun u hu heq => ?_
      by_cases huw : u = w
      · rw [huw] at heq; exact hkw heq.symm
      · exact hgone u hu (by rw [hloc u huw, heq])

end Relocated

end Table
