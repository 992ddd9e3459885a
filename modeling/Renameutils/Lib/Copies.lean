import Renameutils.Lib.Table

/-!
# Copying things to new places

`Copied src dst D t₀ t`: the table `t` is `t₀` after the things at the places `src w` have been copied to
the places `dst w`, for the `w` with `D w`. Nothing is said about the order, and there is only one such
table (`Copied.unique`).
-/

namespace Table

variable {κ α ι : Type}

structure Copied (src dst : ι → κ) (D : ι → Prop) (t₀ t : Table κ α) : Prop where
  made : ∀ w, D w → t (dst w) = t₀ (src w)
  other : ∀ k, (∀ w, D w → dst w ≠ k) → t k = t₀ k

namespace Copied
variable {src dst : ι → κ} {D D' : ι → Prop} {t₀ t t' : Table κ α} {w : ι} {a : α}

theorem refl (hD : ∀ w, ¬ D w) : Copied src dst D t₀ t₀ :=
  ⟨fun w hw => absurd hw (hD w), fun _ _ => rfl⟩

theorem congr (c : Copied src dst D t₀ t) (h : ∀ w, D w ↔ D' w) : Copied src dst D' t₀ t :=
  ⟨fun w hw => c.made w ((h w).mpr hw), fun k hk => c.other k fun w hw => hk w ((h w).mp hw)⟩

theorem unique (c : Copied src dst D t₀ t) (c' : Copied src dst D t₀ t') : t = t' := by
  funext k
  by_cases hk : ∃ w, D w ∧ dst w = k
  · obtain ⟨w, hw, rfl⟩ := hk
    rw [c.made w hw, c'.made w hw]
  · have hne : ∀ w, D w → dst w ≠ k := fun w hw h => hk ⟨w, hw, h⟩
    rw [c.other k hne, c'.other k hne]

theorem kept (c : Copied src dst D t₀ t) (hfree : ∀ w, D w → t₀ (dst w) = none) {k : κ}
    (hk : t₀ k = some a) : t k = some a := by
  rw [c.other k, hk]
  rintro w hw rfl
  rw [hfree w hw] at hk; cases hk

theorem copy [DecidableEq κ] (c : Copied src dst D t₀ t) (ha : t₀ (src w) = some a)
    (hdst : ∀ v, D v → dst v ≠ dst w) :
    Copied src dst (fun v => D v ∨ v = w) t₀ (t.put (dst w) a) where
  made := by
    rintro v (hv | rfl)
    · rw [Table.put_ne _ _ (hdst v hv)]; exact c.made v hv
    · rw [Table.put_same, ha]
  other k hk := by
    rw [Table.put_ne _ _ (hk w (.inr rfl)).symm]
    exact c.other k fun v hv => hk v (.inl hv)

end Copied

end Table
