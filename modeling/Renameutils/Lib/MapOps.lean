import Renameutils.Lib.Table
import Mathlib.Data.Set.Card

/-!
# What a map answers

`Table.step` is what a finite map does and answers, one call after another. An implementation whose steps
`step` are never undefined (`none`) and answer as those of a specification does so in every run
(`run_refines`).
-/

inductive MapOp (κ ν : Type) where
  | put (key : κ) (value : ν)
  | remove (key : κ)
  | get (key : κ)
  | containsKey (key : κ)
  | clear
  | size

/-- The key of the call, if it has one, is in `K`. -/
def MapOp.KeyIn {κ ν : Type} (K : Set κ) : MapOp κ ν → Prop
  | .put key _ | .remove key | .get key | .containsKey key => key ∈ K
  | .clear | .size => True

/-- `value none` is the answer `NULL`. -/
inductive MapAnswer (ν : Type) where
  | value (v : Option ν)
  | member (b : Bool)
  | size (n : Nat)
  | done
  deriving DecidableEq

namespace Table

variable {κ ν : Type} [DecidableEq κ]

/-- How many keys the table has. -/
noncomputable def size (t : Table κ ν) : Nat := {k | t k ≠ none}.ncard

noncomputable def step (t : Table κ ν) : MapOp κ ν → Table κ ν × MapAnswer ν
  | .put key value => (t.put key value, .value (t key))
  | .remove key => (t.remove key, .value (t key))
  | .get key => (t, .value (t key))
  | .containsKey key => (t, .member (t.contains key))
  | .clear => (empty, .done)
  | .size => (t, .size t.size)

/-- All entries of the table, each once. -/
structure Listing (t : Table κ ν) (l : List (κ × ν)) : Prop where
  nodup : (l.map Prod.fst).Nodup
  mem_iff : ∀ k v, (k, v) ∈ l ↔ t k = some v

theorem Listing.size {t : Table κ ν} {l : List (κ × ν)} (h : t.Listing l) : t.size = l.length := by
  have hset : {k | t k ≠ none} = ((l.map Prod.fst).toFinset : Set κ) := by
    ext k
    simp [Option.ne_none_iff_exists', h.mem_iff]
  rw [Table.size, hset, Set.ncard_coe_finset, List.toFinset_card_of_nodup h.nodup, List.length_map]

namespace Listing
variable {t : Table κ ν} {l l₁ l₂ : List (κ × ν)} {k : κ} {v v₀ : ν}

omit [DecidableEq κ] in
theorem apply (h : t.Listing l) (hkv : (k, v) ∈ l) : t k = some v := (h.mem_iff k v).mp hkv

omit [DecidableEq κ] in
theorem apply_none (h : t.Listing l) (hk : ∀ x ∈ l, x.1 ≠ k) : t k = none :=
  Option.eq_none_iff_forall_ne_some.mpr fun v hv => hk _ ((h.mem_iff k v).mpr hv) rfl

theorem insert (h : t.Listing (l₁ ++ l₂)) (hk : ∀ x ∈ l₁ ++ l₂, x.1 ≠ k) (v : ν) :
    (t.put k v).Listing (l₁ ++ (k, v) :: l₂) := by
  refine ⟨?_, fun k' v' => ?_⟩
  · have hperm : ((l₁ ++ (k, v) :: l₂).map Prod.fst).Perm (k :: (l₁ ++ l₂).map Prod.fst) :=
      List.perm_middle.map _
    refine hperm.nodup_iff.mpr (List.nodup_cons.mpr ⟨fun hmem => ?_, h.nodup⟩)
    obtain ⟨x, hx, hxk⟩ := List.mem_map.mp hmem
    exact hk x hx hxk
  · rw [List.perm_middle.mem_iff, List.mem_cons, h.mem_iff, put_apply]
    by_cases hkk : k' = k
    · subst hkk
      rw [if_pos rfl, h.apply_none hk]
      simp [eq_comm]
    · rw [if_neg hkk]
      simp [hkk]

theorem remove (h : t.Listing (l₁ ++ (k, v) :: l₂)) : (t.remove k).Listing (l₁ ++ l₂) := by
  have hperm : ((l₁ ++ (k, v) :: l₂).map Prod.fst).Perm (k :: (l₁ ++ l₂).map Prod.fst) :=
    List.perm_middle.map _
  obtain ⟨hnot, hnd⟩ := List.nodup_cons.mp (hperm.nodup_iff.mp h.nodup)
  refine ⟨hnd, fun k' v' => ?_⟩
  have hmem := h.mem_iff k' v'
  rw [List.perm_middle.mem_iff, List.mem_cons] at hmem
  rw [remove_apply]
  by_cases hkk : k' = k
  · subst hkk
    rw [if_pos rfl]
    exact ⟨fun hx => absurd (List.mem_map_of_mem hx) hnot, by rintro ⟨⟩⟩
  · rw [if_neg hkk, ← hmem]
    simp [hkk]

theorem replace (h : t.Listing (l₁ ++ (k, v₀) :: l₂)) (v : ν) :
    (t.put k v).Listing (l₁ ++ (k, v) :: l₂) := by
  have hperm : ((l₁ ++ (k, v₀) :: l₂).map Prod.fst).Perm (k :: (l₁ ++ l₂).map Prod.fst) :=
    List.perm_middle.map _
  obtain ⟨hnot, -⟩ := List.nodup_cons.mp (hperm.nodup_iff.mp h.nodup)
  have hput : (t.remove k).put k v = t.put k v := Function.update_idem ..
  exact hput ▸ h.remove.insert (fun x hx hxk => hnot (List.mem_map.mpr ⟨x, hx, hxk⟩)) v

end Listing

end Table

/-- `NULL` is both the answer for a key that is not there and for a `NULL` under the key. -/
def MapAnswer.join {ν : Type} : MapAnswer (Option ν) → MapAnswer ν
  | .value v => .value v.join
  | .member b => .member b
  | .size n => .size n
  | .done => .done

section Runs
variable {σ τ ω α : Type}

/-- Calls one after the other, with their answers. -/
def runSteps (step : σ → ω → Option (σ × α)) : σ → List ω → Option (σ × List α)
  | s, [] => some (s, [])
  | s, op :: ops => do
    let (s, a) ← step s op
    let (s, as) ← runSteps step s ops
    pure (s, a :: as)

def specSteps (spec : τ → ω → τ × α) : τ → List ω → τ × List α
  | t, [] => (t, [])
  | t, op :: ops =>
    ((specSteps spec (spec t op).1 ops).1, (spec t op).2 :: (specSteps spec (spec t op).1 ops).2)

theorem runSteps_concat {step : σ → ω → Option (σ × α)} {s s' s'' : σ} {ops : List ω} {as : List α} {op : ω} {a : α}
    (h : runSteps step s ops = some (s', as)) (hop : step s' op = some (s'', a)) :
    runSteps step s (ops ++ [op]) = some (s'', as ++ [a]) := by
  induction ops generalizing s as with
  | nil =>
    cases h
    rw [List.nil_append, runSteps, hop]
    rfl
  | cons op' ops ih =>
    obtain ⟨⟨s₁, a₁⟩, hstep, h⟩ := Option.bind_eq_some_iff.mp h
    obtain ⟨⟨s₂, as₂⟩, hrun, heq⟩ := Option.bind_eq_some_iff.mp h
    cases heq
    rw [List.cons_append, runSteps, hstep]
    change (runSteps step s₁ (ops ++ [op])).bind _ = _
    rw [ih hrun]
    rfl

theorem specSteps_concat (spec : τ → ω → τ × α) (t : τ) (ops : List ω) (op : ω) :
    specSteps spec t (ops ++ [op]) = ((spec (specSteps spec t ops).1 op).1,
      (specSteps spec t ops).2 ++ [(spec (specSteps spec t ops).1 op).2]) := by
  induction ops generalizing t with
  | nil => rfl
  | cons op' ops ih => rw [List.cons_append, specSteps, ih]; rfl

/-- Each call is `ok` where it is made. -/
def AllSteps (step : σ → ω → Option (σ × α)) (ok : σ → ω → Prop) : σ → List ω → Prop
  | _, [] => True
  | s, op :: ops => ok s op ∧ ∀ s' a, step s op = some (s', a) → AllSteps step ok s' ops

theorem AllSteps.cons {step : σ → ω → Option (σ × α)} {ok : σ → ω → Prop} {s s' : σ} {op : ω} {a : α} {ops : List ω}
    (hok : ok s op) (hstep : step s op = some (s', a)) (hops : AllSteps step ok s' ops) :
    AllSteps step ok s (op :: ops) := by
  refine ⟨hok, fun s'' a' hstep' => ?_⟩
  cases hstep.symm.trans hstep'
  exact hops

theorem AllSteps.of_forall {step : σ → ω → Option (σ × α)} {ok : σ → ω → Prop} {ops : List ω}
    (h : ∀ op ∈ ops, ∀ s, ok s op) (s : σ) : AllSteps step ok s ops := by
  induction ops generalizing s with
  | nil => trivial
  | cons op ops ih =>
    exact ⟨h op List.mem_cons_self s, fun s' _ _ => ih (fun op hop => h op (List.mem_cons_of_mem _ hop)) s'⟩

/-- Steps that answer alike and keep `R` make runs that do, if the calls are such that they do so. -/
theorem run_refines_of {step : σ → ω → Option (σ × α)} {spec : τ → ω → τ × α} {R : σ → τ → Prop}
    {ok : σ → ω → Prop}
    (hstep : ∀ s t op, ok s op → R s t → ∃ s', step s op = some (s', (spec t op).2) ∧ R s' (spec t op).1)
    {ops : List ω} {s : σ} {t : τ} (hops : AllSteps step ok s ops) (h : R s t) :
    ∃ s', runSteps step s ops = some (s', (specSteps spec t ops).2) ∧ R s' (specSteps spec t ops).1 := by
  induction ops generalizing s t with
  | nil => exact ⟨s, rfl, h⟩
  | cons op ops ih =>
    obtain ⟨s₁, hs₁, h₁⟩ := hstep s t op hops.1 h
    obtain ⟨s₂, hs₂, h₂⟩ := ih (hops.2 s₁ _ hs₁) h₁
    exact ⟨s₂, by rw [runSteps, hs₁]; simp [hs₂, specSteps], h₂⟩

theorem run_refines {step : σ → ω → Option (σ × α)} {spec : τ → ω → τ × α} {R : σ → τ → Prop}
    (hstep : ∀ s t op, R s t → ∃ s', step s op = some (s', (spec t op).2) ∧ R s' (spec t op).1)
    (ops : List ω) {s : σ} {t : τ} (h : R s t) :
    ∃ s', runSteps step s ops = some (s', (specSteps spec t ops).2) ∧ R s' (specSteps spec t ops).1 :=
  run_refines_of (fun s t op _ => hstep s t op) (.of_forall (fun _ _ _ => trivial) s) h

end Runs
