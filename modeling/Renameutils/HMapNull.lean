import Renameutils.HMapTable

/-!
# NULL keys in the hash map

The map keeps a `NULL` key in bucket 0, and a string that the hash sends there is compared with it if it comes first
on the chain: `strcmp` is then called with `NULL`. As long as that does not happen, and no rehash goes through 2³²
buckets, the map is a finite map with one more key (`keyCalls_iff`).
-/

namespace Renameutils.HMap

variable {ν : Type} {map map' : HMap ν} {ids : List Nat} {t : Table (Option CString) (Option ν)}

/-- A call with a key that may be `NULL`, and so may the value. -/
inductive KeyCall (ν : Type) where
  | put (key : Option CString) (value : Option ν)
  | remove (key : Option CString)
  | get (key : Option CString)
  | containsKey (key : Option CString)

namespace KeyCall

def key : KeyCall ν → Option CString
  | put key _ | remove key | get key | containsKey key => key

def op : KeyCall ν → MapOp (Option CString) (Option ν)
  | put key value => .put key value
  | remove key => .remove key
  | get key => .get key
  | containsKey key => .containsKey key

def step (load : Nat → Nat) (map : HMap ν) : KeyCall ν → Option (HMap ν × MapAnswer ν)
  | put key value => do
    let (map, old) ← map.put load key value
    some (map, .value old)
  | remove key => do
    let (map, old) ← map.remove key
    some (map, .value old)
  | get key => do some (map, .value (← map.get key))
  | containsKey key => do some (map, .member (← map.containsKey key))

/-- What the call means for a table, where `NULL` answers for a missing key. -/
noncomputable def spec (t : Table (Option CString) (Option ν)) (call : KeyCall ν) :
    Table (Option CString) (Option ν) × MapAnswer ν := ((t.step call.op).1, (t.step call.op).2.join)

/-- A `put` that rehashes has fewer than 2³² buckets to go through. -/
def Fits (map : HMap ν) : KeyCall ν → Prop
  | put key _ => map.PutFits key
  | remove _ | get _ | containsKey _ => True

end KeyCall

/-- Each call is safe where it is made. -/
def SafeCalls (load : Nat → Nat) : HMap ν → List (KeyCall ν) → Prop :=
  AllSteps (KeyCall.step load) fun map call => Safe map call.key

/-- No call is undefined, and the answers are those of a finite map. -/
def AnswersAlike (load : Nat → Nat) (map : HMap ν) (t : Table (Option CString) (Option ν)) (calls : List (KeyCall ν)) :
    Prop :=
  ∃ map', runSteps (KeyCall.step load) map calls =
    some (map', (specSteps KeyCall.spec t calls).2)

namespace Stores

theorem step (h : Stores map ids t) (load : Nat → Nat) (call : KeyCall ν) (hs : Safe map call.key)
    (hfits : call.Fits map) :
    ∃ map' ids', call.step load map = some (map', (call.spec t).2) ∧ Stores map' ids' (call.spec t).1 := by
  cases call with
  | put key value =>
    obtain ⟨map', ids', hrun, h'⟩ := h.put (show Safe map key from hs) load hfits value
    exact ⟨map', ids', by rw [KeyCall.step, hrun]; rfl, h'⟩
  | remove key =>
    obtain ⟨map', ids', hrun, h'⟩ := h.remove (show Safe map key from hs)
    exact ⟨map', ids', by rw [KeyCall.step, hrun]; rfl, h'⟩
  | get key => exact ⟨map, ids, by rw [KeyCall.step, (h.get (show Safe map key from hs)).1]; rfl, h⟩
  | containsKey key => exact ⟨map, ids, by rw [KeyCall.step, (h.get (show Safe map key from hs)).2]; rfl, h⟩

theorem safe_of_null (h : Stores map ids t) (hnull : t none = none) (key : Option CString) : Safe map key := by
  refine h.rep.safe_of_comparable ?_
  rintro - i hi hkey
  obtain ⟨k, v, hk, -, ht⟩ := h.stored i hi
  cases hk.symm.trans hkey
  cases hnull.symm.trans ht

theorem safe_of_hash (h : Stores map ids t) {key : Option CString} (hne : map.hash key ≠ 0) : Safe map key := by
  intro b chain hget hlinked _ i hi hkey
  obtain ⟨chain', hlinked', hchain⟩ := h.rep.chained _ _ hget
  obtain rfl := hlinked.unique hlinked'
  have hslot := ((hchain i).mp (upTo_subset _ _ _ hi)).2
  rw [slotAt_of_keyAt hkey] at hslot
  exact hne (Option.some.inj hslot).symm

end Stores

theorem step_of_not_safe (load : Nat → Nat) (call : KeyCall ν) (hs : ¬ Safe map call.key) :
    call.step load map = none := by
  cases call with
  | put key value =>
    rw [KeyCall.step, put_of_not_safe (show ¬ Safe map key from hs)]
    rfl
  | remove key =>
    rw [KeyCall.step, remove_of_not_safe (show ¬ Safe map key from hs)]
    rfl
  | get key =>
    rw [KeyCall.step, HMap.get, getEntry_of_not_safe (show ¬ Safe map key from hs)]
    rfl
  | containsKey key =>
    rw [KeyCall.step, HMap.containsKey, getEntry_of_not_safe (show ¬ Safe map key from hs)]
    rfl

theorem answersAlike_iff (load : Nat → Nat) (h : Stores map ids t) {calls : List (KeyCall ν)}
    (hfits : AllSteps (KeyCall.step load) KeyCall.Fits map calls) :
    AnswersAlike load map t calls ↔ SafeCalls load map calls := by
  induction calls generalizing map ids t with
  | nil => exact iff_of_true ⟨map, rfl⟩ trivial
  | cons call calls ih =>
    by_cases hs : Safe map call.key
    · obtain ⟨map₁, ids₁, hstep, h₁⟩ := h.step load call hs hfits.1
      have hsafe : SafeCalls load map (call :: calls) ↔ SafeCalls load map₁ calls :=
        ⟨fun hall => hall.2 map₁ _ hstep, fun hrest => .cons hs hstep hrest⟩
      rw [hsafe, ← ih h₁ (hfits.2 map₁ _ hstep)]
      constructor
      · rintro ⟨map', hrun⟩
        simp only [runSteps, hstep, Option.bind_eq_bind, Option.bind_some] at hrun
        obtain ⟨⟨map₂, answers⟩, hrest, heq⟩ := Option.bind_eq_some_iff.mp hrun
        cases heq
        exact ⟨map₂, hrest⟩
      · rintro ⟨map', hrun⟩
        exact ⟨map', by rw [runSteps, hstep]; simp [hrun, specSteps]⟩
    · refine iff_of_false ?_ fun hall => hs hall.1
      rintro ⟨map', hrun⟩
      rw [runSteps, step_of_not_safe load call hs] at hrun
      cases hrun

/-- From `hmap_new` on, the map is a finite map exactly as long as no `NULL` key comes before a string's own entry on
the chain where the string is looked for. -/
theorem keyCalls_iff (load : Nat → Nat) (calls : List (KeyCall ν))
    (hfits : AllSteps (KeyCall.step load) KeyCall.Fits (HMap.new load) calls) :
    AnswersAlike load (HMap.new load) Table.empty calls ↔ SafeCalls load (HMap.new load) calls :=
  answersAlike_iff load (.new load) hfits

/-- "A" is not in bucket 0, so `strcmp` never sees the `NULL`. -/
theorem keyCalls_iff_apart : AnswersAlike (fun n => n * 3 / 4) (HMap.new fun n => n * 3 / 4) Table.empty
    [.put none (some 1), .put (some [0x41]) none, .get (some [0x41]), .remove none, .containsKey none] := by
  have hnull : ∀ map : HMap Nat, Safe map none := fun map _ _ _ _ h => absurd rfl h
  refine (keyCalls_iff _ _ ?_).mpr
    (.cons (hnull _) rfl <| .cons ?_ rfl <| .cons ?_ rfl <| .cons (hnull _) rfl <| .cons (hnull _) rfl trivial)
  · exact .cons (fun _ _ => by decide) rfl <| .cons (fun _ _ => by decide) rfl <| .cons trivial rfl <|
      .cons trivial rfl <| .cons trivial rfl trivial
  · rintro _ chain ⟨⟩ hlinked
    obtain ⟨rfl, -⟩ := hlinked.of_none
    exact fun _ _ hi => absurd hi List.not_mem_nil
  · rintro _ chain ⟨⟩ hlinked
    obtain ⟨chain, _, rfl, ⟨⟩, hlinked⟩ := hlinked.of_some
    obtain ⟨rfl, -⟩ := hlinked.of_none
    rintro - i hi hkey
    obtain rfl := List.mem_singleton.mp (upTo_subset _ _ _ hi)
    cases hkey

/-- The hash of "B" is 66, and there are 11 buckets. -/
theorem not_answersAlike : ¬ AnswersAlike (fun n => n * 3 / 4) (HMap.new fun n => n * 3 / 4) Table.empty
    [.put none (some 1), .get (some [0x42])] := by
  rintro ⟨map', hrun⟩
  cases hrun

end Renameutils.HMap
