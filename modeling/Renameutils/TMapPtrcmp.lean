import Renameutils.TMapRefines
import Mathlib.Data.Fintype.Card
import Mathlib.Order.WellFounded

/-!
# The default order of the keys

A map from `tmap_new` compares the addresses of the keys by `ptrcmp`, which narrows their distance to an `int`. This
orders a set of keys, and the map tells them apart, exactly when there is an address from which the distances of the
keys, modulo 2³², are different and below 2³¹ (`keepsKeys_iff`).
-/

namespace Renameutils.TMap

open RBTree

/-- `(int) (v0-v1)`. -/
def ptrcmp (v0 v1 : BitVec 64) : Int := ((v0 - v1).setWidth 32).toInt

/-- What is left of the distance of `u` from `b` in 32 bits. -/
def distance (b u : BitVec 64) : Nat := ((u - b).setWidth 32).toNat

/-- `ptrcmp` is a total order of the keys, and the map keeps them apart and finds them again. -/
structure KeepsKeys (K : Set (BitVec 64)) : Prop where
  eq_of_zero : ∀ u ∈ K, ∀ v ∈ K, ptrcmp u v = 0 → u = v
  pos_iff : ∀ u ∈ K, ∀ v ∈ K, 0 < ptrcmp u v ↔ ptrcmp v u < 0
  trans : ∀ u ∈ K, ∀ v ∈ K, ∀ w ∈ K, 0 < ptrcmp u v → 0 < ptrcmp v w → 0 < ptrcmp u w
  answers : ∀ {ν : Type} (ops : List (MapOp (BitVec 64) (Option ν))), (∀ op ∈ ops, op.KeyIn K) →
    ∃ map, runSteps (TMap.step ptrcmp) (TMap.new : TMap (BitVec 64) ν) ops =
      some (map, (specSteps TMap.spec Table.empty ops).2)

section Congr

variable {κ ν : Type} {compare compare' : κ → κ → Int} {map : TMap κ ν} {t T : RBTree (TMapItem κ ν)}
variable {path : Path (TMapItem κ ν)} {key : κ}

/-- Only the comparisons with the keys in the tree matter. -/
theorem putLoop_congr (h : Rep map (plug t path)) (hc : ∀ a ∈ t.toList, compare key a.key = compare' key a.key)
    (fuel parent : Nat) (c : Int) :
    map.putLoop compare key fuel (rootId t) parent c = map.putLoop compare' key fuel (rootId t) parent c := by
  induction t generalizing path fuel parent c with
  | leaf =>
    obtain _ | fuel := fuel
    · rfl
    · rw [rootId_leaf, putLoop, putLoop, if_pos rfl, if_pos rfl]
  | node red l a r ihl ihr =>
    obtain _ | fuel := fuel
    · rfl
    have hn := Rep.node (s := .left) h
    have hne : a.id ≠ nil := Rep.id_ne_nil (s := .left) h
    have hl : Rep map (plug l (⟨.left, red, a, r⟩ :: path)) := h
    have hr : Rep map (plug r (⟨.right, red, a, l⟩ :: path)) := h
    have ha : compare key a.key = compare' key a.key := hc a (by simp [toList])
    have hleft := ihl hl (fun b hb => hc b (by simp [toList, hb])) fuel a.id (compare' key a.key)
    have hright := ihr hr (fun b hb => hc b (by simp [toList, hb])) fuel a.id (compare' key a.key)
    have hrun : ∀ cmp : κ → κ → Int, map.putLoop cmp key (fuel + 1) a.id parent c =
        if 0 < cmp key a.key then map.putLoop cmp key fuel (rootId r) a.id (cmp key a.key)
        else if cmp key a.key < 0 then map.putLoop cmp key fuel (rootId l) a.id (cmp key a.key)
        else some (a.id, a.id, cmp key a.key) := by
      intro cmp
      rw [putLoop, if_neg hne, hn]
      rfl
    show map.putLoop compare key (fuel + 1) a.id parent c = map.putLoop compare' key (fuel + 1) a.id parent c
    rw [hrun, hrun, ha, hleft, hright]

theorem putLoop_root_congr (h : Rep map T) (hc : ∀ a ∈ T.toList, compare key a.key = compare' key a.key) :
    map.putLoop compare key map.fuel map.root nil 0 = map.putLoop compare' key map.fuel map.root nil 0 := by
  have h' : Rep map (plug T []) := h
  rw [h.root]
  exact putLoop_congr h' hc map.fuel nil 0

theorem getNode_congr (h : Rep map T) (hc : ∀ a ∈ T.toList, compare key a.key = compare' key a.key) :
    map.getNode compare key = map.getNode compare' key := by
  rw [getNode, getNode, getNodeLoop_eq compare map key _ _ nil 0, getNodeLoop_eq compare' map key _ _ nil 0,
    putLoop_root_congr h hc]

theorem step_congr {K : Set κ} (h : Rep map T) (hT : ∀ a ∈ T.toList, a.key ∈ K)
    (hc : ∀ u ∈ K, ∀ v ∈ K, compare u v = compare' u v) (op : MapOp κ (Option ν)) (hop : op.KeyIn K) :
    TMap.step compare map op = TMap.step compare' map op := by
  have hkeys : ∀ key ∈ K, ∀ a ∈ T.toList, compare key a.key = compare' key a.key :=
    fun key hkey a ha => hc key hkey a.key (hT a ha)
  cases op with
  | put key value => rw [step, step, put, put, putLoop_root_congr h (hkeys key hop)]
  | remove key => rw [step, step, remove, remove, getNode_congr h (hkeys key hop)]
  | get key => rw [step, step, get, get, getNode_congr h (hkeys key hop)]
  | containsKey key => rw [step, step, containsKey, containsKey, getNode_congr h (hkeys key hop)]
  | clear => rfl
  | size => rfl

theorem spec_keysIn [DecidableEq κ] {K : Set κ} {t : Table κ (Option ν)} (ht : ∀ k, t k ≠ none → k ∈ K)
    {op : MapOp κ (Option ν)} (hop : op.KeyIn K) : ∀ k, (spec t op).1 k ≠ none → k ∈ K := by
  intro k hk
  cases op with
  | put key value =>
    by_cases hkey : k = key
    · exact hkey ▸ hop
    · exact ht k (Table.put_ne t value hkey ▸ hk)
  | remove key =>
    by_cases hkey : k = key
    · exact hkey ▸ hop
    · exact ht k (Table.remove_ne t hkey ▸ hk)
  | get key => exact ht k hk
  | containsKey key => exact ht k hk
  | clear => exact absurd rfl hk
  | size => exact ht k hk

/-- The comparison need be an order on the keys in use only. -/
theorem calls_answer [LinearOrder κ] [dec : DecidableEq κ] (hcmp : IsComparator compare') {K : Set κ}
    (hc : ∀ u ∈ K, ∀ v ∈ K, compare u v = compare' u v) {ops : List (MapOp κ (Option ν))}
    (hops : ∀ op ∈ ops, op.KeyIn K) :
    ∃ map, runSteps (TMap.step compare) (TMap.new : TMap κ ν) ops =
      some (map, (specSteps TMap.spec Table.empty ops).2) := by
  obtain rfl : dec = LinearOrder.toDecidableEq := Subsingleton.elim _ _
  let R : TMap κ ν → Table κ (Option ν) → Prop := fun map t => (∃ T, Holds map T t) ∧ ∀ k, t k ≠ none → k ∈ K
  have hstep : ∀ map t op, op.KeyIn K → R map t →
      ∃ map', TMap.step compare map op = some (map', (TMap.spec t op).2) ∧ R map' (TMap.spec t op).1 := by
    rintro map t op hop ⟨⟨T, h⟩, ht⟩
    have hT : ∀ a ∈ T.toList, a.key ∈ K := by
      intro a ha
      refine ht a.key ?_
      rw [h.listing.apply (List.mem_map_of_mem ha)]
      exact Option.some_ne_none a.value
    obtain ⟨map', hrun, T', h'⟩ := h.step hcmp op
    exact ⟨map', (step_congr h.rep hT hc op hop).trans hrun, ⟨T', h'⟩, spec_keysIn ht hop⟩
  have hempty : R TMap.new Table.empty := ⟨⟨leaf, .new⟩, fun _ hk => absurd rfl hk⟩
  have hall : AllSteps (TMap.step compare) (fun _ op => op.KeyIn K) (TMap.new : TMap κ ν) ops :=
    .of_forall (fun op hop _ => hops op hop) _
  obtain ⟨map, hrun, -⟩ := run_refines_of hstep hall hempty
  exact ⟨map, hrun⟩

end Congr

section Keys

variable {K : Set (BitVec 64)} {b u v : BitVec 64}

theorem ptrcmp_eq (hu : distance b u < 2 ^ 31) (hv : distance b v < 2 ^ 31) :
    ptrcmp u v = (distance b u : Int) - distance b v := by
  unfold ptrcmp
  unfold distance at *
  have := u.isLt
  have := v.isLt
  have := b.isLt
  rw [BitVec.toInt_eq_toNat_cond]
  simp only [BitVec.toNat_setWidth, BitVec.toNat_sub] at *
  split <;> omega

theorem distance_eq_iff : distance b u = distance b v ↔ ptrcmp u v = 0 := by
  unfold ptrcmp distance
  have := u.isLt
  have := v.isLt
  have := b.isLt
  rw [BitVec.toInt_eq_toNat_cond]
  simp only [BitVec.toNat_setWidth, BitVec.toNat_sub]
  split <;> omega

theorem distance_lt_iff : distance b u < 2 ^ 31 ↔ 0 ≤ ptrcmp u b := by
  unfold ptrcmp distance
  rw [BitVec.toInt_eq_toNat_cond]
  have := ((u - b).setWidth 32).isLt
  split <;> omega

/-- Addresses by their distance from `b`, and those at the same distance by their value. -/
def rank (b u : BitVec 64) : Nat := distance b u * 2 ^ 64 + u.toNat

theorem rank_injective (b : BitVec 64) : Function.Injective (rank b) := by
  intro u v h
  have := u.isLt
  have := v.isLt
  unfold rank at h
  exact BitVec.eq_of_toNat_eq (by omega)

/-- All addresses in this order. -/
@[reducible] def byRank (b : BitVec 64) : LinearOrder (BitVec 64) := LinearOrder.lift' (rank b) (rank_injective b)

open Classical in
/-- `ptrcmp` among the keys, and the order of the ranks elsewhere. -/
noncomputable def rankcmp (K : Set (BitVec 64)) (b u v : BitVec 64) : Int :=
  if u ∈ K ∧ v ∈ K then ptrcmp u v else (rank b u : Int) - rank b v

theorem isComparator_rankcmp (hK : ∀ u ∈ K, distance b u < 2 ^ 31)
    (hinj : ∀ u ∈ K, ∀ v ∈ K, distance b u = distance b v → u = v) :
    @IsComparator (BitVec 64) (byRank b) (rankcmp K b) := by
  have hsign : ∀ u v, (0 < rankcmp K b u v ↔ rank b v < rank b u) ∧ (rankcmp K b u v < 0 ↔ rank b u < rank b v) := by
    intro u v
    unfold rankcmp
    split
    · next h =>
      rw [ptrcmp_eq (hK u h.1) (hK v h.2)]
      have := u.isLt
      have := v.isLt
      rcases Nat.lt_trichotomy (distance b u) (distance b v) with hlt | heq | hgt
      · unfold rank
        constructor <;> constructor <;> intro <;> omega
      · obtain rfl := hinj u h.1 v h.2 heq
        constructor <;> constructor <;> intro <;> omega
      · unfold rank
        constructor <;> constructor <;> intro <;> omega
    · constructor <;> constructor <;> intro <;> omega
  exact @IsComparator.mk (BitVec 64) (byRank b) _ (fun u v => (hsign u v).1) fun u v => (hsign u v).2

theorem KeepsKeys.exists_least (h : KeepsKeys K) (hne : K.Nonempty) : ∃ b ∈ K, ∀ u ∈ K, 0 ≤ ptrcmp u b := by
  have hfinite : Finite (BitVec 64) := Finite.of_injective BitVec.toFin fun _ _ => BitVec.eq_of_toFin_eq
  let lt : K → K → Prop := fun u v => ptrcmp u v < 0
  have htrans : IsTrans K lt := ⟨fun u v w huv hvw => (h.pos_iff w w.2 u u.2).mp
    (h.trans w w.2 v v.2 u u.2 ((h.pos_iff w w.2 v v.2).mpr hvw) ((h.pos_iff v v.2 u u.2).mpr huv))⟩
  have hirrefl : Std.Irrefl lt := ⟨fun u hu => by
    have := (h.pos_iff u u.2 u u.2).mpr hu
    exact absurd hu (Int.not_lt.mpr (Int.le_of_lt this))⟩
  obtain ⟨a, ha⟩ := hne
  obtain ⟨b, -, hb⟩ := (Finite.wellFounded_of_trans_of_irrefl lt).has_min Set.univ ⟨⟨a, ha⟩, trivial⟩
  exact ⟨b, b.2, fun u hu => Int.not_lt.mp (hb ⟨u, hu⟩ trivial)⟩

/-- A set of keys is kept exactly when it lies within a window of 2³¹ addresses, modulo 2³². -/
theorem keepsKeys_iff (K : Set (BitVec 64)) : KeepsKeys K ↔
    ∃ b, (∀ u ∈ K, distance b u < 2 ^ 31) ∧ ∀ u ∈ K, ∀ v ∈ K, distance b u = distance b v → u = v := by
  constructor
  · intro h
    obtain rfl | hne := K.eq_empty_or_nonempty
    · exact ⟨0, fun _ hu => absurd hu (Set.notMem_empty _), fun _ hu => absurd hu (Set.notMem_empty _)⟩
    · obtain ⟨b, -, hb⟩ := h.exists_least hne
      exact ⟨b, fun u hu => distance_lt_iff.mpr (hb u hu), fun u hu v hv heq =>
        h.eq_of_zero u hu v hv (distance_eq_iff.mp heq)⟩
  · rintro ⟨b, hK, hinj⟩
    have hcmp : ∀ u ∈ K, ∀ v ∈ K, ptrcmp u v = (distance b u : Int) - distance b v :=
      fun u hu v hv => ptrcmp_eq (hK u hu) (hK v hv)
    refine ⟨fun u hu v hv hzero => hinj u hu v hv (distance_eq_iff.mpr hzero), fun u hu v hv => ?_,
      fun u hu v hv w hw huv hvw => ?_, fun ops hops => ?_⟩
    · rw [hcmp u hu v hv, hcmp v hv u hu]
      omega
    · rw [hcmp u hu v hv] at huv
      rw [hcmp v hv w hw] at hvw
      rw [hcmp u hu w hw]
      omega
    · have hagree : ∀ u ∈ K, ∀ v ∈ K, ptrcmp u v = rankcmp K b u v := fun u hu v hv => (if_pos ⟨hu, hv⟩).symm
      exact @calls_answer (BitVec 64) _ ptrcmp _ (byRank b) _ (isComparator_rankcmp hK hinj) K hagree ops hops

/-- Two addresses at a distance of 2³². -/
theorem not_keepsKeys : ¬ KeepsKeys {0x55550000, 0x155550000} := by
  intro h
  have heq := h.eq_of_zero 0x55550000 (by simp) 0x155550000 (by simp) (by decide)
  exact absurd heq (by decide)

end Keys

end Renameutils.TMap
