import Renameutils.StrBufHolds

/-!
# `strbuf_replace_data_n` on every buffer

Behind append, insert, set, clear and prepend is this one function. It works for buffers shorter than 2³¹ bytes,
where a length is a position. In a longer buffer the position -1 becomes a negative number, and the function
writes in front of its allocation; without -1 it works there too.
-/

namespace Renameutils.StrBuf.Mem

variable {sb : Mem} {sp ep : Int} {times : Nat} {mem : List UInt8}

/-- A well-formed buffer is left, with the copies of the block in the place of the bytes between the two positions,
and no byte outside of the allocation was read or written. -/
def ReplacesExactly (sb : Mem) (sp ep : Int) (times : Nat) (mem : List UInt8) : Prop :=
  let lo := min (place sb.len sp) (place sb.len ep)
  let hi := max (place sb.len sp) (place sb.len ep)
  ∃ sb', sb.replaceDataN sp ep times mem = some sb' ∧ WellFormed sb' ∧
    sb'.content = sb.content.take lo ++ copies times mem ++ sb.content.drop hi

/-- The length that the content should get. -/
def replacedLength (sb : Mem) (sp ep : Int) (times : Nat) (mem : List UInt8) : Nat :=
  min (place sb.len sp) (place sb.len ep) + times * mem.length +
    (sb.len - max (place sb.len sp) (place sb.len ep))

theorem replacesExactly_of_positions (h : WellFormed sb)
    (hsp : sb.normalizePos sp = place sb.len sp) (hep : sb.normalizePos ep = place sb.len ep)
    (hlt : sb.replacedLength sp ep times mem + 1 < 2 ^ 31) : ReplacesExactly sb sp ep times mem := by
  have hholds : Holds sb sb.content := holds_iff.mpr ⟨h, rfl⟩
  have hhi : max (place sb.len sp) (place sb.len ep) ≤ sb.content.length :=
    hholds.len ▸ max_le (place_le ..) (place_le ..)
  have hle : min (place sb.len sp) (place sb.len ep) ≤ max (place sb.len sp) (place sb.len ep) :=
    (min_le_left ..).trans (le_max_left ..)
  have hpos := swapPos_nat (place sb.len sp) (place sb.len ep)
  rw [← hsp, ← hep] at hpos
  obtain ⟨sb', hrun, h'⟩ := hholds.replaceRange hle hhi hpos (by rw [← hholds.len]; exact Nat.lt_of_succ_lt hlt)
  exact ⟨sb', hrun, h'.wellFormed, h'.content_eq⟩

theorem place_end (n : Nat) : place n (-1) = n := if_pos rfl

/-- A position that fits `int32_t` is inside a buffer of 2³¹ bytes or more. -/
theorem place_of_long (hlen : 2 ^ 31 ≤ sb.len) (hsp : 0 ≤ sp ∧ sp < 2 ^ 31) : place sb.len sp = sp.toNat := by
  rw [place, if_neg (by omega)]
  omega

/-- Where `normalize_strbuf_pos` takes -1 to in a buffer of 2³¹ bytes or more. -/
theorem normalizePos_end_of_long (hlen : 2 ^ 31 ≤ sb.len) (hcap : sb.len < 2 ^ 32) :
    sb.normalizePos (-1) = (sb.len : Int) - 2 ^ 32 := by
  rw [normalizePos, if_pos (by unfold uint32; omega), int32_of_ge hlen hcap]

theorem replaceDataN_of_long (hlen : 2 ^ 31 ≤ sb.len) (hcap : sb.len < 2 ^ 32) {p : Nat}
    (hlt : p + times * mem.length < 2 ^ 31)
    (hpos : swapPos (sb.normalizePos sp) (sb.normalizePos ep) = ((sb.len : Int) - 2 ^ 32, ↑p)) :
    sb.replaceDataN sp ep times mem = none := by
  have hadd : uint32 (mem.length * times) = times * mem.length :=
    uint32_eq (by rw [Int.mul_comm]; simp) (by omega)
  have hdel : 0 < uint32 (p - ((sb.len : Int) - 2 ^ 32)) := by
    unfold uint32
    omega
  rw [Mem.replaceDataN, hpos]
  simp only [hadd, Option.bind_eq_bind]
  generalize uint32 (p - ((sb.len : Int) - 2 ^ 32)) = dellen at hdel ⊢
  cases hrun : sb.resizeRange ((sb.len : Int) - 2 ^ 32) p (times * mem.length) dellen with
  | none => rfl
  | some sb₁ =>
    rw [Option.bind_some]
    by_cases hzero : times * mem.length = 0
    · -- only the tail is moved
      rw [resizeRange, if_pos (by omega), hzero] at hrun
      obtain ⟨sb₂, -, hrun⟩ := Option.bind_eq_some_iff.mp hrun
      rw [Block.move_of_neg (by omega)] at hrun
      cases hrun
    · rw [if_pos (by omega), replaceLoop_of_neg (by omega)
        (Nat.pos_of_mul_pos_right (Nat.pos_of_ne_zero hzero))]
      rfl

/-- `strbuf_replace_data_n` is exact for all buffers shorter than 2³¹ bytes, and for longer ones when neither
position is -1. -/
theorem replaceDataN_exact_iff (h : WellFormed sb) (hsp : IsPos sp) (hep : IsPos ep)
    (hlt : sb.replacedLength sp ep times mem + 1 < 2 ^ 31) :
    ReplacesExactly sb sp ep times mem ↔ sb.len < 2 ^ 31 ∨ (0 ≤ sp ∧ 0 ≤ ep) := by
  have hcap : sb.len < 2 ^ 32 := h.len_lt.trans h.capacity_lt
  constructor
  · rintro ⟨sb', hrun, -⟩
    by_contra! hnot
    obtain ⟨hlen, hneg⟩ := hnot
    have hend := normalizePos_end_of_long hlen hcap
    unfold replacedLength at hlt
    refine Option.some_ne_none _ (hrun.symm.trans ?_)
    rcases hsp with rfl | hsp' <;> rcases hep with rfl | hep'
    · rw [place_end] at hlt
      omega
    · have hp := normalizePos_eq hcap (.inr hep') (.inr hep'.1)
      rw [place_end, place_of_long hlen hep'] at hlt
      rw [place_of_long hlen hep'] at hp
      exact replaceDataN_of_long hlen hcap (p := ep.toNat) (by omega) (by rw [hend, hp, swapPos_of_le (by omega)])
    · have hp := normalizePos_eq hcap (.inr hsp') (.inr hsp'.1)
      rw [place_end, place_of_long hlen hsp'] at hlt
      rw [place_of_long hlen hsp'] at hp
      exact replaceDataN_of_long hlen hcap (p := sp.toNat) (by omega) (by rw [hend, hp, swapPos_of_gt (by omega)])
    · exact absurd (hneg hsp'.1) (by omega)
  · intro hok
    refine replacesExactly_of_positions h (normalizePos_eq hcap hsp ?_) (normalizePos_eq hcap hep ?_) hlt
    · exact hok.imp_right And.left
    · exact hok.imp_right And.right

theorem replaceDataN_exact_abc : ReplacesExactly ⟨[some 97, some 98, some 99, some 0], 3, 4⟩ 1 (-1) 2 [120] ↔
    3 < 2 ^ 31 ∨ ((0 : Int) ≤ 1 ∧ (0 : Int) ≤ -1) := by
  have h : WellFormed ⟨[some 97, some 98, some 99, some 0], 3, 4⟩ := ⟨rfl, by decide, by decide, rfl⟩
  exact replaceDataN_exact_iff h (.inr (by decide)) (.inl rfl) (by decide)

/-- `strbuf_clear` on a buffer of 2³¹ + 1 bytes. -/
theorem replaceDataN_not_exact : ∃ sb, newFromDataN 1 (List.replicate (2 ^ 31 + 1) 97) = some sb ∧ WellFormed sb ∧
    IsPos 0 ∧ IsPos (-1) ∧ sb.replacedLength 0 (-1) 1 [] + 1 < 2 ^ 31 ∧ ¬ ReplacesExactly sb 0 (-1) 1 [] := by
  have hlen : (List.replicate (2 ^ 31 + 1) (97 : UInt8)).length = 2 ^ 31 + 1 := List.length_replicate
  obtain ⟨sb, hrun, h⟩ := newFromDataN_spec 1 (List.replicate (2 ^ 31 + 1) 97) (by omega)
  have hsb : sb.len = 2 ^ 31 + 1 := by
    rw [h.len, length_copies, hlen]
    omega
  have hlt : sb.replacedLength 0 (-1) 1 [] + 1 < 2 ^ 31 := by
    simp [replacedLength, place, hsb]
  refine ⟨sb, hrun, h.wellFormed, .inr (by omega), .inl rfl, hlt, ?_⟩
  rintro ⟨sb', hclear, -⟩
  refine Option.some_ne_none _ (hclear.symm.trans ?_)
  have hend : sb.normalizePos (-1) = _ := normalizePos_end_of_long (by omega) (by omega)
  have hzero : sb.normalizePos 0 = _ := normalizePos_eq (by omega) (.inr (by omega)) (.inr (by omega))
  rw [place_of_long (by omega) (by omega)] at hzero
  have hpos : swapPos (sb.normalizePos 0) (sb.normalizePos (-1)) = ((sb.len : Int) - 2 ^ 32, ↑(0 : Nat)) := by
    rw [hend, hzero, swapPos_of_gt (by omega)]
    rfl
  exact replaceDataN_of_long (by omega) (by omega) (by simp) hpos

end Renameutils.StrBuf.Mem
