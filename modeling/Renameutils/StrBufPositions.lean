import Renameutils.StrBufRuns

/-!
# Positions that count from the end

`normalize_str_pos` lets a negative position count from the end of a string. `normalize_strbuf_pos` is written to
do the same, but compares the position with an unsigned length first, and there every negative position is
beyond the end.
-/

namespace Renameutils.StrBuf

open Mem

/-- `min(pos, n)`, or `max(0, n + 1 + pos)` when `pos` is negative. -/
def countedPos (n : Nat) (pos : Int) : Nat := if 0 ≤ pos then min pos.toNat n else (n + 1 + pos).toNat

/-- The string that starts at `buf`. -/
def Mem.string (sb : Mem) : CString := (sb.buf.takeWhile (· != some 0)).map (·.getD 0)

/-- Both positions are counted, as `normalize_str_pos` does, and so they are for each function that takes
positions. -/
structure CountsFromEnd (sb : Mem) (str : StrBuf) (sp ep : Int) : Prop where
  sp_eq : sb.normalizePos sp = countedPos str.length sp
  ep_eq : sb.normalizePos ep = countedPos str.length ep
  sp_string : sb.normalizePos sp = Mem.normalizeStrPos (some sb.string) sp
  ep_string : sb.normalizePos ep = Mem.normalizeStrPos (some sb.string) ep
  charAt : sb.charAt sp = some (some (str.getD (countedPos str.length sp) 0))
  substring : sb.substring sp ep = some ((slice str (min (countedPos str.length sp) (countedPos str.length ep))
    (max (countedPos str.length sp) (countedPos str.length ep))).map some ++ [some 0])
  delete : ∃ sb', sb.delete sp ep = some sb' ∧ WellFormed sb' ∧
    sb'.content = (str.take (min (countedPos str.length sp) (countedPos str.length ep)) ++
      str.drop (max (countedPos str.length sp) (countedPos str.length ep))).map some

variable {sb : Mem} {str : StrBuf} {sp ep : Int} {a b : Nat}

theorem countedPos_le {n : Nat} {pos : Int} : countedPos n pos ≤ n := by
  unfold countedPos
  split <;> omega

theorem normalizePos_int32 (h : Holds sb (str.map some)) (hlen : str.length < 2 ^ 31) (hsp : IsInt32 sp) :
    sb.normalizePos sp = ↑(if 0 ≤ sp then min sp.toNat str.length else str.length) := by
  have hsb : sb.len = str.length := by rw [h.len, List.length_map]
  obtain ⟨hlo, hhi⟩ := hsp
  have hint : int32 str.length = str.length := int32_eq (by omega) (by omega)
  rw [normalizePos, hsb, hint]
  by_cases hpos : 0 ≤ sp
  · have huint : uint32 sp = sp.toNat := uint32_eq (by omega) (by omega)
    rw [huint, if_pos hpos, if_pos hpos]
    split <;> omega
  · have huint : str.length ≤ uint32 sp := by
      unfold uint32
      omega
    rw [if_pos huint, if_neg hpos]

theorem string_eq (h : Holds sb (str.map some)) (hnul : 0 ∉ str) : sb.string = str := by
  obtain ⟨slack, hbuf⟩ := h.buf
  have hall : ∀ ch ∈ str.map some, (ch != some (0 : UInt8)) = true := by
    intro ch hch
    obtain ⟨ch, hmem, rfl⟩ := List.mem_map.mp hch
    exact bne_iff_ne.mpr fun heq => hnul (Option.some.inj heq ▸ hmem)
  rw [Mem.string, hbuf, List.takeWhile_append_of_pos hall, List.takeWhile_cons_of_neg (by simp), List.append_nil,
    List.map_map]
  exact List.map_id str

theorem charAt_eq (h : Holds sb (str.map some)) (hsp : sb.normalizePos sp = a) (ha : a ≤ str.length) :
    sb.charAt sp = some (some (str.getD a 0)) := by
  obtain ⟨slack, hbuf⟩ := h.buf
  rw [Mem.charAt, hsp, hbuf, Block.read, if_pos (by omega), Int.toNat_natCast]
  rcases Nat.lt_or_eq_of_le ha with hlt | rfl
  · rw [List.getElem?_append_left (by rwa [List.length_map])]
    simp [hlt]
  · rw [List.getElem?_append_right (by rw [List.length_map]), List.length_map, Nat.sub_self]
    simp

theorem substring_eq (h : Holds sb (str.map some)) (hsp : sb.normalizePos sp = a) (hep : sb.normalizePos ep = b)
    (ha : a ≤ str.length) (hb : b ≤ str.length) :
    sb.substring sp ep = some ((slice str (min a b) (max a b)).map some ++ [some 0]) := by
  rw [Mem.substring, hsp, hep, swapPos_nat, ← slice_map]
  have hhi : max a b ≤ (str.map some).length := by
    rw [List.length_map]
    exact max_le ha hb
  have hle : min a b ≤ max a b := (min_le_left ..).trans (le_max_left ..)
  obtain ⟨x, rest, -, -, hcut, -⟩ := h.cutBehind hle hhi
  have hlen := length_slice (min a b) hhi
  have hload : sb.buf.load ↑(min a b) (↑(max a b) - ↑(min a b) + 1 : Int).toNat =
      some (slice (str.map some) (min a b) (max a b) ++ [x]) := by
    rw [hcut]
    refine Block.load_append ?_ ?_
    · rw [List.length_take_of_le (hle.trans hhi)]
    · rw [List.length_append, hlen, List.length_singleton]
      omega
  have hstore : Block.store (slice (str.map some) (min a b) (max a b) ++ [x]) (↑(max a b) - ↑(min a b)) [some 0] =
      some (slice (str.map some) (min a b) (max a b) ++ [some 0]) := by
    refine Block.store_one ?_
    rw [hlen]
    omega
  simp only [hload, Option.bind_eq_bind, Option.bind_some, hstore]

theorem delete_holds (h : Holds sb (str.map some)) (hlen : str.length < 2 ^ 31) (hsp : sb.normalizePos sp = a)
    (hep : sb.normalizePos ep = b) (ha : a ≤ str.length) (hb : b ≤ str.length) :
    ∃ sb', sb.delete sp ep = some sb' ∧ Holds sb' ((str.take (min a b) ++ str.drop (max a b)).map some) := by
  have hpos := swapPos_nat a b
  rw [← hsp, ← hep] at hpos
  have hhi : max a b ≤ str.length := max_le ha hb
  have hdata : substringData none 0 (-1) = [] := rfl
  obtain ⟨sb', hrun, h'⟩ := h.replaceRange ((min_le_left ..).trans (le_max_left ..)) (by rwa [List.length_map]) hpos
    (show _ + 1 * ([] : List UInt8).length + _ < _ by rw [List.length_map, List.length_nil]; omega)
  refine ⟨sb', by rw [Mem.delete, Mem.replaceSubstringN, hdata, hrun], ?_⟩
  rw [List.map_append, List.map_take, List.map_drop]
  rwa [copies_eq_nil (by simp), List.append_nil] at h'

/-- The positions of the buffer are those of the string, and count from the end, for the position -1 and those that
are not negative; the others only where there is nothing to count. -/
theorem countsFromEnd_iff (h : WellFormed sb) (hstr : sb.content = str.map some) (hnul : 0 ∉ str)
    (hlen : str.length < 2 ^ 31 - 1) (hsp : IsInt32 sp) (hep : IsInt32 ep) :
    CountsFromEnd sb str sp ep ↔ (-1 ≤ sp ∧ -1 ≤ ep) ∨ str = [] := by
  have hholds : Holds sb (str.map some) := holds_iff.mpr ⟨h, hstr⟩
  have hlen' : str.length < 2 ^ 31 := by omega
  have heq := normalizePos_int32 hholds hlen' hsp
  have heq' := normalizePos_int32 hholds hlen' hep
  constructor
  · intro hc
    have h1 := hc.sp_eq
    have h2 := hc.ep_eq
    rw [heq] at h1
    rw [heq'] at h2
    rw [← List.length_eq_zero_iff]
    unfold countedPos at h1 h2
    split at h1 <;> split at h2 <;> omega
  · intro hok
    rw [← List.length_eq_zero_iff] at hok
    have hcount : ∀ pos : Int, (-1 ≤ pos ∨ str.length = 0) → IsInt32 pos →
        sb.normalizePos pos = countedPos str.length pos ∧
          (countedPos str.length pos : Int) = Mem.normalizeStrPos (some sb.string) pos := by
      intro pos hpos hint
      rw [normalizePos_int32 hholds hlen' hint, string_eq hholds hnul, normalizeStrPos_eq hlen' hint]
      unfold countedPos normalizeStrPos
      split <;> constructor <;> omega
    obtain ⟨h1, h3⟩ := hcount sp (by omega) hsp
    obtain ⟨h2, h4⟩ := hcount ep (by omega) hep
    obtain ⟨sb', hrun, h'⟩ := delete_holds hholds hlen' h1 h2 countedPos_le countedPos_le
    exact ⟨h1, h2, h1.trans h3, h2.trans h4, charAt_eq hholds h1 countedPos_le,
      substring_eq hholds h1 h2 countedPos_le countedPos_le, sb', hrun, h'.wellFormed, h'.content_eq⟩

theorem countsFromEnd_abc :
    CountsFromEnd ⟨[some 97, some 98, some 99, some 0], 3, 4⟩ [97, 98, 99] 1 (-1) ↔ (-1 ≤ (1 : Int) ∧ -1 ≤ (-1 : Int)) ∨
      ([97, 98, 99] : StrBuf) = [] := by
  have h : WellFormed ⟨[some 97, some 98, some 99, some 0], 3, 4⟩ := ⟨rfl, by decide, by decide, rfl⟩
  exact countsFromEnd_iff h rfl (by decide) (by decide) ⟨by decide, by decide⟩ ⟨by decide, by decide⟩

/-- The position -2 of `abc` is the end, where `normalize_str_pos` finds the `c`. -/
theorem not_countsFromEnd : ∃ sb, newFromDataN 1 [97, 98, 99] = some sb ∧ sb.charAt (-2) = some (some 0) ∧
    Mem.normalizeStrPos (some sb.string) (-2) = 2 ∧ ¬ CountsFromEnd sb [97, 98, 99] (-2) (-1) :=
  ⟨⟨[some 97, some 98, some 99, some 0], 3, 4⟩, rfl, by decide, by decide,
    fun h => absurd h.sp_eq (by decide)⟩

end Renameutils.StrBuf
