import Renameutils.StrBufHolds
import Renameutils.Lib.Runs
import Mathlib.Data.List.Induction

/-!
# Runs of a string buffer

A buffer in memory, after any calls, holds what the calls make of the characters of a `StrBuf`. Two functions
do not always do so. `strbuf_reverse_substring` swaps from the position `ep` on, which is the one after the
range: it is right when the range is empty or one byte over and over, up to the byte at `ep`
(`reverseSubstring_iff`). `strbuf_repeat_substring` moves the tail to the wrong place and writes one copy too
many: it is right when it has nothing to do.
-/

namespace Renameutils.StrBuf

open Mem

/-- What `strbuf_reverse_substring` should do. -/
def reversed (sb : StrBuf) (lo hi : Nat) : StrBuf := sb.take lo ++ (slice sb lo hi).reverse ++ sb.drop (max lo hi)

/-- What `strbuf_repeat_substring` should do. -/
def repeated (sb : StrBuf) (lo hi times : Nat) : StrBuf :=
  sb.take lo ++ (List.replicate times (slice sb lo hi)).flatten ++ sb.drop (max lo hi)

/-- The characters of a string from one position to another, in either order; of `NULL` none. -/
def substringOf (substr : Option CString) (subsp subep : Int) : CString :=
  let sp := normalizeStrPos (substr.getD []) subsp
  let ep := normalizeStrPos (substr.getD []) subep
  slice (substr.getD []) (min sp ep) (max sp ep)

/-- A position that is -1 or within the content. -/
def InRange (sb : StrBuf) (pos : Int) : Prop := pos = -1 ∨ 0 ≤ pos ∧ pos ≤ sb.length

/-- A call that changes a buffer. -/
inductive Call where
  | replaceCharN (sp ep : Int) (times : Nat) (ch : UInt8)
  | replaceSubstringN (sp ep : Int) (times : Nat) (substr : Option CString) (subsp subep : Int)
  | replaceDataN (sp ep : Int) (times : Nat) (mem : List UInt8)
  | vreplacefN (sp ep : Int) (times : Nat) (str : CString)
  | reverseSubstring (sp ep : Int)
  | repeatSubstring (sp ep : Int) (times : Nat)
  | setLength (newLength : Nat)
  | ensureCapacity (minCapacity : Nat)

namespace Call

def run (sb : Mem) : Call → Option Mem
  | replaceCharN sp ep times ch => sb.replaceCharN sp ep times ch
  | replaceSubstringN sp ep times substr subsp subep => sb.replaceSubstringN sp ep times substr subsp subep
  | replaceDataN sp ep times mem => sb.replaceDataN sp ep times mem
  | vreplacefN sp ep times str => sb.vreplacefN sp ep times str
  | reverseSubstring sp ep => sb.reverseSubstring sp ep
  | repeatSubstring sp ep times => sb.repeatSubstring sp ep times
  | setLength newLength => sb.setLength newLength
  | ensureCapacity minCapacity => sb.ensureCapacity minCapacity

/-- What the call should make of the content. -/
def apply (sb : StrBuf) : Call → StrBuf
  | replaceCharN sp ep times ch => sb.replaceChar sp ep times ch
  | replaceSubstringN sp ep times substr subsp subep =>
    sb.replaceSubstring sp ep times (substr.getD []) subsp subep
  | replaceDataN sp ep times mem => sb.replaceData sp ep times mem
  | vreplacefN sp ep times str => sb.replaceData sp ep times str
  | reverseSubstring sp ep => sb.reversed (place sb.length sp) (place sb.length ep)
  | repeatSubstring sp ep times => sb.repeated (place sb.length sp) (place sb.length ep) times
  | setLength newLength => sb.take newLength
  | ensureCapacity _ => sb

/-- The positions in the buffer are -1 or within the content, those in a string are any `int32_t`, a new length is
at most the old one, and all lengths are below 2³¹. -/
def Fits (sb : StrBuf) (call : Call) : Prop :=
  (call.apply sb).length < 2 ^ 31 ∧
  match call with
  | replaceCharN sp ep _ _ => sb.InRange sp ∧ sb.InRange ep
  | replaceSubstringN sp ep _ substr subsp subep => sb.InRange sp ∧ sb.InRange ep ∧
      (substr.getD []).length < 2 ^ 31 ∧ IsInt32 subsp ∧ IsInt32 subep
  | replaceDataN sp ep _ _ => sb.InRange sp ∧ sb.InRange ep
  | vreplacefN sp ep _ str => sb.InRange sp ∧ sb.InRange ep ∧ str.length < 2 ^ 31
  | reverseSubstring sp ep => sb.InRange sp ∧ sb.InRange ep
  | repeatSubstring sp ep _ => sb.InRange sp ∧ sb.InRange ep
  | setLength newLength => newLength ≤ sb.length
  | ensureCapacity minCapacity => minCapacity < 2 ^ 32

/-- The range to reverse is empty or one byte over and over, up to the byte after it (NUL at the end). The range to
repeat is empty or to be there once. -/
def Harmless (sb : StrBuf) : Call → Prop
  | reverseSubstring sp ep => place sb.length ep ≤ place sb.length sp ∨
      ∀ ch ∈ slice sb (place sb.length sp) (place sb.length ep), ch = sb.getD (place sb.length ep) 0
  | repeatSubstring sp ep times => place sb.length sp = place sb.length ep ∨ times = 1
  | _ => True

end Call

/-- A call that makes a buffer. -/
inductive New where
  | new
  | fromCharN (times : Nat) (ch : UInt8)
  | fromSubstringN (times : Nat) (substr : Option CString) (subsp subep : Int)
  | fromDataN (times : Nat) (mem : List UInt8)

namespace New

def run : New → Option Mem
  | new => Mem.new
  | fromCharN times ch => newFromCharN times ch
  | fromSubstringN times substr subsp subep => newFromSubstringN times substr subsp subep
  | fromDataN times mem => newFromDataN times mem

/-- The characters of the new buffer. -/
def content : New → StrBuf
  | new => []
  | fromCharN times ch => (List.replicate times (if ch = 0 then [] else [ch])).flatten
  | fromSubstringN times substr subsp subep => (List.replicate times (substringOf substr subsp subep)).flatten
  | fromDataN times mem => (List.replicate times mem).flatten

/-- All lengths are below 2³¹, and positions are any `int32_t`. -/
def Fits (call : New) : Prop :=
  call.content.length < 2 ^ 31 ∧
  match call with
  | fromSubstringN _ substr subsp subep => (substr.getD []).length < 2 ^ 31 ∧ IsInt32 subsp ∧ IsInt32 subep
  | _ => True

end New

section Replace

variable {str : StrBuf} {sb : Mem} {sp ep : Int} {times : Nat} {mem : List UInt8}

theorem InRange.isPos (h : str.InRange sp) (hlen : str.length < 2 ^ 31) : IsPos sp :=
  h.imp_right fun h => ⟨h.1, by omega⟩

theorem normalizeStrbufPos_eq (hlen : str.length < 2 ^ 31) (hsp : IsPos sp) :
    str.normalizeStrbufPos sp = place str.length sp := by
  unfold normalizeStrbufPos place
  rcases hsp with rfl | ⟨hlo, hhi⟩
  · rw [if_pos (by omega), if_pos rfl]
  · rw [if_neg (show sp ≠ -1 by omega), if_pos hlo]
    split <;> omega

theorem normalizePos_holds (h : Holds sb (str.map some)) (hlen : str.length < 2 ^ 31) (hsp : IsPos sp) :
    sb.normalizePos sp = place str.length sp := by
  have hsb : sb.len = str.length := by rw [h.len, List.length_map]
  rw [← hsb]
  exact normalizePos_eq (by omega) hsp (.inl (by omega))

theorem replaceData_eq (hlen : str.length < 2 ^ 31) (hsp : IsPos sp) (hep : IsPos ep) :
    str.replaceData sp ep times mem =
      str.take (min (place str.length sp) (place str.length ep)) ++ (List.replicate times mem).flatten ++
        str.drop (max (place str.length sp) (place str.length ep)) := by
  rw [replaceData, normalizeStrbufPos_eq hlen hsp, normalizeStrbufPos_eq hlen hep]

/-- `strbuf_replace_data_n` in memory refines it on characters. -/
theorem replaceDataN_refines (h : Holds sb (str.map some)) (hlen : str.length < 2 ^ 31) (hsp : IsPos sp)
    (hep : IsPos ep) (hlt : (str.replaceData sp ep times mem).length < 2 ^ 31) :
    ∃ sb', sb.replaceDataN sp ep times mem = some sb' ∧
      Holds sb' ((str.replaceData sp ep times mem).map some) := by
  have hpos := swapPos_nat (place str.length sp) (place str.length ep)
  rw [← normalizePos_holds h hlen hsp, ← normalizePos_holds h hlen hep] at hpos
  have hsp' := place_le str.length sp
  have hep' := place_le str.length ep
  rw [replaceData_eq hlen hsp hep] at hlt ⊢
  have hcopies : (List.replicate times mem).flatten.length = times * mem.length := by simp
  simp only [List.length_append, List.length_take, List.length_drop, hcopies] at hlt
  obtain ⟨sb', hrun, h'⟩ := h.replaceRange (by omega) (by rw [List.length_map]; omega) hpos
    (show _ + times * mem.length + _ < _ by rw [List.length_map]; omega)
  refine ⟨sb', hrun, ?_⟩
  rwa [List.map_append, List.map_append, List.map_take, List.map_drop]

theorem normalizeStrPos_eq {s : CString} (hlen : s.length < 2 ^ 31) (hsp : IsInt32 sp) :
    Mem.normalizeStrPos (some s) sp = normalizeStrPos s sp := by
  obtain ⟨hlo, hhi⟩ := hsp
  unfold Mem.normalizeStrPos normalizeStrPos
  dsimp only
  split
  · exact (int32_eq (by omega) (by omega)).trans (by omega)
  · rw [int32_eq (by omega) (by omega)]
    split <;> omega

theorem substringData_eq {substr : Option CString} {subsp subep : Int} (hlen : (substr.getD []).length < 2 ^ 31)
    (hsp : IsInt32 subsp) (hep : IsInt32 subep) :
    substringData substr subsp subep = substringOf substr subsp subep := by
  cases substr with
  | none => simp [substringData, substringOf, slice]
  | some s =>
    simp only [Option.getD_some] at hlen
    have hle : ∀ pos, normalizeStrPos s pos ≤ s.length := by
      intro pos
      unfold normalizeStrPos
      split <;> omega
    have h1 := hle subsp
    have h2 := hle subep
    rw [substringData, normalizeStrPos_eq hlen hsp, normalizeStrPos_eq hlen hep, swapPos_nat]
    simp only [substringOf, Option.getD_some, Int.toNat_natCast, slice]
    rw [uint32_eq (Int.natCast_sub (by omega)).symm (by omega)]

theorem replaceSubstringN_refines (h : Holds sb (str.map some)) (hlen : str.length < 2 ^ 31) (hsp : IsPos sp)
    (hep : IsPos ep) {substr : Option CString} {subsp subep : Int} (hsub : (substr.getD []).length < 2 ^ 31)
    (hsubsp : IsInt32 subsp) (hsubep : IsInt32 subep)
    (hlt : (str.replaceSubstring sp ep times (substr.getD []) subsp subep).length < 2 ^ 31) :
    ∃ sb', sb.replaceSubstringN sp ep times substr subsp subep = some sb' ∧
      Holds sb' ((str.replaceSubstring sp ep times (substr.getD []) subsp subep).map some) := by
  rw [Mem.replaceSubstringN, substringData_eq hsub hsubsp hsubep]
  exact replaceDataN_refines h hlen hsp hep hlt

end Replace

section Reverse

variable {sb : Mem} {str : StrBuf} {c pre mid post : List (Option UInt8)} {sp ep : Int} {lo hi : Nat}

/-- The loop swaps the first and the last byte of the range, then the next ones. -/
theorem reverseLoop_spec (hsp : sp = pre.length) (hep : ep = pre.length + mid.length - 1) :
    reverseLoop (pre ++ mid ++ post) sp ep = some (pre ++ mid.reverse ++ post) := by
  induction mid using List.bidirectionalRec generalizing pre post sp ep with
  | nil =>
    rw [List.length_nil] at hep
    rw [reverseLoop, if_neg (by omega)]
    rfl
  | singleton a =>
    rw [List.length_singleton] at hep
    rw [reverseLoop, if_neg (by omega)]
    rfl
  | cons_append a mid b ih =>
    simp only [List.length_cons, List.length_append, List.length_nil] at hep
    have hleft : ∀ x y : Option UInt8, pre ++ x :: (mid ++ [y]) ++ post = pre ++ x :: (mid ++ y :: post) := by simp
    have hright : ∀ x y : Option UInt8, pre ++ x :: (mid ++ y :: post) = pre ++ x :: mid ++ y :: post := by simp
    have hlen : ∀ x : Option UInt8, ep = (pre ++ x :: mid).length := by
      intro x
      simp only [List.length_append, List.length_cons]
      omega
    have hread : Block.read (pre ++ a :: (mid ++ b :: post)) ep = some b := by
      rw [hright]
      exact Block.read_append (hlen a)
    have hstore : Block.store (pre ++ b :: (mid ++ b :: post)) ep [a] = some (pre ++ b :: (mid ++ a :: post)) := by
      rw [hright, hright]
      exact Block.store_one (hlen b)
    have hrest : reverseLoop (pre ++ [b] ++ mid ++ a :: post) (sp + 1) (ep - 1) =
        some (pre ++ [b] ++ mid.reverse ++ a :: post) := ih (by simp [hsp]) (by simp; omega)
    rw [reverseLoop, if_pos (by omega), hleft]
    simp only [Block.read_append hsp, hread, Option.bind_eq_bind, Option.bind_some, Block.store_one hsp, hstore]
    simpa using hrest

theorem cons_eq_append_of_forall_eq {α : Type} {x : α} {r : List α} (h : ∀ y ∈ r, y = x) : x :: r = r ++ [x] := by
  rw [List.eq_replicate_of_mem h, ← List.replicate_succ, List.replicate_succ']

theorem forall_eq_of_cons_append {α : Type} {x : α} {r l m : List α} (h : x :: r ++ l = r ++ m) : ∀ y ∈ r, y = x := by
  induction r generalizing x with
  | nil => simp
  | cons y r ih =>
    obtain ⟨rfl, hrest⟩ := List.cons.inj h
    exact List.forall_mem_cons.mpr ⟨rfl, ih hrest⟩

/-- `strbuf_reverse_substring` takes the byte at `hi` into the range. -/
theorem reverseSubstring_iff (h : Holds sb c) (hlo : sb.normalizePos sp = lo) (hhi : sb.normalizePos ep = hi)
    (hle : hi ≤ c.length) :
    (∃ sb', sb.reverseSubstring sp ep = some sb' ∧
      Holds sb' (c.take lo ++ (slice c lo hi).reverse ++ c.drop (max lo hi))) ↔
    hi ≤ lo ∨ ∀ y ∈ slice c lo hi, (c ++ [some 0])[hi]? = some y := by
  rcases Nat.lt_or_ge lo hi with hlt | hge
  · obtain ⟨x, rest, slack, hx, hcut, hget⟩ := h.cutBehind hlt.le hle
    have hpre : (c.take lo).length = lo := List.length_take_of_le (hlt.le.trans hle)
    have hmid : (slice c lo hi ++ [x]).length = hi - lo + 1 := by
      rw [List.length_append, length_slice lo hle]
      rfl
    have hrun : reverseLoop sb.buf lo hi = some (c.take lo ++ (x :: (slice c lo hi).reverse) ++ rest) := by
      rw [hcut, reverseLoop_spec (by rw [hpre]) (by omega), List.reverse_append]
      rfl
    have hsub : sb.reverseSubstring sp ep =
        some { sb with buf := c.take lo ++ (x :: (slice c lo hi).reverse) ++ rest } := by
      rw [reverseSubstring, hlo, hhi, hrun]
      rfl
    rw [Nat.max_eq_right hlt.le, hget]
    constructor
    · rintro ⟨sb', hsb', hholds⟩
      obtain rfl := Option.some.inj (hsub.symm.trans hsb')
      obtain ⟨slack', hbuf'⟩ := hholds.buf
      dsimp only at hbuf'
      rw [List.append_assoc, List.append_assoc, List.append_assoc, List.append_cancel_left_eq] at hbuf'
      exact .inr fun y hy => congrArg some (forall_eq_of_cons_append hbuf' y (List.mem_reverse.mpr hy)).symm
    · rintro (hge | hall)
      · omega
      have hsame : x :: (slice c lo hi).reverse = (slice c lo hi).reverse ++ [x] :=
        cons_eq_append_of_forall_eq fun y hy => (Option.some.inj (hall y (List.mem_reverse.mp hy))).symm
      refine ⟨_, hsub, ⟨slack, ?_⟩, ?_, ?_, h.capacity_lt⟩
      · rw [hsame]
        simp [← hx]
      · simp only [List.length_append, List.length_reverse, hpre, length_slice lo hle, List.length_drop, h.len]
        omega
      · rw [← h.alloc, hcut]
        simp only [List.length_append, List.length_cons, List.length_reverse, List.length_nil]
  · rw [slice_of_le c hge, Nat.max_eq_left hge, List.reverse_nil, List.append_nil, List.take_append_drop]
    have hsub : sb.reverseSubstring sp ep = some sb := by
      rw [reverseSubstring, hlo, hhi, reverseLoop, if_neg (by omega)]
      rfl
    exact ⟨fun _ => .inl hge, fun _ => ⟨sb, hsub, h⟩⟩

end Reverse

section Calls

variable {sb : Mem} {str str' : StrBuf} {c : List (Option UInt8)} {sp ep : Int} {times : Nat}

theorem reverseSubstring_holds (h : Holds sb (str.map some)) (hlen : str.length < 2 ^ 31) (hsp : str.InRange sp)
    (hep : str.InRange ep) (hok : (Call.reverseSubstring sp ep).Harmless str) :
    ∃ sb', sb.reverseSubstring sp ep = some sb' ∧
      Holds sb' ((str.reversed (place str.length sp) (place str.length ep)).map some) := by
  have hle := place_le str.length ep
  have hiff := reverseSubstring_iff h (normalizePos_holds h hlen (hsp.isPos hlen))
    (normalizePos_holds h hlen (hep.isPos hlen)) (by rwa [List.length_map])
  rw [reversed, List.map_append, List.map_append, List.map_reverse, List.map_take, List.map_drop, ← slice_map]
  refine hiff.mpr (hok.imp_right fun hall y hy => ?_)
  rw [slice_map] at hy
  obtain ⟨ch, hch, rfl⟩ := List.mem_map.mp hy
  rw [hall ch hch]
  rcases Nat.lt_or_eq_of_le hle with hlt | heq
  · rw [List.getElem?_append_left (by rwa [List.length_map])]
    simp [hlt]
  · rw [heq, List.getElem?_append_right (by rw [List.length_map]), List.length_map, Nat.sub_self]
    simp

theorem repeatSubstring_holds (h : Holds sb (str.map some)) (hlen : str.length < 2 ^ 31) (hsp : str.InRange sp)
    (hep : str.InRange ep) (hok : (Call.repeatSubstring sp ep times).Harmless str) :
    ∃ sb', sb.repeatSubstring sp ep times = some sb' ∧
      Holds sb' ((str.repeated (place str.length sp) (place str.length ep) times).map some) := by
  have hzero : int32 ((sb.normalizePos ep - sb.normalizePos sp) * (times - 1)) = 0 := by
    rw [normalizePos_holds h hlen (hsp.isPos hlen), normalizePos_holds h hlen (hep.isPos hlen)]
    rcases hok with heq | rfl
    · rw [heq, Int.sub_self, Int.zero_mul]
      rfl
    · rw [show ((1 : Nat) : Int) - 1 = 0 from rfl, Int.mul_zero]
      rfl
  have hsame : str.repeated (place str.length sp) (place str.length ep) times = str := by
    rw [repeated]
    rcases hok with heq | rfl
    · rw [slice_of_le str heq.ge, ← heq, Nat.max_self, List.flatten_replicate_nil, List.append_nil,
        List.take_append_drop]
    · rcases Nat.le_total (place str.length sp) (place str.length ep) with hle | hge
      · rw [Nat.max_eq_right hle, List.replicate_one, List.flatten_singleton, cut_eq str hle]
      · rw [slice_of_le str hge, Nat.max_eq_left hge, List.flatten_replicate_nil, List.append_nil,
          List.take_append_drop]
  exact ⟨sb, by rw [repeatSubstring]; simp only [hzero]; rfl, by rwa [hsame]⟩

theorem setLength_holds (h : Holds sb (str.map some)) {n : Nat} (hn : n ≤ str.length) (hlen : str.length < 2 ^ 31) :
    ∃ sb', sb.setLength n = some sb' ∧ Holds sb' ((str.take n).map some) := by
  have hmin : uint32 (n + 1) = n + 1 := uint32_eq (by omega) (by omega)
  obtain ⟨sb₁, hrun₁, h₁, -⟩ := h.ensureCapacity (show n + 1 < 2 ^ 32 by omega)
  obtain ⟨slack, hbuf⟩ := h₁.buf
  have hpre : ((str.take n).map some).length = n := by rw [List.length_map, List.length_take_of_le hn]
  obtain ⟨x, rest, hx⟩ : ∃ x rest, (str.drop n).map some ++ some 0 :: slack = x :: rest :=
    List.exists_cons_of_ne_nil (by simp)
  have hcut : sb₁.buf = (str.take n).map some ++ x :: rest := by
    rw [hbuf, ← hx, ← List.append_assoc, ← List.map_append, List.take_append_drop]
  have hstore : sb₁.buf.store n [some 0] = some ((str.take n).map some ++ some 0 :: rest) := by
    rw [hcut]
    exact Block.store_one (by rw [hpre])
  refine ⟨_, ?_, .of_buf (show _ = _ ++ some 0 :: rest from rfl) ?_ h₁.capacity_lt hpre.symm⟩
  · rw [setLength, hmin, hrun₁]
    simp only [Option.bind_eq_bind, Option.bind_some, hstore]
  · rw [← h₁.alloc, hcut]
    simp

/-- `strbuf_vreplacef_n`: the positions are put in order first. -/
theorem vreplacefN_holds (h : Holds sb (str.map some)) (hlen : str.length < 2 ^ 31) (hsp : IsPos sp) (hep : IsPos ep)
    {text : CString} (htext : text.length < 2 ^ 31) (hlt : (str.replaceData sp ep times text).length < 2 ^ 31) :
    ∃ sb', sb.vreplacefN sp ep times text = some sb' ∧
      Holds sb' ((str.replaceData sp ep times text).map some) := by
  have hpos := swapPos_nat (place str.length sp) (place str.length ep)
  have hdata : substringData (some text) 0 text.length = text := by
    have htext' : (Option.getD (some text) []).length < 2 ^ 31 := htext
    rw [substringData_eq htext' ⟨by decide, by decide⟩ ⟨by omega, by omega⟩]
    simp [substringOf, slice, normalizeStrPos]
  have heq : str.replaceData sp ep times text = _ := replaceData_eq hlen hsp hep
  set lo := min (place str.length sp) (place str.length ep)
  set hi := max (place str.length sp) (place str.length ep)
  have hle : lo ≤ hi := (min_le_left ..).trans (le_max_left ..)
  have hhi : hi ≤ str.length := max_le (place_le ..) (place_le ..)
  have hplace : ∀ n : Nat, n ≤ str.length → IsPos n ∧ place str.length n = n := by
    intro n hn
    refine ⟨.inr ⟨by omega, by omega⟩, ?_⟩
    unfold place
    split <;> omega
  obtain ⟨hlo', hplo⟩ := hplace lo (hle.trans hhi)
  obtain ⟨hhi', hphi⟩ := hplace hi hhi
  have hsame : str.replaceData lo hi times text = str.replaceData sp ep times text := by
    rw [replaceData_eq hlen hlo' hhi', hplo, hphi, Nat.min_eq_left hle, Nat.max_eq_right hle, heq]
  rw [vreplacefN, normalizePos_holds h hlen hsp, normalizePos_holds h hlen hep, hpos]
  dsimp only
  rw [Mem.replaceSubstringN, hdata, ← hsame]
  exact replaceDataN_refines h hlen hlo' hhi' (hsame ▸ hlt)

theorem Call.run_holds (h : Holds sb (str.map some)) (hlen : str.length < 2 ^ 31) {call : Call} (hfits : call.Fits str)
    (hok : call.Harmless str) : ∃ sb', call.run sb = some sb' ∧ Holds sb' ((call.apply str).map some) := by
  obtain ⟨hlt, hfits⟩ := hfits
  cases call with
  | replaceCharN sp ep times ch =>
    have hch : ((charString ch).getD []).length < 2 ^ 31 := by
      rw [charString, Option.getD_some]
      split <;> simp
    exact replaceSubstringN_refines h hlen (hfits.1.isPos hlen) (hfits.2.isPos hlen) hch ⟨by decide, by decide⟩
      ⟨by decide, by decide⟩ hlt
  | replaceSubstringN sp ep times substr subsp subep =>
    obtain ⟨hsp, hep, hsub, hsubsp, hsubep⟩ := hfits
    exact replaceSubstringN_refines h hlen (hsp.isPos hlen) (hep.isPos hlen) hsub hsubsp hsubep hlt
  | replaceDataN sp ep times mem =>
    exact replaceDataN_refines h hlen (hfits.1.isPos hlen) (hfits.2.isPos hlen) hlt
  | vreplacefN sp ep times text =>
    obtain ⟨hsp, hep, htext⟩ := hfits
    exact vreplacefN_holds h hlen (hsp.isPos hlen) (hep.isPos hlen) htext hlt
  | reverseSubstring sp ep => exact reverseSubstring_holds h hlen hfits.1 hfits.2 hok
  | repeatSubstring sp ep times => exact repeatSubstring_holds h hlen hfits.1 hfits.2 hok
  | setLength n => exact setLength_holds h hfits hlen
  | ensureCapacity minCapacity =>
    obtain ⟨sb', hrun, h', -⟩ := h.ensureCapacity hfits
    exact ⟨sb', hrun, h'⟩

theorem New.run_holds {call : New} (hfits : call.Fits) :
    ∃ sb, call.run = some sb ∧ Holds sb (call.content.map some) := by
  obtain ⟨hlt, hfits⟩ := hfits
  have hdata : ∀ (times : Nat) (mem : List UInt8), (List.replicate times mem).flatten.length < 2 ^ 31 →
      ∃ sb, newFromDataN times mem = some sb ∧ Holds sb ((List.replicate times mem).flatten.map some) := by
    intro times mem hlt
    have hlen := length_copies times mem
    rw [copies, List.length_map] at hlen
    exact newFromDataN_spec times mem (by omega)
  cases call with
  | new => exact ⟨_, newWithCapacity_eq 15, ⟨_, rfl⟩, rfl, rfl, by decide⟩
  | fromCharN times ch =>
    have hch : ((charString ch).getD []).length < 2 ^ 31 := by
      rw [charString, Option.getD_some]
      split <;> simp
    have hone : substringOf (charString ch) 0 1 = if ch = 0 then [] else [ch] := by
      by_cases h : ch = 0 <;> simp [substringOf, charString, normalizeStrPos, slice, h]
    rw [New.run, newFromCharN, newFromSubstringN, substringData_eq hch ⟨by decide, by decide⟩ ⟨by decide, by decide⟩,
      hone]
    exact hdata times _ hlt
  | fromSubstringN times substr subsp subep =>
    rw [New.run, newFromSubstringN, substringData_eq hfits.1 hfits.2.1 hfits.2.2]
    exact hdata times _ hlt
  | fromDataN times mem => exact hdata times mem hlt

/-- In every run of calls that fit and are harmless, from a new buffer on, the buffer is well formed, holds what the
calls should make of its content, and no call reads or writes outside of the allocation. -/
theorem calls_hold (made : New) (hmade : made.Fits) :
    ∃ sb, made.run = some sb ∧ WellFormed sb ∧ sb.content = made.content.map some ∧
      ∀ calls str, Runs (fun str (call : Call) => some (call.apply str))
          (fun str call => call.Fits str ∧ call.Harmless str) made.content calls str →
        ∃ sb', calls.foldlM Call.run sb = some sb' ∧ WellFormed sb' ∧ sb'.content = str.map some := by
  obtain ⟨sb, hrun, h⟩ := New.run_holds hmade
  refine ⟨sb, hrun, h.wellFormed, h.content_eq, fun calls str hruns => ?_⟩
  have hstep : ∀ (sb : Mem) (str : StrBuf) (call : Call) (str' : StrBuf),
      (Holds sb (str.map some) ∧ str.length < 2 ^ 31) → (call.Fits str ∧ call.Harmless str) →
        some (call.apply str) = some str' →
        ∃ sb', call.run sb = some sb' ∧ Holds sb' (str'.map some) ∧ str'.length < 2 ^ 31 := by
    rintro sb str call _ ⟨h, hlen⟩ ⟨hfits, hok⟩ ⟨⟩
    obtain ⟨sb', hrun, h'⟩ := call.run_holds h hlen hfits hok
    exact ⟨sb', hrun, h', hfits.1⟩
  obtain ⟨sb', hruns', h', -⟩ := hruns.simulate hstep ⟨h, hmade.1⟩
  exact ⟨sb', hruns', h'.wellFormed, h'.content_eq⟩

theorem calls_hold_abc : ∃ sb, New.run (.fromDataN 1 [97, 98, 99]) = some sb ∧
    ∃ sb', [Call.replaceCharN 1 (-1) 2 120, .reverseSubstring 1 2, .repeatSubstring 0 2 1, .setLength 2].foldlM
      Call.run sb = some sb' ∧ WellFormed sb' ∧ sb'.content = [some 97, some 120] := by
  obtain ⟨sb, hrun, -, -, h⟩ := calls_hold (.fromDataN 1 [97, 98, 99]) ⟨by decide, trivial⟩
  have hpos : ∀ {pos : Int}, 0 ≤ pos ∧ pos ≤ 3 → InRange [97, 120, 120] pos := .inr
  refine ⟨sb, hrun, h _ [97, 120] (.cons ⟨⟨by decide, .inr (by decide), .inl rfl⟩, trivial⟩
    (show _ = some [97, 120, 120] by decide) ?_)⟩
  refine .cons ⟨⟨by decide, hpos (by decide), hpos (by decide)⟩, .inr (by simp [slice, place])⟩
    (show _ = some [97, 120, 120] by decide) ?_
  refine .cons ⟨⟨by decide, hpos (by decide), hpos (by decide)⟩, .inr rfl⟩ (show _ = some [97, 120, 120] by decide) ?_
  exact .cons ⟨⟨by decide, by decide⟩, trivial⟩ (by decide) (.nil _)

/-- Reversing `ab` takes the NUL into the content, and repeating it twice writes over the NUL. -/
theorem calls_not_terminated : ∃ sb, New.run (.fromDataN 1 [97, 98]) = some sb ∧
    (∃ sb', (Call.reverseSubstring 0 (-1)).Fits [97, 98] ∧ Call.run sb (.reverseSubstring 0 (-1)) = some sb' ∧
      ¬ WellFormed sb' ∧ sb'.content ≠ ((Call.reverseSubstring 0 (-1)).apply [97, 98]).map some) ∧
    ∃ sb', (Call.repeatSubstring 0 (-1) 2).Fits [97, 98] ∧ Call.run sb (.repeatSubstring 0 (-1) 2) = some sb' ∧
      ¬ WellFormed sb' := by
  have hloop : reverseLoop ([] ++ [some 97, some 98, some 0] ++ []) 0 2 = _ := reverseLoop_spec rfl rfl
  refine ⟨⟨[some 97, some 98, some 0], 2, 3⟩, rfl, ⟨⟨[some 0, some 98, some 97], 2, 3⟩,
    ⟨by decide, .inr (by decide), .inl rfl⟩, ?_, fun h => absurd h.terminated (by decide), by decide⟩,
    ⟨⟨[some 97, some 98, some 97, some 98, some 97, some 98], 4, 6⟩,
      ⟨by decide, .inr (by decide), .inl rfl⟩, rfl, fun h => absurd h.terminated (by decide)⟩⟩
  show (reverseLoop ([] ++ [some 97, some 98, some 0] ++ []) 0 2).bind _ = _
  rw [hloop]
  rfl

end Calls

end Renameutils.StrBuf
