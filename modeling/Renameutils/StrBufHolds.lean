import Renameutils.StrBufMem

/-!
# What a string buffer in memory holds

`Holds sb c`: the allocation of `sb` starts with the bytes `c` and a NUL, and the length and the capacity are
right. There is one lemma for each function that changes a buffer, on contents cut where the function works.
-/

namespace Renameutils.StrBuf.Mem

/-- The `len` bytes before the terminator. -/
def content (sb : Mem) : List (Option UInt8) := sb.buf.take sb.len

/-- `buf[len]` is NUL, and `len < capacity`. -/
structure WellFormed (sb : Mem) : Prop where
  alloc : sb.buf.length = sb.capacity
  capacity_lt : sb.capacity < 2 ^ 32
  len_lt : sb.len < sb.capacity
  terminated : sb.buf[sb.len]? = some (some 0)

structure Holds (sb : Mem) (c : List (Option UInt8)) : Prop where
  buf : ∃ slack, sb.buf = c ++ some 0 :: slack
  len : sb.len = c.length
  alloc : sb.buf.length = sb.capacity
  capacity_lt : sb.capacity < 2 ^ 32

variable {sb sb' : Mem} {c pre mid post : List (Option UInt8)} {mem : List UInt8} {times : Nat}

theorem holds_iff : Holds sb c ↔ WellFormed sb ∧ sb.content = c := by
  constructor
  · rintro ⟨⟨slack, hbuf⟩, hlen, halloc, hcap⟩
    refine ⟨⟨halloc, hcap, ?_, ?_⟩, ?_⟩
    · rw [← halloc, hbuf, hlen, List.length_append, List.length_cons]
      omega
    · rw [hbuf, hlen, List.getElem?_append_right (Nat.le_refl _), Nat.sub_self]
      rfl
    · rw [content, hbuf, hlen, List.take_left]
  · rintro ⟨⟨halloc, hcap, hlt, hnul⟩, rfl⟩
    refine ⟨⟨sb.buf.drop (sb.len + 1), ?_⟩, ?_, halloc, hcap⟩
    · have hlen : sb.len < sb.buf.length := halloc ▸ hlt
      have hget : sb.buf[sb.len] = some 0 := Option.some.inj ((List.getElem?_eq_getElem hlen).symm.trans hnul)
      rw [content, ← hget, ← List.drop_eq_getElem_cons hlen, List.take_append_drop]
    · rw [content, List.length_take, halloc]
      omega

namespace Holds

theorem wellFormed (h : Holds sb c) : WellFormed sb := (holds_iff.mp h).1

theorem content_eq (h : Holds sb c) : sb.content = c := (holds_iff.mp h).2

theorem length_lt (h : Holds sb c) : c.length < sb.capacity := h.len ▸ h.wellFormed.len_lt

theorem of_buf {buf slack : Block UInt8} (hbuf : buf = c ++ some 0 :: slack) (halloc : buf.length = sb.capacity)
    (hcap : sb.capacity < 2 ^ 32) {n : Nat} (hn : n = c.length) :
    Holds { sb with buf := buf, len := n } c := ⟨⟨slack, hbuf⟩, hn, halloc, hcap⟩

theorem ensureCapacity (h : Holds sb c) {minCapacity : Nat} (hmin : minCapacity < 2 ^ 32) :
    ∃ sb', sb.ensureCapacity minCapacity = some sb' ∧ Holds sb' c ∧ minCapacity ≤ sb'.capacity := by
  rw [Mem.ensureCapacity]
  by_cases hlt : sb.capacity < minCapacity
  · rw [if_pos hlt]
    set capacity := max minCapacity (uint32 (sb.len * 2 + 2)) with hcapacity
    have hge : minCapacity ≤ capacity := le_max_left ..
    have hcap : capacity < 2 ^ 32 := max_lt hmin (uint32_lt _)
    obtain ⟨slack, hbuf⟩ := h.buf
    have hre := Block.realloc_of_le (b := sb.buf) (n := capacity) (by rw [h.alloc]; omega)
    have hre' : sb.buf.realloc capacity = c ++ some 0 :: (slack ++ Block.alloc (capacity - sb.buf.length)) := by
      rw [hre, hbuf, List.append_assoc]
      rfl
    have hnul : nulIf (sb.len == 0) (sb.buf.realloc capacity) = some (sb.buf.realloc capacity) := by
      rw [nulIf]
      split
      · rename_i hzero
        obtain rfl : c = [] := List.length_eq_zero_iff.mp (h.len ▸ beq_iff_eq.mp hzero)
        rw [hre']
        exact Block.store_one (show (0 : Int) = ([] : Block UInt8).length from rfl)
      · rfl
    refine ⟨{ sb with buf := sb.buf.realloc capacity, capacity := capacity }, ?_, ?_, hge⟩
    · simp only [hnul, Option.bind_eq_bind, Option.bind_some]
    · exact ⟨⟨_, hre'⟩, h.len, Block.length_realloc .., hcap⟩
  · rw [if_neg hlt]
    exact ⟨sb, rfl, h, Nat.le_of_not_lt hlt⟩

end Holds

/-- The copies of a block, one after the other. -/
def copies (times : Nat) (mem : List UInt8) : List (Option UInt8) := (List.replicate times mem).flatten.map some

theorem copies_succ (times : Nat) (mem : List UInt8) : copies (times + 1) mem = mem.map some ++ copies times mem := by
  rw [copies, List.replicate_succ, List.flatten_cons, List.map_append, copies]

theorem copies_succ' (times : Nat) (mem : List UInt8) : copies (times + 1) mem = copies times mem ++ mem.map some := by
  rw [copies, List.replicate_succ', List.flatten_concat, List.map_append, copies]

theorem length_copies (times : Nat) (mem : List UInt8) : (copies times mem).length = times * mem.length := by
  simp [copies]

theorem copies_eq_nil (h : times * mem.length = 0) : copies times mem = [] :=
  List.length_eq_zero_iff.mp ((length_copies times mem).trans h)

theorem exists_append_of_le (mid : List (Option UInt8)) {n : Nat} (h : n ≤ mid.length) :
    ∃ a b, mid = a ++ b ∧ a.length = n :=
  ⟨mid.take n, mid.drop n, (List.take_append_drop ..).symm, List.length_take_of_le h⟩

theorem newLoop_spec (hpre : pre.length = times * mem.length) (hlt : times * mem.length < 2 ^ 32) :
    newLoop mem times (pre ++ post) = some (copies times mem ++ post) := by
  induction times generalizing pre post with
  | zero =>
    rw [Nat.zero_mul, List.length_eq_zero_iff] at hpre
    subst hpre
    rfl
  | succ times ih =>
    rw [Nat.succ_mul] at hpre hlt
    obtain ⟨a, b, rfl, ha⟩ := exists_append_of_le pre (n := times * mem.length) (by omega)
    rw [List.length_append] at hpre
    have hoff : uint32 (mem.length * times) = times * mem.length :=
      uint32_eq (by rw [Int.mul_comm]; simp) (by omega)
    rw [newLoop, hoff, Block.store_append (by rw [ha]) (by rw [List.length_map]; omega), Option.bind_eq_bind,
      Option.bind_some, List.append_assoc, ih ha (by omega), copies_succ', List.append_assoc]

theorem newWithCapacity_eq (n : Nat) :
    newWithCapacity (n + 1) = some ⟨some 0 :: Block.alloc n, 0, n + 1⟩ := by
  have hnul : nulIf (n + 1 > 0) (.alloc (n + 1)) = some (some 0 :: Block.alloc n) :=
    Block.store_one (show (0 : Int) = ([] : Block UInt8).length from rfl)
  rw [newWithCapacity, hnul]
  rfl

theorem newFromDataN_spec (times : Nat) (mem : List UInt8) (hlt : times * mem.length + 1 < 2 ^ 32) :
    ∃ sb, newFromDataN times mem = some sb ∧ Holds sb (copies times mem) := by
  have hlen : uint32 (mem.length * times) = times * mem.length :=
    uint32_eq (by rw [Int.mul_comm]; simp) (by omega)
  have hcap : uint32 (mem.length * times + 1) = times * mem.length + 1 :=
    uint32_eq (by rw [Int.mul_comm]; simp) hlt
  -- the last cell is for the terminator
  obtain ⟨a, b, hcells, ha⟩ := exists_append_of_le (some 0 :: Block.alloc (times * mem.length))
    (n := times * mem.length) (by simp [Block.alloc])
  have hb := congrArg List.length hcells
  simp only [Block.alloc, List.length_append, List.length_cons, List.length_replicate] at hb
  obtain ⟨x, rfl⟩ := List.length_eq_one_iff.mp (show b.length = 1 by omega)
  have hstore : Block.store (copies times mem ++ [x]) ↑(times * mem.length) [some 0] =
      some (copies times mem ++ [some 0]) := Block.store_one (by rw [length_copies])
  refine ⟨⟨copies times mem ++ [some 0], times * mem.length, times * mem.length + 1⟩, ?_, ⟨[], rfl⟩,
    (length_copies ..).symm, by simp [length_copies], hlt⟩
  rw [newFromDataN, hcap, newWithCapacity_eq, hcells]
  simp only [hlen, newLoop_spec ha (show times * mem.length < 2 ^ 32 by omega), hstore, Option.bind_eq_bind,
    Option.bind_some]

theorem replaceLoop_spec {sp : Int} (hsp : sp = pre.length) (hmid : mid.length = times * mem.length)
    (hlt : pre.length + mid.length < 2 ^ 31) :
    replaceLoop mem times (pre ++ mid ++ post) sp = some (pre ++ copies times mem ++ post) := by
  induction times generalizing pre mid sp with
  | zero =>
    rw [Nat.zero_mul, List.length_eq_zero_iff] at hmid
    subst hmid
    rfl
  | succ times ih =>
    rw [Nat.succ_mul] at hmid
    obtain ⟨a, b, rfl, ha⟩ := exists_append_of_le mid (n := mem.length) (by omega)
    rw [List.length_append] at hmid hlt
    have hstore : Block.store (pre ++ (a ++ b) ++ post) sp (mem.map some) =
        some (pre ++ mem.map some ++ (b ++ post)) := by
      rw [← List.append_assoc, List.append_assoc _ b]
      exact Block.store_append hsp (by rw [List.length_map, ha])
    have hlen : (pre ++ mem.map some).length = pre.length + mem.length := by simp
    have hnext : int32 (sp + mem.length) = (pre ++ mem.map some).length := by
      rw [hlen, hsp]
      exact (int32_eq (by omega) (by omega)).trans (by omega)
    rw [replaceLoop, hstore, Option.bind_eq_bind, Option.bind_some, ← List.append_assoc,
      ih hnext (by omega) (by rw [hlen]; omega), copies_succ]
    simp only [List.append_assoc]

theorem replaceLoop_of_neg {buf : Block UInt8} {sp : Int} (hsp : sp < 0) (htimes : 0 < times) :
    replaceLoop mem times buf sp = none := by
  obtain ⟨times, rfl⟩ := Nat.exists_eq_succ_of_ne_zero (Nat.ne_of_gt htimes)
  rw [replaceLoop, Block.store_of_neg hsp]
  rfl

theorem swapPos_of_le {sp ep : Int} (h : sp ≤ ep) : swapPos sp ep = (sp, ep) := if_neg (by omega)

theorem swapPos_of_gt {sp ep : Int} (h : ep < sp) : swapPos sp ep = (ep, sp) := if_pos h

theorem Holds.moveTail (h : Holds sb (pre ++ mid ++ post)) {sp ep : Int} {count : Nat} (addlen : Nat)
    (hsp : sp = pre.length) (hep : ep = pre.length + mid.length) (hcount : count = post.length + 1)
    (hroom : pre.length + addlen + post.length < sb.capacity) :
    ∃ gap slack, gap.length = addlen ∧
      sb.buf.move (sp + addlen) ep count = some (pre ++ gap ++ (post ++ some 0 :: slack)) := by
  obtain ⟨slack, hbuf⟩ := h.buf
  have halloc := h.alloc
  rw [hbuf] at halloc
  simp only [List.length_append, List.length_cons] at halloc
  have hload : sb.buf.load ep count = some (post ++ [some 0]) := by
    rw [hbuf, show pre ++ mid ++ post ++ some 0 :: slack = (pre ++ mid) ++ (post ++ [some 0]) ++ slack by simp]
    exact Block.load_append (by rw [hep, List.length_append]; omega) (by simp [hcount])
  -- the bytes after `pre`: those that are added, those of the tail, and the rest
  obtain ⟨gap, rest, hrest, hgap⟩ := exists_append_of_le (mid ++ post ++ some 0 :: slack)
    (n := addlen) (by simp only [List.length_append, List.length_cons]; omega)
  have hlen := congrArg List.length hrest
  simp only [List.length_append, List.length_cons] at hlen
  obtain ⟨old, slack', rfl, hold⟩ := exists_append_of_le rest (n := count) (by omega)
  refine ⟨gap, slack', hgap, ?_⟩
  rw [Block.move, hload, Option.bind_eq_bind, Option.bind_some, hbuf,
    show pre ++ mid ++ post ++ some 0 :: slack = (pre ++ gap) ++ old ++ slack' by
      rw [List.append_assoc, List.append_assoc, ← List.append_assoc mid, hrest]; simp]
  rw [Block.store_append (by rw [hsp, List.length_append, hgap]; omega) (by simp [hold, hcount])]
  simp

/-- The range between `pre` and `post` becomes `addlen` bytes long. -/
theorem Holds.resizeRange (h : Holds sb (pre ++ mid ++ post)) {sp ep : Int} (addlen : Nat) (hsp : sp = pre.length)
    (hep : ep = pre.length + mid.length) (hlt : pre.length + addlen + post.length < 2 ^ 31) :
    ∃ sb' gap, sb.resizeRange sp ep addlen mid.length = some sb' ∧ gap.length = addlen ∧
      Holds sb' (pre ++ gap ++ post) := by
  rw [Mem.resizeRange]
  by_cases hne : addlen ≠ mid.length
  · have hlen := h.len
    have hcap := h.capacity_lt
    have hlast := h.length_lt
    simp only [List.length_append] at hlen hlast
    have hmin : uint32 (sb.len + 1 - mid.length + addlen) = pre.length + addlen + post.length + 1 :=
      uint32_eq (by omega) (by omega)
    obtain ⟨sb₁, hrun₁, h₁, hroom⟩ := h.ensureCapacity
      (show pre.length + addlen + post.length + 1 < 2 ^ 32 by omega)
    have hlen₁ := h₁.len
    have hlast₁ := h₁.length_lt
    have hcap₁ := h₁.capacity_lt
    simp only [List.length_append] at hlen₁ hlast₁
    have hcount : uint32 (sb₁.len + 1 - ep) = post.length + 1 := uint32_eq (by omega) (by omega)
    obtain ⟨gap, slack, hgap, hmove⟩ := h₁.moveTail addlen hsp hep hcount (by omega)
    have hnew : uint32 (sb₁.len + (addlen - mid.length)) = (pre ++ gap ++ post).length := by
      simp only [List.length_append, hgap]
      exact uint32_eq (by omega) (by omega)
    refine ⟨_, gap, ?_, hgap, .of_buf (List.append_assoc _ post (some 0 :: slack)).symm ?_ h₁.capacity_lt hnew⟩
    · rw [if_pos hne, hmin, hrun₁, Option.bind_eq_bind, Option.bind_some, hmove]
      rfl
    · rw [Block.length_move hmove, h₁.alloc]
  · rw [if_neg hne]
    exact ⟨sb, mid, rfl, (not_not.mp hne).symm, h⟩

/-- `strbuf_replace_data_n`, for positions that are those of the range between `pre` and `post`. -/
theorem Holds.replaceDataN (h : Holds sb (pre ++ mid ++ post)) {sp ep : Int}
    (hpos : swapPos (sb.normalizePos sp) (sb.normalizePos ep) = (↑pre.length, ↑(pre.length + mid.length)))
    (hlt : pre.length + times * mem.length + post.length < 2 ^ 31) :
    ∃ sb', sb.replaceDataN sp ep times mem = some sb' ∧ Holds sb' (pre ++ copies times mem ++ post) := by
  have hcap := h.capacity_lt
  have hlast := h.length_lt
  simp only [List.length_append] at hlast
  have hadd : uint32 (mem.length * times) = times * mem.length :=
    uint32_eq (by rw [Int.mul_comm]; simp) (by omega)
  have hdel : uint32 (↑(pre.length + mid.length) - ↑pre.length) = mid.length := uint32_eq (by omega) (by omega)
  obtain ⟨sb₁, gap, hrun₁, hgap, h₁⟩ := h.resizeRange (times * mem.length) rfl
    (Int.natCast_add ..) hlt
  rw [Mem.replaceDataN, hpos]
  simp only [hadd, hdel, Option.bind_eq_bind, hrun₁, Option.bind_some]
  split
  · obtain ⟨slack, hbuf⟩ := h₁.buf
    rw [List.append_assoc] at hbuf
    have hrun : replaceLoop mem times (pre ++ gap ++ (post ++ some 0 :: slack)) pre.length = some _ :=
      replaceLoop_spec rfl hgap (by omega)
    refine ⟨_, by rw [hbuf, hrun]; rfl, .of_buf (List.append_assoc _ post (some 0 :: slack)).symm ?_ h₁.capacity_lt ?_⟩
    · rw [← h₁.alloc, hbuf]
      simp [length_copies, hgap]
    · rw [h₁.len]
      simp [length_copies, hgap]
  · obtain rfl : gap = [] := List.length_eq_zero_iff.mp (by omega)
    exact ⟨sb₁, rfl, by rwa [copies_eq_nil (by omega)]⟩

section Positions

/-- What a position means in a buffer with `n` bytes: -1 is the end, and so is what lies behind the end. -/
def place (n : Nat) (pos : Int) : Nat := if pos = -1 then n else min pos.toNat n

/-- A position that is -1 or not negative. -/
def IsPos (pos : Int) : Prop := pos = -1 ∨ 0 ≤ pos ∧ pos < 2 ^ 31

variable {sp ep : Int} {lo hi : Nat}

theorem place_le (n : Nat) (pos : Int) : place n pos ≤ n := by
  unfold place
  split <;> omega

theorem normalizePos_eq (hcap : sb.len < 2 ^ 32) (hsp : IsPos sp) (hlen : sb.len < 2 ^ 31 ∨ 0 ≤ sp) :
    sb.normalizePos sp = place sb.len sp := by
  unfold normalizePos place
  rcases hsp with rfl | ⟨hlo, hhi⟩
  · rw [if_pos (by unfold uint32; omega), if_pos rfl]
    exact int32_eq (by omega) (by omega)
  · have hpos : uint32 sp = sp.toNat := uint32_eq (by omega) (by omega)
    rw [hpos, if_neg (show sp ≠ -1 by omega), if_pos hlo]
    split
    · exact (int32_eq (by omega) (by omega)).trans (by omega)
    · omega

theorem swapPos_nat (a b : Nat) : swapPos a b = (↑(min a b), ↑(max a b)) := by
  unfold swapPos
  split <;> congr 1 <;> omega

/-- The bytes from one position to another. -/
def slice {α : Type} (c : List α) (lo hi : Nat) : List α := (c.drop lo).take (hi - lo)

theorem cut_eq {α : Type} (c : List α) (h : lo ≤ hi) : c.take lo ++ slice c lo hi ++ c.drop hi = c := by
  have hdrop : c.drop hi = (c.drop lo).drop (hi - lo) := by rw [List.drop_drop, Nat.add_sub_cancel' h]
  rw [List.append_assoc, slice, hdrop, List.take_append_drop, List.take_append_drop]

theorem slice_of_le {α : Type} (c : List α) (h : hi ≤ lo) : slice c lo hi = [] := by
  rw [slice, Nat.sub_eq_zero_of_le h, List.take_zero]

theorem slice_map {α β : Type} (f : α → β) (c : List α) (lo hi : Nat) :
    slice (c.map f) lo hi = (slice c lo hi).map f := by
  rw [slice, slice, List.map_take, List.map_drop]

theorem length_slice {α : Type} {c : List α} (lo : Nat) (hhi : hi ≤ c.length) : (slice c lo hi).length = hi - lo := by
  rw [slice, List.length_take, List.length_drop]
  omega

/-- The buffer cut around a range and the byte behind it, which is NUL where the range ends with the content. -/
theorem Holds.cutBehind (h : Holds sb c) (hle : lo ≤ hi) (hhi : hi ≤ c.length) :
    ∃ x rest slack, c.drop hi ++ some 0 :: slack = x :: rest ∧
      sb.buf = c.take lo ++ (slice c lo hi ++ [x]) ++ rest ∧ (c ++ [some 0])[hi]? = some x := by
  obtain ⟨slack, hbuf⟩ := h.buf
  obtain ⟨x, rest, hx⟩ : ∃ x rest, c.drop hi ++ some 0 :: slack = x :: rest :=
    List.exists_cons_of_ne_nil (by simp)
  refine ⟨x, rest, slack, hx, ?_, ?_⟩
  · rw [hbuf]
    nth_rewrite 1 [← cut_eq c hle]
    rw [List.append_assoc _ (c.drop hi), hx]
    simp
  · rw [← List.head?_drop, List.drop_append_of_le_length hhi]
    have := congrArg List.head? hx
    cases hdrop : c.drop hi <;> rw [hdrop] at this <;> exact this

theorem Holds.replaceRange (h : Holds sb c) (hle : lo ≤ hi) (hhi : hi ≤ c.length)
    (hpos : swapPos (sb.normalizePos sp) (sb.normalizePos ep) = (↑lo, ↑hi))
    (hlt : lo + times * mem.length + (c.length - hi) < 2 ^ 31) :
    ∃ sb', sb.replaceDataN sp ep times mem = some sb' ∧ Holds sb' (c.take lo ++ copies times mem ++ c.drop hi) := by
  have hpre : (c.take lo).length = lo := List.length_take_of_le (hle.trans hhi)
  have hmid := length_slice lo hhi
  refine Holds.replaceDataN ((cut_eq c hle).symm ▸ h) ?_ ?_
  · rw [hpre, hmid, hpos]
    congr 2
    omega
  · rw [hpre, List.length_drop]
    exact hlt

end Positions

end Renameutils.StrBuf.Mem
