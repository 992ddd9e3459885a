import Renameutils.CString

/-!
# Columns (`common/tab-utils.c`)

A column counts a tab as a move to the next multiple of `tabsize`. A `tabsize` of 0 disables tabs.
-/

namespace Renameutils
open CString

/-- The column of the next tab stop. -/
def nextTab (tabsize c : Nat) : Nat := (c / tabsize + 1) * tabsize

theorem lt_nextTab {tabsize : Nat} (h : 0 < tabsize) (c : Nat) : c < nextTab tabsize c := by
  have := Nat.lt_mul_div_succ c h
  rwa [Nat.mul_comm] at this

/-- The `while` of `tab_to`: the tabs that it prints, and the column after them. -/
def tabLoop (tabsize toPos fromPos : Nat) : CString × Nat :=
  if _h : 0 < tabsize ∧ nextTab tabsize fromPos ≤ toPos then
    let (tabs, c) := tabLoop tabsize toPos (nextTab tabsize fromPos)
    (tab :: tabs, c)
  else ([], fromPos)
termination_by toPos - fromPos
decreasing_by
  have := lt_nextTab _h.1 fromPos
  omega

/-- What `tab_to` prints to move from the column `fromPos` to the column `toPos`. -/
def tabTo (fromPos toPos tabsize : Nat) : CString :=
  let (tabs, c) := tabLoop tabsize toPos fromPos
  tabs ++ List.replicate (toPos - c) space

/-- The loop of `tab_index`: the column and the index at which it stops. -/
def tabIndexLoop (pos tabsize : Nat) : CString → Nat → Nat → Nat × Nat
  | [], c, p => (c, p)
  | ch :: string, c, p =>
    if c < pos then
      tabIndexLoop pos tabsize string (if ch = tab then nextTab tabsize c else c + 1) (p + 1)
    else (c, p)

/-- `tab_index`. With `tabsize` 0 it does not look at the string. -/
def tabIndex (string : CString) (pos tabsize : Nat) : Nat :=
  if tabsize = 0 then pos
  else
    let (c, p) := tabIndexLoop pos tabsize string 0 0
    if c > pos then p - 1 else p

/-! ### From one column to another -/

section
variable {tabsize pos c p : Nat} {str : CString}

theorem tabLoop_blank (tabsize toPos fromPos : Nat) : ∀ b ∈ (tabLoop tabsize toPos fromPos).1, b = tab := by
  induction fromPos using tabLoop.induct tabsize toPos with
  | case1 fromPos h tabs c' heq ih =>
    rw [tabLoop, dif_pos h]
    simpa using ih
  | case2 fromPos h => rw [tabLoop, dif_neg h]; simp

theorem tabLoop_le (tabsize : Nat) (h : c ≤ pos) : c ≤ (tabLoop tabsize pos c).2 ∧ (tabLoop tabsize pos c).2 ≤ pos := by
  induction c using tabLoop.induct tabsize pos with
  | case1 c hc tabs c' heq ih =>
    have hlt := lt_nextTab hc.1 c
    rw [tabLoop, dif_pos hc]
    exact ⟨hlt.le.trans (ih hc.2).1, (ih hc.2).2⟩
  | case2 c hc => rw [tabLoop, dif_neg hc]; exact ⟨le_rfl, h⟩

theorem mem_tabTo {b : UInt8} (hb : b ∈ tabTo c pos tabsize) : b = tab ∨ b = space := by
  rcases List.mem_append.mp hb with hb | hb
  · exact .inl (tabLoop_blank tabsize pos c b hb)
  · exact .inr (List.eq_of_mem_replicate hb)

theorem tabTo_ne_nil (tabsize : Nat) (h : c < pos) : tabTo c pos tabsize ≠ [] := by
  intro hnil
  obtain ⟨h1, h2⟩ := List.append_eq_nil_iff.mp hnil
  rw [tabLoop] at h1 h2
  split at h1 <;> rename_i hc
  · cases h1
  · rw [dif_neg hc, List.replicate_eq_nil_iff] at h2
    dsimp only at h2
    omega

theorem tabTo_eq_nil (tabsize : Nat) (h : pos ≤ c) : tabTo c pos tabsize = [] := by
  have hno : ¬ (0 < tabsize ∧ nextTab tabsize c ≤ pos) := fun ⟨hpos, hle⟩ => by
    have := lt_nextTab hpos c
    omega
  rw [tabTo, tabLoop, dif_neg hno]
  dsimp only
  rw [Nat.sub_eq_zero_of_le h]
  rfl

theorem tabIndexLoop_append {a : CString} (ha : tab ∉ a) (h : c + a.length ≤ pos) (b : CString) :
    tabIndexLoop pos tabsize (a ++ b) c p = tabIndexLoop pos tabsize b (c + a.length) (p + a.length) := by
  induction a generalizing c p with
  | nil => rfl
  | cons x a ih =>
    have hx : x ≠ tab := fun h => ha (h ▸ List.mem_cons_self)
    simp only [List.length_cons] at h
    rw [List.cons_append, tabIndexLoop, if_pos (by omega), if_neg hx,
      ih (fun h => ha (List.mem_cons_of_mem _ h)) (by omega), List.length_cons, Nat.add_right_comm c,
      Nat.add_right_comm p]
    rfl

theorem tabIndexLoop_tabLoop (b : CString) : tabIndexLoop pos tabsize ((tabLoop tabsize pos c).1 ++ b) c p =
    tabIndexLoop pos tabsize b (tabLoop tabsize pos c).2 (p + (tabLoop tabsize pos c).1.length) := by
  induction c using tabLoop.induct tabsize pos generalizing p with
  | case1 c h tabs c' heq ih =>
    have hlt := lt_nextTab h.1 c
    rw [tabLoop, dif_pos h]
    dsimp only
    rw [List.cons_append, tabIndexLoop, if_pos (by omega), if_pos rfl, ih, List.length_cons, Nat.add_assoc,
      Nat.add_comm 1]
  | case2 c h =>
    rw [tabLoop, dif_neg h]
    rfl

theorem tabIndexLoop_end (str : CString) : tabIndexLoop pos tabsize str pos p = (pos, p) := by
  cases str with
  | nil => rfl
  | cons x str => rw [tabIndexLoop, if_neg (lt_irrefl pos)]

/-- `tab_index` finds the end of what `tab_to` printed after a string without tabs, also where `tab_to`
printed spaces only. -/
theorem tabIndex_tabTo {a : CString} (ha : tab ∉ a) (h : a.length ≤ pos) {tabsize' : Nat}
    (hsize : tabsize' = tabsize ∨ tabsize' = 0) (b : CString) :
    tabIndex (a ++ tabTo a.length pos tabsize' ++ b) pos tabsize =
      (a ++ tabTo a.length pos tabsize').length := by
  have hspaces : ∀ c ≤ pos, ∀ p, tabIndexLoop pos tabsize (List.replicate (pos - c) space ++ b) c p =
      (pos, p + (pos - c)) := by
    intro c hc p
    have hno : tab ∉ List.replicate (pos - c) space := fun hm => absurd (List.eq_of_mem_replicate hm) (by decide)
    rw [tabIndexLoop_append hno (by rw [List.length_replicate]; omega), List.length_replicate,
      Nat.add_sub_cancel' hc, tabIndexLoop_end]
  have hzero : tabTo a.length pos 0 = List.replicate (pos - a.length) space := by
    rw [tabTo, tabLoop, dif_neg (by omega)]
    rfl
  rcases Nat.eq_zero_or_pos tabsize with rfl | hpos
  · obtain rfl : tabsize' = 0 := hsize.elim id id
    rw [tabIndex, if_pos rfl, hzero, List.length_append, List.length_replicate]
    omega
  rw [tabIndex, if_neg (by omega), List.append_assoc, tabIndexLoop_append ha (by omega), Nat.zero_add,
    List.length_append]
  rcases hsize with rfl | rfl
  · obtain ⟨h1, h2⟩ := tabLoop_le tabsize' h
    rw [tabTo]
    dsimp only
    rw [List.append_assoc, tabIndexLoop_tabLoop, hspaces _ h2]
    simp only [gt_iff_lt, lt_irrefl, if_false, List.length_append, List.length_replicate]
    omega
  · rw [hzero, hspaces _ h]
    simp

theorem tabIndex_of_notMem (hstr : tab ∉ str) :
    tabIndex str pos tabsize = if tabsize = 0 then pos else min pos str.length := by
  rw [tabIndex]
  split
  · rfl
  have hle : (str.take pos).length ≤ pos := by rw [List.length_take]; omega
  have hloop : tabIndexLoop pos tabsize (str.take pos ++ str.drop pos) 0 0 = _ :=
    tabIndexLoop_append (fun h => hstr (List.mem_of_mem_take h)) (by omega) _
  rw [List.take_append_drop, List.length_take, Nat.zero_add] at hloop
  have hstop : tabIndexLoop pos tabsize (str.drop pos) (min pos str.length) (min pos str.length) =
      (min pos str.length, min pos str.length) := by
    rcases Nat.le_total pos str.length with h | h
    · rw [Nat.min_eq_left h, tabIndexLoop_end]
    · rw [List.drop_of_length_le h, tabIndexLoop]
  rw [hloop, hstop]
  dsimp only
  rw [if_neg (by omega)]

theorem tabIndexLoop_le (pos tabsize : Nat) (str : CString) (c p : Nat) :
    p < (tabIndexLoop pos tabsize str c p).2 ∨ tabIndexLoop pos tabsize str c p = (c, p) := by
  induction str generalizing c p with
  | nil => exact .inr rfl
  | cons x str ih =>
    rw [tabIndexLoop]
    split
    · rcases ih (if x = tab then nextTab tabsize c else c + 1) (p + 1) with h | h
      · exact .inl (by omega)
      · exact .inl (by rw [h]; exact Nat.lt_succ_self p)
    · exact .inr rfl

theorem tabIndex_pos {x : UInt8} (hx : x ≠ tab) (h : 0 < pos) (str : CString) :
    0 < tabIndex (x :: str) pos tabsize := by
  rw [tabIndex]
  split
  · exact h
  rw [tabIndexLoop, if_pos h, if_neg hx, Nat.zero_add]
  rcases tabIndexLoop_le pos tabsize str 1 1 with hlt | heq
  · dsimp only
    split <;> omega
  · rw [heq]
    dsimp only
    rw [if_neg (by omega)]
    exact Nat.one_pos

end

end Renameutils
