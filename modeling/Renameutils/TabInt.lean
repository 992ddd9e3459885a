import Mathlib.Data.Option.Basic
import Renameutils.TabUtils
import Renameutils.Lib.Words

/-!
# Columns as `int`

`tab_to` and `tab_index` compute columns as `int`, and the next tab stop can be beyond `INT_MAX`. Here an overflow is
an error (`none`); where there is none, the functions do what they do on numbers (`tabLoop_eq`, `tabIndexLoop_eq`).
`tab_len` counts with a `size_t`, which no string in memory overflows.
-/

namespace Renameutils
open CString

/-- `(c / tabsize + 1) * tabsize` as an `int`. -/
def intNextTab (tabsize c : Nat) : Option Nat :=
  if nextTab tabsize c < 2 ^ 31 then some (nextTab tabsize c) else none

/-- The column after a character, for `tabsize` not 0. -/
def advance (tabsize c : Nat) (ch : UInt8) : Nat := if ch = tab then nextTab tabsize c else c + 1

/-- `tab_len`. -/
def tabLen (string : CString) (tabsize : Nat) : Nat :=
  if tabsize = 0 then string.length else string.foldl (advance tabsize) 0

namespace TabInt

/-- The `while` of `tab_to`. -/
def tabLoop (tabsize toPos fromPos : Nat) : Option (CString × Nat) :=
  if _h : 0 < tabsize then do
    guard (nextTab tabsize fromPos < 2 ^ 31)
    if _hle : nextTab tabsize fromPos ≤ toPos then do
      let (tabs, c) ← tabLoop tabsize toPos (nextTab tabsize fromPos)
      some (tab :: tabs, c)
    else some ([], fromPos)
  else some ([], fromPos)
termination_by toPos - fromPos
decreasing_by
  have := lt_nextTab _h fromPos
  omega

/-- `tab_to`. -/
def tabTo (fromPos toPos tabsize : Nat) : Option CString := do
  let (tabs, c) ← tabLoop tabsize toPos fromPos
  some (tabs ++ List.replicate (toPos - c) space)

/-- The loop of `tab_index`. -/
def tabIndexLoop (pos tabsize : Nat) : CString → Nat → Nat → Option (Nat × Nat)
  | [], c, p => some (c, p)
  | ch :: string, c, p =>
    if c < pos then
      if ch = tab then do tabIndexLoop pos tabsize string (← intNextTab tabsize c) (p + 1)
      else tabIndexLoop pos tabsize string (c + 1) (p + 1)
    else some (c, p)

/-- `tab_index`. -/
def tabIndex (string : CString) (pos tabsize : Nat) : Option Nat :=
  if tabsize = 0 then some pos
  else do
    let (c, p) ← tabIndexLoop pos tabsize string 0 0
    some (if c > pos then p - 1 else p)

end TabInt

variable {tabsize pos c p : Nat} {str : CString}

/-! ### Columns of prefixes -/

theorem lt_advance (h : 0 < tabsize) (c : Nat) (ch : UInt8) : c < advance tabsize c ch := by
  unfold advance
  split
  · exact lt_nextTab h c
  · exact Nat.lt_succ_self c

theorem le_foldl_advance (h : 0 < tabsize) (str : CString) (c : Nat) : c ≤ str.foldl (advance tabsize) c := by
  induction str generalizing c with
  | nil => exact Nat.le_refl c
  | cons ch str ih => exact (Nat.le_of_lt (lt_advance h c ch)).trans (ih _)

theorem foldl_take_lt (h : 0 < tabsize) (c : Nat) {q : Nat} (hpq : p < q) (hq : q ≤ str.length) :
    (str.take p).foldl (advance tabsize) c < (str.take q).foldl (advance tabsize) c := by
  have hlt : p < (str.take q).length := by
    rw [List.length_take]
    omega
  have htake : (str.take q).take p = str.take p := by
    rw [List.take_take, Nat.min_eq_left (Nat.le_of_lt hpq)]
  have hsplit : str.take q = str.take p ++ (str.take q)[p] :: (str.take q).drop (p + 1) := by
    rw [← htake, ← List.drop_eq_getElem_cons hlt, htake, ← htake, List.take_append_drop]
  rw [hsplit, List.foldl_append, List.foldl_cons]
  exact Nat.lt_of_lt_of_le (lt_advance h _ _) (le_foldl_advance h _ _)

theorem foldl_of_notMem (h : tab ∉ str) (c : Nat) : str.foldl (advance tabsize) c = c + str.length := by
  induction str generalizing c with
  | nil => rfl
  | cons ch str ih =>
    have hch : ch ≠ tab := fun heq => h (heq ▸ List.mem_cons_self)
    rw [List.foldl_cons, advance, if_neg hch, ih fun hmem => h (List.mem_cons_of_mem ch hmem), List.length_cons]
    omega

theorem tabLen_of_notMem (h : tab ∉ str) (tabsize : Nat) : tabLen str tabsize = str.length := by
  unfold tabLen
  split
  · rfl
  · rw [foldl_of_notMem h, Nat.zero_add]

theorem foldl_tabLoop (tabsize toPos c : Nat) :
    (tabLoop tabsize toPos c).1.foldl (advance tabsize) c = (tabLoop tabsize toPos c).2 := by
  induction c using tabLoop.induct tabsize toPos with
  | case1 c h tabs c' heq ih =>
    rw [tabLoop, dif_pos h]
    exact ih
  | case2 c h =>
    rw [tabLoop, dif_neg h]
    rfl

theorem notMem_replicate_space (n : Nat) : tab ∉ List.replicate n space :=
  fun hmem => absurd (List.eq_of_mem_replicate hmem) (by decide)

/-- A string and what `tab_to` prints after it are as long as asked for, also where `tab_to` printed spaces only. -/
theorem tabLen_tabTo {a : CString} (ha : tab ∉ a) (h : a.length ≤ pos) {tabsize' : Nat}
    (hsize : tabsize' = tabsize ∨ tabsize' = 0) : tabLen (a ++ tabTo a.length pos tabsize') tabsize = pos := by
  have hzero : tabTo a.length pos 0 = List.replicate (pos - a.length) space := by
    rw [tabTo, tabLoop, dif_neg (by omega)]
    rfl
  have hspaces : tabLen (a ++ tabTo a.length pos 0) tabsize = pos := by
    rw [hzero, tabLen_of_notMem]
    · rw [List.length_append, List.length_replicate]
      omega
    · rw [List.mem_append, not_or]
      exact ⟨ha, notMem_replicate_space _⟩
  rcases hsize with rfl | rfl
  · obtain rfl | hpos := Nat.eq_zero_or_pos tabsize'
    · exact hspaces
    · obtain ⟨-, hle⟩ := tabLoop_le tabsize' h
      rw [tabLen, if_neg (Nat.ne_of_gt hpos), List.foldl_append, foldl_of_notMem ha, Nat.zero_add, tabTo]
      dsimp only
      rw [List.foldl_append, foldl_tabLoop, foldl_of_notMem (notMem_replicate_space _), List.length_replicate]
      omega
  · exact hspaces

theorem tabIndexLoop_spec (str : CString) (c p : Nat) :
    ∃ k, k ≤ str.length ∧
      tabIndexLoop pos tabsize str c p = ((str.take k).foldl (advance tabsize) c, p + k) ∧
      (k = str.length ∨ pos ≤ (str.take k).foldl (advance tabsize) c) ∧
      ∀ j, j < k → (str.take j).foldl (advance tabsize) c < pos := by
  induction str generalizing c p with
  | nil => exact ⟨0, Nat.le_refl 0, rfl, .inl rfl, fun j hj => absurd hj (Nat.not_lt_zero j)⟩
  | cons ch str ih =>
    rw [tabIndexLoop]
    split
    · next hlt =>
      obtain ⟨k, hk, hrun, hstop, hbefore⟩ := ih (advance tabsize c ch) (p + 1)
      refine ⟨k + 1, Nat.succ_le_succ hk, ?_, hstop.imp_left (congrArg Nat.succ), fun j hj => ?_⟩
      · rw [show (if ch = tab then nextTab tabsize c else c + 1) = advance tabsize c ch from rfl, hrun, Nat.add_assoc,
          Nat.add_comm 1]
        rfl
      · obtain _ | j := j
        · exact hlt
        · exact hbefore j (Nat.lt_of_succ_lt_succ hj)
    · next hge => exact ⟨0, Nat.zero_le _, rfl, .inr (Nat.le_of_not_lt hge), fun j hj => absurd hj (Nat.not_lt_zero j)⟩

/-- `tab_index` gives the longest prefix that does not go beyond `pos`. -/
theorem tabIndex_largest (h : 0 < tabsize) (str : CString) (pos : Nat) :
    tabIndex str pos tabsize ≤ str.length ∧ tabLen (str.take (tabIndex str pos tabsize)) tabsize ≤ pos ∧
    ∀ q, q ≤ str.length → tabLen (str.take q) tabsize ≤ pos → q ≤ tabIndex str pos tabsize := by
  have hne : tabsize ≠ 0 := Nat.ne_of_gt h
  simp only [tabLen, if_neg hne, tabIndex]
  obtain ⟨k, hk, hrun, hstop, hbefore⟩ := @tabIndexLoop_spec tabsize pos str 0 0
  rw [hrun]
  dsimp only
  rw [Nat.zero_add]
  split
  · next hgt =>
    -- the last tab went too far
    have hpos : k ≠ 0 := by
      rintro rfl
      exact absurd hgt (by simp)
    refine ⟨by omega, Nat.le_of_lt (hbefore (k - 1) (by omega)), fun q hq hle => ?_⟩
    by_contra hlt
    rcases Nat.lt_or_ge k q with hkq | hqk
    · have := foldl_take_lt h 0 hkq hq
      omega
    · obtain rfl : q = k := by omega
      omega
  · next hle =>
    refine ⟨hk, by omega, fun q hq hqle => ?_⟩
    by_contra hlt
    have := foldl_take_lt h 0 (show k < q by omega) hq
    omega

/-! ### Where an `int` is enough -/

theorem nextTab_eq (h : 0 < tabsize) (hle : c ≤ pos) (hlt : pos < nextTab tabsize c) :
    nextTab tabsize pos = nextTab tabsize c := by
  have h₁ : c / tabsize ≤ pos / tabsize := Nat.div_le_div_right hle
  have h₂ : pos / tabsize < c / tabsize + 1 := (Nat.div_lt_iff_lt_mul h).mpr hlt
  rw [nextTab, nextTab, Nat.le_antisymm (Nat.le_of_lt_succ h₂) h₁]

theorem nextTab_mono (tabsize : Nat) (hle : c ≤ pos) : nextTab tabsize c ≤ nextTab tabsize pos :=
  Nat.mul_le_mul_right tabsize (Nat.succ_le_succ (Nat.div_le_div_right hle))

/-- `tab_to` looks for the tab stop beyond its target. -/
theorem tabLoop_eq (h : 0 < tabsize) (hle : c ≤ pos) (hpos : pos < 2 ^ 31) :
    TabInt.tabLoop tabsize pos c = if nextTab tabsize pos < 2 ^ 31 then some (tabLoop tabsize pos c) else none := by
  induction c using tabLoop.induct tabsize pos with
  | case1 c hc tabs c' heq ih =>
    have htabs : tabLoop tabsize pos c = (tab :: tabs, c') := by
      rw [tabLoop, dif_pos hc, heq]
    rw [TabInt.tabLoop, dif_pos h, dif_pos hc.2, ih hc.2, htabs, heq]
    have hguard : nextTab tabsize c < 2 ^ 31 := Nat.lt_of_le_of_lt hc.2 hpos
    rw [guard, if_pos hguard]
    split <;> rfl
  | case2 c hc =>
    have hlt : pos < nextTab tabsize c := by
      by_contra hnot
      exact hc ⟨h, Nat.le_of_not_lt hnot⟩
    rw [TabInt.tabLoop, dif_pos h, dif_neg (Nat.not_le_of_lt hlt), tabLoop, dif_neg hc, nextTab_eq h hle hlt]
    rw [guard]
    split <;> rfl

theorem tabTo_eq (hle : c ≤ pos) (hpos : pos < 2 ^ 31) :
    TabInt.tabTo c pos tabsize =
      if tabsize = 0 ∨ nextTab tabsize pos < 2 ^ 31 then some (tabTo c pos tabsize) else none := by
  obtain rfl | h := Nat.eq_zero_or_pos tabsize
  · rw [if_pos (.inl rfl), TabInt.tabTo, TabInt.tabLoop, dif_neg (Nat.lt_irrefl 0), tabTo, tabLoop, dif_neg (by omega)]
    rfl
  · rw [TabInt.tabTo, tabLoop_eq h hle hpos]
    simp only [Nat.ne_of_gt h, false_or]
    split <;> rfl

/-- No tab that `tab_index` looks at leads beyond `INT_MAX`. -/
def TabsFit (str : CString) (pos tabsize c : Nat) : Prop :=
  ∀ p, str[p]? = some tab → (str.take p).foldl (advance tabsize) c < pos →
    nextTab tabsize ((str.take p).foldl (advance tabsize) c) < 2 ^ 31

theorem tabsFit_cons {ch : UInt8} (hc : c < pos) :
    TabsFit (ch :: str) pos tabsize c ↔
      (ch = tab → nextTab tabsize c < 2 ^ 31) ∧ TabsFit str pos tabsize (advance tabsize c ch) := by
  constructor
  · exact fun h => ⟨fun hch => h 0 (congrArg some hch) hc, fun p hp hlt => h (p + 1) hp hlt⟩
  · rintro ⟨hhead, htail⟩ p hp hlt
    obtain _ | p := p
    · exact hhead (Option.some.inj hp)
    · exact htail p hp hlt

theorem tabIndexLoop_eq (h : 0 < tabsize) (str : CString) (c p : Nat) :
    (TabsFit str pos tabsize c → TabInt.tabIndexLoop pos tabsize str c p = some (tabIndexLoop pos tabsize str c p)) ∧
    (¬ TabsFit str pos tabsize c → TabInt.tabIndexLoop pos tabsize str c p = none) := by
  induction str generalizing c p with
  | nil => exact ⟨fun _ => rfl, fun hnot => absurd (fun p hp => by cases hp) hnot⟩
  | cons ch str ih =>
    by_cases hc : c < pos
    · rw [TabInt.tabIndexLoop, tabIndexLoop, if_pos hc, if_pos hc, tabsFit_cons hc]
      by_cases hch : ch = tab
      · rw [if_pos hch, if_pos hch, intNextTab, advance, if_pos hch]
        obtain ⟨hfit, hnot⟩ := ih (nextTab tabsize c) (p + 1)
        split
        · next hlt => exact ⟨fun hf => hfit hf.2, fun hf => hnot fun ht => hf ⟨fun _ => hlt, ht⟩⟩
        · next hge => exact ⟨fun hf => absurd (hf.1 hch) hge, fun _ => rfl⟩
      · rw [if_neg hch, if_neg hch, advance, if_neg hch]
        obtain ⟨hfit, hnot⟩ := ih (c + 1) (p + 1)
        exact ⟨fun hf => hfit hf.2, fun hf => hnot fun ht => hf ⟨fun heq => absurd heq hch, ht⟩⟩
    · rw [TabInt.tabIndexLoop, tabIndexLoop, if_neg hc, if_neg hc]
      refine ⟨fun _ => rfl, fun hnot => absurd (fun q _ hlt => ?_) hnot⟩
      exact absurd ((le_foldl_advance h (List.take q (ch :: str)) c).trans_lt hlt) hc

theorem tabIndex_eq (h : 0 < tabsize) (hfit : TabsFit str pos tabsize 0) :
    TabInt.tabIndex str pos tabsize = some (tabIndex str pos tabsize) := by
  rw [TabInt.tabIndex, tabIndex, if_neg (Nat.ne_of_gt h), if_neg (Nat.ne_of_gt h), (tabIndexLoop_eq h str 0 0).1 hfit]
  rfl

theorem tabIndex_eq_none (h : 0 < tabsize) (hfit : ¬ TabsFit str pos tabsize 0) :
    TabInt.tabIndex str pos tabsize = none := by
  rw [TabInt.tabIndex, if_neg (Nat.ne_of_gt h), (tabIndexLoop_eq h str 0 0).2 hfit]
  rfl

theorem tabsFit_of_nextTab (h : nextTab tabsize pos < 2 ^ 31) (str : CString) : TabsFit str pos tabsize 0 :=
  fun _ _ hlt => Nat.lt_of_le_of_lt (nextTab_mono tabsize (Nat.le_of_lt hlt)) h

/-- `tab_index` undoes what `tab_to` prints after `s` with `tabsize'`. -/
def Undoes (s t : CString) (toPos tabsize tabsize' : Nat) : Prop :=
  ∃ w, TabInt.tabTo s.length toPos tabsize' = some w ∧
    (∃ i j, w = List.replicate i tab ++ List.replicate j space) ∧ tabLen (s ++ w) tabsize = toPos ∧
    TabInt.tabIndex (s ++ w ++ t) toPos tabsize = some (s ++ w).length

/-- `tab_index` gives the longest prefix that does not go beyond `pos`. -/
def FindsLargest (str : CString) (pos tabsize : Nat) : Prop :=
  ∃ p, TabInt.tabIndex str pos tabsize = some p ∧ p ≤ str.length ∧ tabLen (str.take p) tabsize ≤ pos ∧
    ∀ q, q ≤ str.length → tabLen (str.take q) tabsize ≤ pos → q ≤ p

theorem exists_tabTo_eq (c pos tabsize : Nat) :
    ∃ i j, tabTo c pos tabsize = List.replicate i tab ++ List.replicate j space :=
  ⟨(tabLoop tabsize pos c).1.length, pos - (tabLoop tabsize pos c).2,
    congrArg (· ++ _) (List.eq_replicate_of_mem (tabLoop_blank tabsize pos c))⟩

theorem undoes_of_fits {s t : CString} {toPos tabsize' : Nat} (hs : tab ∉ s) (hle : s.length ≤ toPos)
    (hto : toPos < 2 ^ 31) (hsize : tabsize' = tabsize ∨ tabsize' = 0)
    (hfit : tabsize = 0 ∨ nextTab tabsize toPos < 2 ^ 31) : Undoes s t toPos tabsize tabsize' := by
  have hfit' : tabsize' = 0 ∨ nextTab tabsize' toPos < 2 ^ 31 := by
    rcases hsize with rfl | rfl
    · exact hfit
    · exact .inl rfl
  refine ⟨_, (tabTo_eq hle hto).trans (if_pos hfit'), exists_tabTo_eq .., tabLen_tabTo hs hle hsize, ?_⟩
  rw [← tabIndex_tabTo hs hle hsize t]
  obtain rfl | h := Nat.eq_zero_or_pos tabsize
  · rfl
  · exact tabIndex_eq h (tabsFit_of_nextTab (hfit.resolve_left (Nat.ne_of_gt h)) _)

/-- Both laws hold exactly when no tab stop that is looked at is beyond `INT_MAX`. -/
theorem tabLaws_iff (tabsize : Nat) :
    (∀ (s t : CString) (toPos : Nat), tab ∉ s → s.length ≤ toPos → toPos < 2 ^ 31 →
      (Undoes s t toPos tabsize tabsize ∧ Undoes s t toPos tabsize 0 ↔
        tabsize = 0 ∨ nextTab tabsize toPos < 2 ^ 31)) ∧
    ∀ (str : CString) (pos : Nat), 1 ≤ tabsize → (FindsLargest str pos tabsize ↔ TabsFit str pos tabsize 0) := by
  refine ⟨fun s t toPos hs hle hto => ⟨?_, fun hfit => ?_⟩, fun str pos h => ⟨?_, fun hfit => ?_⟩⟩
  · rintro ⟨⟨w, hw, -⟩, -⟩
    rw [tabTo_eq hle hto] at hw
    exact (Option.ite_none_right_eq_some.mp hw).1
  · exact ⟨undoes_of_fits hs hle hto (.inl rfl) hfit, undoes_of_fits hs hle hto (.inr rfl) hfit⟩
  · rintro ⟨p, hp, -⟩
    by_contra hfit
    rw [tabIndex_eq_none h hfit] at hp
    cases hp
  · exact ⟨_, tabIndex_eq h hfit, tabIndex_largest h str pos⟩

theorem tabLaws_ab : (Undoes [0x61, 0x62] [0x63] 10 8 8 ∧ Undoes [0x61, 0x62] [0x63] 10 8 0) ∧
    (FindsLargest [tab, 0x61] 8 4 ↔ TabsFit [tab, 0x61] 8 4 0) :=
  ⟨((tabLaws_iff 8).1 [0x61, 0x62] [0x63] 10 (by decide) (by decide) (by decide)).mpr (.inr (by decide)),
    (tabLaws_iff 4).2 [tab, 0x61] 8 (by decide)⟩

/-- The second tab stop is 2³¹. -/
theorem not_tabLaws :
    ¬ Undoes [] [] (2 ^ 31 - 1) (2 ^ 30) (2 ^ 30) ∧ ¬ FindsLargest [tab, tab] (2 ^ 31 - 1) (2 ^ 30) := by
  constructor
  · rintro ⟨w, hw, -⟩
    rw [tabTo_eq (by decide) (by decide), if_neg (by decide)] at hw
    cases hw
  · rintro ⟨p, hp, -⟩
    rw [tabIndex_eq_none (by decide) fun hfit => absurd (hfit 1 rfl (by decide)) (by decide)] at hp
    cases hp

end Renameutils
