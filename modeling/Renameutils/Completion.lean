import Renameutils.CommandLine

/-!
# Completion (`completion`, `interactive.c`; `word_get` and `word_get_index`, `common/string-utils.c`)

`completion` counts the words before the one to complete, looks at the first two of them, and hands a generator to
`rl_completion_matches` of GNU Readline, which is a parameter. Which one it is depends on the words that are ended
before the position alone; what it gives, one call after another, are the names that start with the text
(`completion_eq`). They are accepted there (`namesAfter_usable`).
-/

namespace Renameutils
open CString

/-! ### Words -/

/-- `substring`, for indices that are not negative. -/
def substring (buf : CString) (start stop : Nat) : CString := (buf.drop start).take (stop - start)

/-- The loop of `word_get_index`. -/
def wordGetIndexLoop (isspace : UInt8 → Bool) (pos : Nat) : CString → Nat → Bool → Nat → Nat
  | [], _, _, words => words
  | ch :: str, c, inWord, words =>
    if c < pos then
      let inWord := if !inWord && !isspace ch then true else inWord
      if inWord && isspace ch then wordGetIndexLoop isspace pos str (c + 1) false (words + 1)
      else wordGetIndexLoop isspace pos str (c + 1) inWord words
    else words

def wordGetIndex (isspace : UInt8 → Bool) (str : CString) (pos : Nat) : Nat :=
  wordGetIndexLoop isspace pos str 0 false 0

/-- The loop of `word_get`. `start` is read only after it is set. -/
def wordGetLoop (isspace : UInt8 → Bool) (str : CString) (idx : Nat) : CString → Nat → Bool → Nat → Nat → Option CString
  | [], c, _, words, start => if words = idx + 1 then some (substring str start c) else none
  | ch :: rest, c, inWord, words, start =>
    let (inWord, words, start) := if !inWord && !isspace ch then (true, words + 1, c) else (inWord, words, start)
    if inWord && isspace ch then
      if words > idx then some (substring str start c)
      else wordGetLoop isspace str idx rest (c + 1) false words start
    else wordGetLoop isspace str idx rest (c + 1) inWord words start

def wordGet (isspace : UInt8 → Bool) (str : CString) (idx : Nat) : Option CString :=
  wordGetLoop isspace str idx str 0 false 0 0

/-! ### Generators -/

/-- `while (c < n)`, over the names from `c` on. -/
def generateLoop (text : CString) : List CString → Nat → Option CString × Nat
  | [], c => (none, c)
  | name :: names, c => if name.startsWith text then (some name, c + 1) else generateLoop text names (c + 1)

/-- A generator of some names, with its static variable before and after it. -/
def generator (names : List CString) (text : CString) (state c : Nat) : Option CString × Nat :=
  let c := if state = 0 then 0 else c
  generateLoop text (names.drop c) c

/-- What a generator gives when it is called with some states, one after another. -/
def generated (names : List CString) (text : CString) : Nat → List Nat → List (Option CString)
  | _, [] => []
  | c, state :: states =>
    (generator names text state c).1 :: generated names text (generator names text state c).2 states

/-- The words of `commands`. -/
def commandNames : List CString := commands.map Command.word

/-- `variables` of `variable_generator`. -/
def variableNames : List CString := [simulateName, editorName, formatName, tempfileName, optionsName]

def formatNames : List CString := formats.map fun f => f.1

/-- `option_array` of a format. -/
def EditFormat.optionNames : EditFormat → List CString
  | destinationOnly => DestinationOnly.parser.optionArray.map Prod.fst
  | singleColumn => SingleColumn.parser.optionArray.map Prod.fst
  | dualColumn => DualColumn.parser.optionArray.map Prod.fst

/-- `show`. -/
def showWord : CString := [115, 104, 111, 119]

/-- `completion`, where `rlCompletionMatches` is what `rl_completion_matches` makes of a generator. What is returned may
be `NULL`; `none`: `strcmp` sees a `NULL`. -/
def completion {α : Type} (rlCompletionMatches : (Nat → Nat → Option CString × Nat) → α) (isspace : UInt8 → Bool)
    (format : EditFormat) (line text : CString) (start : Nat) : Option (Option α) :=
  let complete (names : List CString) := rlCompletionMatches (generator names text)
  let idx := wordGetIndex isspace line start
  if idx = 0 then some (complete commandNames)
  else if idx = 1 then do
    let command ← wordGet isspace line 0
    if command = setWord || command = showWord then return some (complete variableNames) else return none
  else if idx = 2 then do
    let command ← wordGet isspace line 0
    if command = setWord then do
      let name ← wordGet isspace line 1
      if name = formatName then return some (complete formatNames)
      else if name = optionsName then return some (complete format.optionNames)
      else return none
    else return none
  else some none

/-! ### What completion should offer -/

/-- The words of a text. -/
def wordsOf (isspace : UInt8 → Bool) (str : CString) : List CString := (str.splitOnP isspace).filter (· ≠ [])

/-- The words of a text that have a blank after them. -/
def endedWords (isspace : UInt8 → Bool) (str : CString) : List CString :=
  (str.splitOnP isspace).dropLast.filter (· ≠ [])

/-- The names for what comes after some words, where there are some. -/
def namesAfter (format : EditFormat) : List CString → Option (List CString)
  | [] => some commandNames
  | [command] => if command = setWord ∨ command = showWord then some variableNames else none
  | [command, name] =>
    if command = setWord then
      if name = formatName then some formatNames else if name = optionsName then some format.optionNames else none
    else none
  | _ => none

section
variable {isspace : UInt8 → Bool} {str rest cur : CString} {ch : UInt8}

/-- The words of a text that goes on after the beginning of a word. -/
def wordsFrom (isspace : UInt8 → Bool) : CString → CString → List CString
  | cur, [] => if cur = [] then [] else [cur]
  | cur, ch :: rest =>
    if isspace ch then (if cur = [] then [] else [cur]) ++ wordsFrom isspace [] rest
    else wordsFrom isspace (cur ++ [ch]) rest

/-- Those that are ended, and the beginning of the next one. -/
def endedFrom (isspace : UInt8 → Bool) : CString → CString → List CString × CString
  | cur, [] => ([], cur)
  | cur, ch :: rest =>
    if isspace ch then
      ((if cur = [] then [] else [cur]) ++ (endedFrom isspace [] rest).1, (endedFrom isspace [] rest).2)
    else endedFrom isspace (cur ++ [ch]) rest

theorem splitOnPPrepend_words (isspace : UInt8 → Bool) (cur rest : CString) :
    (rest.splitOnPPrepend isspace cur.reverse).filter (· ≠ []) = wordsFrom isspace cur rest ∧
      (rest.splitOnPPrepend isspace cur.reverse).dropLast.filter (· ≠ []) = (endedFrom isspace cur rest).1 := by
  induction rest generalizing cur with
  | nil =>
    rw [List.splitOnPPrepend_nil, List.reverse_reverse, wordsFrom, endedFrom]
    by_cases hcur : cur = []
    · simp [hcur]
    · simp [hcur]
  | cons ch rest ih =>
    rw [List.splitOnPPrepend_cons_eq_if, List.reverse_reverse, wordsFrom, endedFrom]
    by_cases hch : isspace ch = true
    · obtain ⟨hwords, hended⟩ := ih []
      have hne : List.splitOnP isspace rest ≠ [] := List.splitOnP_ne_nil isspace rest
      rw [List.reverse_nil, List.splitOnPPrepend_nil_right] at hwords hended
      rw [if_pos hch, if_pos hch, if_pos hch, List.dropLast_cons_of_ne_nil hne, List.filter_cons, List.filter_cons,
        hwords, hended]
      by_cases hcur : cur = []
      · simp [hcur]
      · simp [hcur]
    · have hcur := ih (cur ++ [ch])
      rw [List.reverse_append, List.reverse_singleton, List.singleton_append] at hcur
      rwa [if_neg hch, if_neg hch, if_neg hch]

theorem wordsOf_eq (isspace : UInt8 → Bool) (str : CString) : wordsOf isspace str = wordsFrom isspace [] str :=
  (splitOnPPrepend_words isspace [] str).1

theorem endedWords_eq (isspace : UInt8 → Bool) (str : CString) :
    endedWords isspace str = (endedFrom isspace [] str).1 := (splitOnPPrepend_words isspace [] str).2

theorem wordsFrom_append (isspace : UInt8 → Bool) (cur str rest : CString) :
    wordsFrom isspace cur (str ++ rest) =
      (endedFrom isspace cur str).1 ++ wordsFrom isspace (endedFrom isspace cur str).2 rest := by
  induction str generalizing cur with
  | nil => rw [List.nil_append, endedFrom, List.nil_append]
  | cons ch str ih =>
    rw [List.cons_append, wordsFrom, endedFrom]
    split
    · rw [ih, List.append_assoc]
    · exact ih _

theorem endedWords_prefix (isspace : UInt8 → Bool) (str : CString) (pos : Nat) :
    endedWords isspace (str.take pos) <+: wordsOf isspace str := by
  refine ⟨wordsFrom isspace (endedFrom isspace [] (str.take pos)).2 (str.drop pos), ?_⟩
  rw [endedWords_eq, wordsOf_eq, ← wordsFrom_append, List.take_append_drop]

theorem wordGetIndexLoop_eq (isspace : UInt8 → Bool) (pos : Nat) (cur str : CString) (c words : Nat) :
    wordGetIndexLoop isspace pos str c (cur ≠ []) words =
      words + (endedFrom isspace cur (str.take (pos - c))).1.length := by
  induction str generalizing cur c words with
  | nil => rw [wordGetIndexLoop, List.take_nil, endedFrom, List.length_nil, Nat.add_zero]
  | cons ch str ih =>
    rw [wordGetIndexLoop]
    by_cases hlt : c < pos
    · rw [if_pos hlt, show pos - c = (pos - (c + 1)) + 1 by omega, List.take_succ_cons, endedFrom]
      by_cases hch : isspace ch = true
      · by_cases hcur : cur = []
        · have hnext := ih [] (c + 1) words
          simp only [ne_eq, not_true_eq_false, decide_false] at hnext
          simp [hcur, hch, hnext]
        · have hnext := ih [] (c + 1) (words + 1)
          simp only [ne_eq, not_true_eq_false, decide_false] at hnext
          simp [hcur, hch, hnext]
          omega
      · have hnext := ih (cur ++ [ch]) (c + 1) words
        simp only [ne_eq, List.append_eq_nil_iff, List.cons_ne_nil, and_false, not_false_eq_true, decide_true] at hnext
        rw [if_neg hch, ← hnext]
        by_cases hcur : cur = []
        · simp [hcur, hch]
        · simp [hcur, hch]
    · rw [if_neg hlt, Nat.sub_eq_zero_of_le (Nat.le_of_not_lt hlt), List.take_zero, endedFrom, List.length_nil,
        Nat.add_zero]

theorem wordGetIndex_eq (isspace : UInt8 → Bool) (str : CString) (pos : Nat) :
    wordGetIndex isspace str pos = (endedWords isspace (str.take pos)).length := by
  have hloop := wordGetIndexLoop_eq isspace pos [] str 0 0
  rw [endedWords_eq, wordGetIndex]
  simpa using hloop

theorem substring_middle (pre cur rest : CString) :
    substring (pre ++ cur ++ rest) pre.length (pre ++ cur).length = cur := by
  rw [substring, List.append_assoc, List.drop_left, List.length_append, Nat.add_sub_cancel_left, List.take_left]

/-- The loop is past `n` words, and in one that begins with `cur` at `start`. -/
theorem wordGetLoop_eq (isspace : UInt8 → Bool) (idx : Nat) (pre cur rest : CString) (n start : Nat) (hn : n ≤ idx)
    (hstart : cur ≠ [] → start = pre.length) :
    wordGetLoop isspace (pre ++ cur ++ rest) idx rest (pre ++ cur).length (cur ≠ [])
      (n + if cur = [] then 0 else 1) start = (wordsFrom isspace cur rest)[idx - n]? := by
  induction rest generalizing pre cur n start with
  | nil =>
    rw [wordGetLoop, wordsFrom]
    by_cases hcur : cur = []
    · rw [if_pos hcur, if_pos hcur, if_neg (by omega)]
      simp
    · rw [if_neg hcur, if_neg hcur, hstart hcur, substring_middle]
      by_cases hidx : n + 1 = idx + 1
      · simp [hidx, show idx - n = 0 by omega]
      · rw [if_neg hidx, List.getElem?_eq_none (by simp; omega)]
  | cons ch rest ih =>
    have hsnoc : pre ++ cur ++ ch :: rest = pre ++ (cur ++ [ch]) ++ rest := by simp
    have hblank : pre ++ cur ++ ch :: rest = (pre ++ cur ++ [ch]) ++ [] ++ rest := by simp
    have hlen : (pre ++ cur ++ [ch] ++ []).length = (pre ++ cur).length + 1 := by simp [Nat.add_assoc]
    have hlen' : (pre ++ (cur ++ [ch])).length = (pre ++ cur).length + 1 := by simp [Nat.add_assoc]
    rw [wordGetLoop, wordsFrom]
    by_cases hch : isspace ch = true
    · by_cases hcur : cur = []
      · -- a blank between words
        have hnext := ih (pre ++ cur ++ [ch]) [] n start hn (by simp)
        rw [← hblank, hlen] at hnext
        simpa only [hch, hcur, ne_eq, not_true_eq_false, decide_false, Bool.not_false, Bool.not_true, Bool.and_false,
          Bool.false_eq_true, ↓reduceIte, Bool.false_and, List.nil_append] using hnext
      · by_cases hidx : n = idx
        · -- the word that is asked for
          have hfound : substring (pre ++ cur ++ ch :: rest) start (pre ++ cur).length = cur := by
            rw [hstart hcur, substring_middle]
          simp only [hch, hcur, ne_eq, not_false_eq_true, decide_true, Bool.not_true, Bool.and_self,
            Bool.false_eq_true, ↓reduceIte, gt_iff_lt, hidx, Nat.lt_succ_self, hfound, Nat.sub_self, List.cons_append,
            List.nil_append, List.getElem?_cons_zero]
        · have hnext := ih (pre ++ cur ++ [ch]) [] (n + 1) start (by omega) (by simp)
          rw [← hblank, hlen] at hnext
          rw [show idx - n = idx - (n + 1) + 1 by omega]
          simpa only [hch, hcur, ne_eq, not_false_eq_true, not_true_eq_false, decide_true, decide_false, Bool.not_true,
            Bool.false_and, Bool.and_self, Bool.false_eq_true, ↓reduceIte, gt_iff_lt, show ¬ idx < n + 1 by omega,
            List.cons_append, List.nil_append, List.getElem?_cons_succ, Nat.add_zero] using hnext
    · rw [Bool.not_eq_true] at hch
      by_cases hcur : cur = []
      · -- a word begins
        have hnext := ih pre (cur ++ [ch]) n pre.length hn (fun _ => rfl)
        rw [← hsnoc, hlen'] at hnext
        simpa [hch, hcur] using hnext
      · have hnext := ih pre (cur ++ [ch]) n start hn (fun _ => hstart hcur)
        rw [← hsnoc, hlen'] at hnext
        simpa [hch, hcur] using hnext

theorem wordGet_eq (isspace : UInt8 → Bool) (str : CString) (idx : Nat) :
    wordGet isspace str idx = (wordsOf isspace str)[idx]? := by
  have hloop := wordGetLoop_eq isspace idx [] [] str 0 0 (Nat.zero_le idx) (by simp)
  rw [wordsOf_eq, wordGet]
  simpa using hloop

/-! ### What generators give -/

theorem generateLoop_eq (text : CString) (names : List CString) (c : Nat) :
    (∃ pre name post, names = pre ++ name :: post ∧ (∀ n ∈ pre, n.startsWith text = false) ∧
      name.startsWith text = true ∧ generateLoop text names c = (some name, c + pre.length + 1)) ∨
    (∀ n ∈ names, n.startsWith text = false) ∧ generateLoop text names c = (none, c + names.length) := by
  induction names generalizing c with
  | nil => exact Or.inr ⟨by simp, rfl⟩
  | cons name names ih =>
    rw [generateLoop]
    cases hstarts : name.startsWith text with
    | true => exact Or.inl ⟨[], name, names, rfl, by simp, hstarts, rfl⟩
    | false =>
      rcases ih (c + 1) with ⟨pre, name', post, rfl, hpre, hname, heq⟩ | ⟨hnone, heq⟩
      · refine Or.inl ⟨name :: pre, name', post, rfl, List.forall_mem_cons.mpr ⟨hstarts, hpre⟩, hname, ?_⟩
        simp [heq, Nat.add_comm, Nat.add_left_comm]
      · refine Or.inr ⟨List.forall_mem_cons.mpr ⟨hstarts, hnone⟩, ?_⟩
        simp [heq, Nat.add_comm, Nat.add_left_comm]

theorem generated_eq (names : List CString) (text : CString) (c : Nat) {states : List Nat} (hstates : 0 ∉ states) :
    generated names text c states =
      (List.range states.length).map (((names.drop c).filter (·.startsWith text))[·]?) := by
  induction states generalizing c with
  | nil => rfl
  | cons state states ih =>
    rw [List.mem_cons, not_or] at hstates
    have hstate : (if state = 0 then 0 else c) = c := if_neg (Ne.symm hstates.1)
    rw [generated, generator]
    simp only [hstate, List.length_cons, List.range_succ_eq_map, List.map_cons, List.map_map]
    rcases generateLoop_eq text (names.drop c) c with ⟨pre, name, post, hnames, hpre, hname, heq⟩ | ⟨hnone, heq⟩
    · have hfilter : pre.filter (·.startsWith text) = [] := by simpa [List.filter_eq_nil_iff] using hpre
      have hdrop : names.drop (c + pre.length + 1) = post := by
        rw [Nat.add_assoc, ← List.drop_drop, hnames, List.append_cons, List.drop_left' (by simp)]
      rw [heq, ih _ hstates.2, hdrop, hnames, List.filter_append, hfilter, List.nil_append, List.filter_cons,
        if_pos hname]
      rfl
    · have hfilter : (names.drop c).filter (·.startsWith text) = [] := by
        simpa [List.filter_eq_nil_iff] using hnone
      have hdrop : names.drop (c + (names.drop c).length) = [] := by
        rw [List.drop_eq_nil_iff, List.length_drop]
        omega
      rw [heq, ih _ hstates.2, hdrop, hfilter]
      rfl

/-- Completion hands over the generator of the names for what comes after the words before the position, and does not
look at words that are not there. Called with 0 and then with other numbers, the generator gives the names that start
with the text one by one and then `NULL`, whatever it was called for before. -/
theorem completion_eq {α : Type} (rlCompletionMatches : (Nat → Nat → Option CString × Nat) → α)
    (isspace : UInt8 → Bool) (format : EditFormat) (line text : CString) (start : Nat) :
    completion rlCompletionMatches isspace format line text start =
      some ((namesAfter format (endedWords isspace (line.take start))).map fun names =>
        rlCompletionMatches (generator names text)) ∧
    ∀ names c states, 0 ∉ states → generated names text c (0 :: states) =
      (List.range (states.length + 1)).map ((names.filter (·.startsWith text))[·]?) := by
  constructor
  · obtain ⟨rest, hwords⟩ := endedWords_prefix isspace line start
    unfold completion
    simp only [wordGetIndex_eq, wordGet_eq, ← hwords]
    rcases endedWords isspace (line.take start) with _ | ⟨command, _ | ⟨name, _ | ⟨name', more⟩⟩⟩
    · rfl
    · by_cases hcommand : command = setWord ∨ command = showWord
      · simp [namesAfter, hcommand]
      · simp [namesAfter, hcommand]
    · by_cases hset : command = setWord
      · by_cases hformat : name = formatName
        · simp [namesAfter, hset, hformat]
        · by_cases hoptions : name = optionsName
          · simp [namesAfter, hset, hoptions, show optionsName ≠ formatName by decide]
          · simp [namesAfter, hset, hformat, hoptions]
      · simp [namesAfter, hset]
    · simp [namesAfter]
  · intro names c states hstates
    -- the first call starts anew, as one with another state does at the first name
    have hfirst : generated names text c (0 :: states) = generated names text 0 (1 :: states) := rfl
    rw [hfirst, generated_eq names text 0 (by simpa using hstates)]
    rfl

theorem namesAfter_usable (format : EditFormat) :
    (∀ names ∈ namesAfter format [], ∀ word ∈ names, (findCommand ⟨word, .helpCommand⟩).isSome) ∧
    (∀ names ∈ namesAfter format [setWord, formatName], ∀ name ∈ names, (findEditFormatByName name).isSome) ∧
    ∀ names ∈ namesAfter format [setWord, optionsName], ∀ name ∈ names, (format.kinds.lookup name).isSome := by
  refine ⟨?_, ?_, ?_⟩
  · rintro _ ⟨⟩ word hword
    obtain ⟨c, hc, rfl⟩ := List.mem_map.mp hword
    rw [(findCommand_eq_some_iff _ _ c).mpr ⟨hc, rfl⟩]
    rfl
  · rintro _ ⟨⟩
    decide
  · rintro _ ⟨⟩
    cases format with
    | destinationOnly => decide
    | singleColumn => decide
    | dualColumn => decide

end

end Renameutils
