import Mathlib.Data.List.Basic

/-!
# The words of a command line

`ArgSyntax` says what each word of a command line is: an operand, the end of the options, or a word of options, the
last of which may take the next word for its argument. `parse` reads a command line, and what it reads are events.
Operands may end the options, or be passed over, or be events themselves.

`Reads` is about words that are complete whatever comes after them; they can be put together.
-/

namespace ArgSyntax

variable {α ω : Type}

inductive Kind (α ω : Type) where
  | operand
  | terminator
  | options (events : List ω)
  | takes (events : List ω) (last : Option α → ω)

/-- What becomes of the words after an operand. -/
inductive Order where
  | stop
  | permute
  | pass
deriving DecidableEq

/-- One more event in front. -/
def Kind.cons (e : ω) : Kind α ω → Kind α ω
  | operand => operand
  | terminator => terminator
  | options events => options (e :: events)
  | takes events last => takes (e :: events) last

/-- The events, and the words that are options and operands. -/
structure Parsed (α ω : Type) where
  events : List ω := []
  options : List α := []
  operands : List α := []

def Parsed.prepend (words : List α) (events : List ω) (p : Parsed α ω) : Parsed α ω where
  events := events ++ p.events
  options := words ++ p.options
  operands := p.operands

end ArgSyntax

structure ArgSyntax (α ω : Type) where
  kind : α → ArgSyntax.Kind α ω
  order : ArgSyntax.Order
  passed : α → ω

namespace ArgSyntax

variable {α ω : Type} (S : ArgSyntax α ω)

def parse : List α → Parsed α ω
  | [] => {}
  | word :: words =>
    match S.kind word with
    | .operand =>
      match S.order with
      | .stop => { operands := word :: words }
      | .permute => ⟨(parse words).events, (parse words).options, word :: (parse words).operands⟩
      | .pass => (parse words).prepend [word] [S.passed word]
    | .terminator => { options := [word], operands := words }
    | .options events => (parse words).prepend [word] events
    | .takes events last =>
      match words with
      | [] => { events := events ++ [last none], options := [word] }
      | arg :: words => (parse words).prepend [word, arg] (events ++ [last (some arg)])

/-- Words that are read to the same events whatever comes after them. -/
def Reads (words : List α) (events : List ω) : Prop :=
  ∀ rest, S.parse (words ++ rest) = (S.parse rest).prepend words events

variable {S} {words words' rest : List α} {word arg : α} {events events' : List ω} {last : Option α → ω}

theorem Parsed.prepend_prepend (p : Parsed α ω) :
    (p.prepend words' events').prepend words events = p.prepend (words ++ words') (events ++ events') := by
  simp [Parsed.prepend]

theorem reads_nil : S.Reads [] [] := fun _ => rfl

theorem Reads.append (h : S.Reads words events) (h' : S.Reads words' events') :
    S.Reads (words ++ words') (events ++ events') := fun rest => by
  rw [List.append_assoc, h, h', Parsed.prepend_prepend]

theorem reads_options (h : S.kind word = .options events) : S.Reads [word] events := fun rest => by
  rw [List.singleton_append, parse, h]

theorem reads_takes (h : S.kind word = .takes events last) (arg : α) :
    S.Reads [word, arg] (events ++ [last (some arg)]) := fun rest => by
  show S.parse (word :: arg :: rest) = _
  rw [parse, h]

theorem reads_flatMap {β : Type} {f : β → List α} {g : β → List ω} (h : ∀ b, S.Reads (f b) (g b)) (bs : List β) :
    S.Reads (bs.flatMap f) (bs.flatMap g) := by
  induction bs with
  | nil => exact reads_nil
  | cons b bs ih => exact (h b).append ih

theorem Reads.terminated (h : S.Reads words events) (hword : S.kind word = .terminator) (rest : List α) :
    S.parse (words ++ word :: rest) = ⟨events, words ++ [word], rest⟩ := by
  rw [h, parse, hword]
  simp [Parsed.prepend]

/-! ### Where the words are -/

theorem parse_perm (S : ArgSyntax α ω) (words : List α) :
    ((S.parse words).options ++ (S.parse words).operands).Perm words := by
  fun_induction S.parse words with
  | case1 => exact .nil
  | case2 => exact .refl _
  | case3 word words _ _ ih => exact List.perm_middle.trans (ih.cons word)
  | case4 word words _ _ ih => exact ih.cons word
  | case5 => exact .refl _
  | case6 word words _ _ ih => exact ih.cons word
  | case7 => exact .refl _
  | case8 word _ _ _ arg words ih => exact (ih.cons arg).cons word

theorem parse_sublist (S : ArgSyntax α ω) (words : List α) :
    (S.parse words).options.Sublist words ∧ (S.parse words).operands.Sublist words := by
  fun_induction S.parse words with
  | case1 => exact ⟨.slnil, .slnil⟩
  | case2 => exact ⟨List.nil_sublist _, .refl _⟩
  | case3 word words _ _ ih => exact ⟨ih.1.cons word, ih.2.cons_cons word⟩
  | case4 word words _ _ ih => exact ⟨ih.1.cons_cons word, ih.2.cons word⟩
  | case5 => exact ⟨.cons_cons _ (List.nil_sublist _), List.sublist_cons_self _ _⟩
  | case6 word words _ _ ih => exact ⟨ih.1.cons_cons word, ih.2.cons word⟩
  | case7 => exact ⟨.refl _, List.nil_sublist _⟩
  | case8 word _ _ _ arg words ih => exact ⟨(ih.1.cons_cons arg).cons_cons word, (ih.2.cons arg).cons word⟩

end ArgSyntax
