import Renameutils.Getopt

/-!
# What `getopt_long` reads

`OptTable.wordKind` says what each word of a command line is for a table, and so what `ArgSyntax.parse` reads.
`Between` is about the state between two words: the words in `done` have been read and moved to the front, those in
`skipped` are operands that have been passed, and those in `since` have been read after them.
`getoptLoop_parse` puts a whole loop together: it reads what `parse` reads, and leaves the options before the operands.
-/

namespace Renameutils
open CString ArgSyntax

namespace Getopt

/-! ### Words -/

/-- An option that requires an argument, and what comes after it. -/
def OptTable.argument (t : OptTable) (c : Nat) (message : Message) : Option CString → OptEvent
  | some arg => { c := c, optarg := some arg }
  | none => t.missing message

/-- The word of a long option; `nextchar` is what comes after the dashes. -/
def OptTable.longKind (t : OptTable) (word nextchar : CString) : Kind CString OptEvent :=
  let name := nextchar.takeWhile (· ≠ equals)
  match longMatch name t.longopts none [] with
  | (found, p :: ambig) =>
    .options [t.refuse questionMark (.ambiguous word ((found.toList ++ p :: ambig).map (·.name)))]
  | (some found, []) =>
    if nextchar.contains equals then
      if found.hasArg = .no then .options [t.refuse questionMark (.allowsNoArgument found.name)]
      else .options [{ c := found.val, optarg := some (nextchar.drop (name.length + 1)) }]
    else if found.hasArg = .required then .takes [] (t.argument found.val (.requiresArgument found.name))
    else .options [{ c := found.val }]
  | (none, []) => .options [t.refuse questionMark (.unrecognized nextchar)]

/-- Short options in one word. -/
def OptTable.clusterKind (t : OptTable) : CString → Kind CString OptEvent
  | [] => .options []
  | c :: rest =>
    match t.shortHasArg c with
    | none => (t.clusterKind rest).cons (t.refuse questionMark (.invalid c))
    | some .no => (t.clusterKind rest).cons { c := c.toNat }
    | some .optional => .options [{ c := c.toNat, optarg := if rest = [] then none else some rest }]
    | some .required =>
      if rest = [] then .takes [] (t.argument c.toNat (.shortRequiresArgument c))
      else .options [{ c := c.toNat, optarg := some rest }]

def OptTable.wordKind (t : OptTable) (word : CString) : Kind CString OptEvent :=
  if word = dashes then .terminator
  else if isNonoption word then .operand
  else if word.tail.head? = some dash then t.longKind word (word.drop 2)
  else t.clusterKind word.tail

def OptTable.grammar (t : OptTable) (posixlyCorrect : Bool) : ArgSyntax CString OptEvent where
  kind := t.wordKind
  order := t.ordering posixlyCorrect
  passed arg := { c := 1, optarg := some arg }

/-! ### Calls one after the other -/

section
variable {t : OptTable} {posix : Bool} {d d' d'' : Data} {argv argv' argv'' : List CString} {e : OptEvent}
  {events events' : List OptEvent} {r : Read}

/-- The calls from one state give the events and lead to the other. -/
def Leads (t : OptTable) (posix : Bool) (d : Data) (argv : List CString) (events : List OptEvent) (d' : Data)
    (argv' : List CString) : Prop :=
  ∀ fuel, getoptEvents t posix (fuel + events.length) d argv =
    (getoptEvents t posix fuel d' argv').map fun r => { r with events := events ++ r.events }

/-- All calls from a state, up to the one that returns -1. -/
def Ends (t : OptTable) (posix : Bool) (d : Data) (argv : List CString) (r : Read) : Prop :=
  ∀ fuel, r.events.length < fuel → getoptEvents t posix fuel d argv = some r

theorem Leads.event (h : getoptLong t posix d argv = ⟨some e, d', argv'⟩) : Leads t posix d argv [e] d' argv' := by
  intro fuel
  show getoptEvents t posix (fuel + 1) d argv = _
  rw [getoptEvents, h]
  rfl

theorem Leads.trans (h : Leads t posix d argv events d' argv') (h' : Leads t posix d' argv' events' d'' argv'') :
    Leads t posix d argv (events ++ events') d'' argv'' := by
  intro fuel
  rw [List.length_append, Nat.add_comm events.length, ← Nat.add_assoc, h, h', Option.map_map]
  refine congrArg (fun f => Option.map f _) (funext fun r => ?_)
  simp

theorem Leads.ends (h : Leads t posix d argv events d' argv') (h' : Ends t posix d' argv' r) :
    Ends t posix d argv { r with events := events ++ r.events } := by
  intro fuel hfuel
  rw [List.length_append] at hfuel
  obtain ⟨fuel, rfl⟩ : ∃ n, fuel = n + events.length := ⟨fuel - events.length, by omega⟩
  rw [h, h' fuel (by omega)]
  rfl

theorem Ends.last (h : getoptLong t posix d argv = ⟨none, d', argv'⟩) : Ends t posix d argv ⟨[], d', argv'⟩ := by
  intro fuel hfuel
  obtain ⟨fuel, rfl⟩ := Nat.exists_eq_succ_of_ne_zero (Nat.ne_of_gt hfuel)
  rw [getoptEvents, h]

theorem Leads.of_eq (h : getoptLong t posix d argv = getoptLong t posix d' argv')
    (h' : Leads t posix d' argv' events d'' argv'') : Leads t posix d argv events d'' argv'' := by
  intro fuel
  rw [← h']
  cases hn : fuel + events.length with
  | zero => rfl
  | succ n => rw [getoptEvents, getoptEvents, h]

theorem Ends.of_eq (h : getoptLong t posix d argv = getoptLong t posix d' argv') (h' : Ends t posix d' argv' r) :
    Ends t posix d argv r := by
  intro fuel hfuel
  rw [← h' fuel hfuel]
  cases fuel with
  | zero => rfl
  | succ n => rw [getoptEvents, getoptEvents, h]

end

/-! ### Between two words -/

structure Between (t : OptTable) (posix : Bool) (d : Data) (argv done skipped since rest : List CString) : Prop where
  argv_eq : argv = done ++ skipped ++ since ++ rest
  optind : d.optind = done.length + skipped.length + since.length
  first : d.firstNonopt = done.length
  last : d.lastNonopt = done.length + skipped.length
  started : d.initialized = true
  ordering : d.ordering = t.ordering posix
  done_ne : done ≠ []
  skipped_nil : t.ordering posix ≠ .permute → skipped = []

section
variable {t : OptTable} {posix : Bool} {d : Data} {argv done skipped since rest : List CString} {word : CString}

namespace Between

theorem drop_optind (b : Between t posix d argv done skipped since rest) : argv.drop d.optind = rest := by
  rw [b.argv_eq, b.optind, ← List.length_append, ← List.length_append, List.drop_left]

theorem getElem?_optind (b : Between t posix d argv done skipped since rest) : argv[d.optind]? = rest.head? := by
  rw [← b.drop_optind, List.head?_drop]

theorem drop_moved (b : Between t posix d argv done skipped since rest) :
    (done ++ since ++ skipped ++ rest).drop d.optind = rest := by
  have hlength : d.optind = (done ++ since ++ skipped).length := by
    rw [b.optind, List.length_append, List.length_append]
    omega
  rw [hlength, List.drop_left]

theorem exchange_eq (b : Between t posix d argv done skipped since rest) :
    Getopt.exchange argv d =
      ({ d with firstNonopt := (done ++ since).length, lastNonopt := d.optind }, done ++ since ++ skipped ++ rest) := by
  have hexchange := Exchange.exchange_eq done skipped since rest
  have hfirst : d.firstNonopt + (d.optind - d.lastNonopt) = (done ++ since).length := by
    rw [b.first, b.last, b.optind, List.length_append]
    omega
  rw [Getopt.exchange, hfirst, b.argv_eq, b.first, b.last, b.optind, hexchange]

/-- The words that have been read go before the operands. -/
theorem moveOptions_eq (b : Between t posix d argv done skipped since rest) : ∃ last,
    moveOptions d argv =
      ({ d with firstNonopt := (done ++ since).length, lastNonopt := last }, done ++ since ++ skipped ++ rest) := by
  unfold moveOptions
  split
  · exact ⟨_, b.exchange_eq⟩
  · rename_i hnot
    have hempty : skipped = [] ∨ since = [] := by
      by_contra! hne
      have hskipped := List.length_pos_iff.mpr hne.1
      have hsince := List.length_pos_iff.mpr hne.2
      rw [b.first, b.last, b.optind] at hnot
      omega
    have hargv : argv = done ++ since ++ skipped ++ rest := by
      rw [b.argv_eq]
      rcases hempty with rfl | rfl <;> simp
    split
    · rename_i hlast
      have hskipped : skipped = [] := by
        refine hempty.resolve_right ?_
        rintro rfl
        rw [b.last, b.optind] at hlast
        simp at hlast
      refine ⟨d.lastNonopt, ?_⟩
      rw [← hargv, b.optind, hskipped, List.length_append]
      rfl
    · rename_i hlast
      have hsince : since = [] := by
        refine List.length_eq_zero_iff.mp ?_
        rw [b.last, b.optind] at hlast
        omega
      refine ⟨d.lastNonopt, ?_⟩
      rw [← hargv, hsince, List.append_nil, ← b.first]

theorem getoptLong_eq (b : Between t posix d argv done skipped since rest) (hnext : d.nextchar.getD [] = []) :
    getoptLong t posix d argv = nextElement t d argv := by
  have hargv : argv ≠ [] := by
    rw [b.argv_eq]
    simp [b.done_ne]
  have hoptind : d.optind ≠ 0 := by
    have := List.length_pos_iff.mpr b.done_ne
    rw [b.optind]
    omega
  unfold getoptLong
  rw [if_neg hargv]
  simp only [hoptind, b.started, hnext, reduceCtorEq, or_self, if_false, if_true]

theorem nextElement_eq (b : Between t posix d argv done skipped since rest) (h : t.ordering posix ≠ .permute) :
    nextElement t d argv = readElement t d argv := by
  have hlast : min d.lastNonopt d.optind = d.lastNonopt := by rw [b.last, b.optind]; omega
  have hfirst : min d.firstNonopt d.optind = d.firstNonopt := by rw [b.first, b.optind]; omega
  unfold nextElement
  simp only [hlast, hfirst]
  rw [if_neg (by rw [b.ordering]; exact h)]

theorem nextElement_permute (b : Between t posix d argv done skipped since rest) (h : t.ordering posix = .permute) :
    nextElement t d argv =
      readElement t
        { d with
          firstNonopt := (done ++ since).length
          lastNonopt := (done ++ since ++ skipped ++ rest.takeWhile isNonoption).length
          optind := (done ++ since ++ skipped ++ rest.takeWhile isNonoption).length }
        (done ++ since ++ skipped ++ rest) := by
  have hlast : min d.lastNonopt d.optind = d.lastNonopt := by rw [b.last, b.optind]; omega
  have hfirst : min d.firstNonopt d.optind = d.firstNonopt := by rw [b.first, b.optind]; omega
  have hoptind : d.optind + (rest.takeWhile isNonoption).length =
      (done ++ since ++ skipped ++ rest.takeWhile isNonoption).length := by
    simp only [b.optind, List.length_append]
    omega
  obtain ⟨last, hmoved⟩ := b.moveOptions_eq
  unfold nextElement
  simp only [hlast, hfirst]
  rw [if_pos (b.ordering.trans h)]
  simp only [hmoved, skipNonoptions, b.drop_moved, hoptind]

theorem pass (b : Between t posix d argv done skipped since (word :: rest)) (h : t.ordering posix = .permute)
    (hword : isNonoption word = true) (hnext : d.nextchar.getD [] = []) :
    ∃ d' argv', Between t posix d' argv' (done ++ since) (skipped ++ [word]) [] rest ∧ d'.nextchar.getD [] = [] ∧
      getoptLong t posix d argv = getoptLong t posix d' argv' := by
  let passed : Data :=
    { d with
      firstNonopt := (done ++ since).length
      lastNonopt := (done ++ since ++ skipped).length + 1
      optind := (done ++ since ++ skipped).length + 1 }
  have hb : Between t posix passed (done ++ since ++ skipped ++ word :: rest) (done ++ since) (skipped ++ [word]) []
      rest := by
    refine ⟨?_, ?_, rfl, ?_, b.started, b.ordering, ?_, fun hno => absurd h hno⟩
    · simp
    · simp [passed]
      omega
    · simp [passed]
      omega
    · simp [b.done_ne]
  refine ⟨passed, _, hb, hnext, ?_⟩
  rw [b.getoptLong_eq hnext, hb.getoptLong_eq hnext, b.nextElement_permute h, hb.nextElement_permute h]
  simp [hword, passed]

theorem advance (words : List CString) (b : Between t posix d argv done skipped since (words ++ rest))
    (nextchar : Option CString) :
    Between t posix { d with nextchar := nextchar, optind := d.optind + words.length } argv done skipped
      (since ++ words) rest where
  argv_eq := by rw [b.argv_eq]; simp
  optind := by simp [b.optind]; omega
  first := b.first
  last := b.last
  started := b.started
  ordering := b.ordering
  done_ne := b.done_ne
  skipped_nil := b.skipped_nil

theorem inside (b : Between t posix d argv done skipped since rest) (nextchar : Option CString) :
    Between t posix { d with nextchar := nextchar } argv done skipped since rest :=
  ⟨b.argv_eq, b.optind, b.first, b.last, b.started, b.ordering, b.done_ne, b.skipped_nil⟩

theorem getoptLong_decode (b : Between t posix d argv done skipped since rest) (hnext : d.nextchar.getD [] ≠ []) :
    getoptLong t posix d argv = decode t d argv := by
  have hargv : argv ≠ [] := by
    rw [b.argv_eq]
    simp [b.done_ne]
  have hoptind : d.optind ≠ 0 := by
    have := List.length_pos_iff.mpr b.done_ne
    rw [b.optind]
    omega
  unfold getoptLong
  rw [if_neg hargv]
  simp only [hoptind, b.started, hnext, reduceCtorEq, or_self, if_false]

theorem word_optind (b : Between t posix d argv done skipped since (word :: rest)) : argv.getD d.optind [] = word := by
  rw [List.getD_eq_getElem?_getD, b.getElem?_optind]
  rfl

theorem next_optind (b : Between t posix d argv done skipped since (word :: rest)) :
    argv[d.optind + 1]? = rest.head? := by
  rw [← List.getElem?_drop, b.drop_optind]
  cases rest <;> rfl

end Between

/-- The calls read a word, and with it the next one where it takes an argument. -/
def Consumes (t : OptTable) (posix : Bool) (d : Data) (argv done skipped since : List CString) (word : CString)
    (rest : List CString) : Kind CString OptEvent → Prop
  | .options events =>
    ∃ d', Leads t posix d argv events d' argv ∧ Between t posix d' argv done skipped (since ++ [word]) rest ∧
      d'.nextchar.getD [] = []
  | .takes events last =>
    match rest with
    | [] =>
      ∃ d', Leads t posix d argv (events ++ [last none]) d' argv ∧
        Between t posix d' argv done skipped (since ++ [word]) [] ∧ d'.nextchar.getD [] = []
    | arg :: rest =>
      ∃ d', Leads t posix d argv (events ++ [last (some arg)]) d' argv ∧
        Between t posix d' argv done skipped (since ++ [word, arg]) rest ∧ d'.nextchar.getD [] = []
  | _ => False

theorem Consumes.cons {d' : Data} {e : OptEvent} {kind : Kind CString OptEvent} (h : Leads t posix d argv [e] d' argv)
    (hc : Consumes t posix d' argv done skipped since word rest kind) :
    Consumes t posix d argv done skipped since word rest (kind.cons e) := by
  cases kind with
  | operand => exact hc
  | terminator => exact hc
  | options events =>
    obtain ⟨d'', hleads, hb⟩ := hc
    exact ⟨d'', h.trans hleads, hb⟩
  | takes events last =>
    cases rest with
    | nil =>
      obtain ⟨d'', hleads, hb⟩ := hc
      exact ⟨d'', h.trans hleads, hb⟩
    | cons arg rest =>
      obtain ⟨d'', hleads, hb⟩ := hc
      exact ⟨d'', h.trans hleads, hb⟩

theorem consumes_options {e : OptEvent} {nextchar : Option CString}
    (b : Between t posix d argv done skipped since (word :: rest)) (hnext : nextchar.getD [] = [])
    (h : getoptLong t posix d argv = ⟨some e, { d with nextchar := nextchar, optind := d.optind + 1 }, argv⟩) :
    Consumes t posix d argv done skipped since word rest (.options [e]) :=
  ⟨_, .event h, Between.advance [word] b nextchar, hnext⟩

theorem consumes_argument {last : Option CString → OptEvent} {nextchar : Option CString}
    (b : Between t posix d argv done skipped since (word :: rest)) (hnext : nextchar.getD [] = [])
    (h : getoptLong t posix d argv =
      match rest.head? with
      | some arg => ⟨some (last (some arg)), { d with nextchar := nextchar, optind := d.optind + 1 + 1 }, argv⟩
      | none => ⟨some (last none), { d with nextchar := nextchar, optind := d.optind + 1 }, argv⟩) :
    Consumes t posix d argv done skipped since word rest (.takes [] last) := by
  cases rest with
  | nil => exact ⟨_, .event h, Between.advance [word] b nextchar, hnext⟩
  | cons arg rest => exact ⟨_, .event h, Between.advance [word, arg] b nextchar, hnext⟩

theorem consumes_long (b : Between t posix d argv done skipped since (word :: rest)) {nextchar : CString}
    (hnext : d.nextchar = some nextchar) (hne : nextchar ≠ []) (hdash : word.tail.head? = some dash) :
    Consumes t posix d argv done skipped since word rest (t.longKind word nextchar) := by
  have hcall : getoptLong t posix d argv = decodeLong t d argv nextchar := by
    rw [b.getoptLong_decode (by rw [hnext]; exact hne), decode, b.word_optind, if_pos hdash, hnext]
    rfl
  have hnil : (some ([] : CString)).getD [] = [] := rfl
  unfold decodeLong at hcall
  simp only [b.word_optind, b.next_optind] at hcall
  unfold OptTable.longKind
  dsimp only
  generalize longMatch (nextchar.takeWhile (· ≠ equals)) t.longopts none [] = found at hcall ⊢
  split
  · exact consumes_options b hnil hcall
  · dsimp only at hcall
    split
    · rename_i hequals
      rw [if_pos hequals] at hcall
      split
      · rename_i hno
        rw [if_pos hno] at hcall
        exact consumes_options b hnil hcall
      · rename_i hno
        rw [if_neg hno] at hcall
        exact consumes_options b hnil hcall
    · rename_i hequals
      rw [if_neg hequals] at hcall
      split
      · rename_i hrequired
        rw [if_pos hrequired] at hcall
        refine consumes_argument b hnil (hcall.trans ?_)
        cases rest <;> rfl
      · rename_i hrequired
        rw [if_neg hrequired] at hcall
        exact consumes_options b hnil hcall
  · exact consumes_options b hnil hcall

theorem consumes_cluster (cluster : CString) {d : Data}
    (b : Between t posix d argv done skipped since (word :: rest)) (hnext : d.nextchar = some cluster)
    (hne : cluster ≠ []) (hdash : word.tail.head? ≠ some dash) :
    Consumes t posix d argv done skipped since word rest (t.clusterKind cluster) := by
  induction cluster generalizing d with
  | nil => exact absurd rfl hne
  | cons c cluster ih =>
    have hcall : getoptLong t posix d argv = decodeShort t d argv c cluster := by
      rw [b.getoptLong_decode (by simp [hnext]), decode, b.word_optind, if_neg hdash, hnext]
      rfl
    have hnil : (none : Option CString).getD [] = [] := rfl
    -- an option without argument, or a bad one: the cluster goes on
    have hmore : ∀ e : OptEvent, getoptLong t posix d argv = ⟨some e,
        { d with nextchar := some cluster, optind := if cluster = [] then d.optind + 1 else d.optind }, argv⟩ →
        Consumes t posix d argv done skipped since word rest ((t.clusterKind cluster).cons e) := fun e he => by
      by_cases hlast : cluster = []
      · rw [if_pos hlast] at he
        subst hlast
        exact consumes_options b rfl he
      · rw [if_neg hlast] at he
        exact (ih (b.inside (some cluster)) rfl hlast).cons (.event he)
    unfold decodeShort at hcall
    rw [OptTable.clusterKind]
    cases hc : t.shortHasArg c with
    | none =>
      rw [hc] at hcall
      exact hmore _ hcall
    | some hasArg =>
      rw [hc] at hcall
      cases hasArg with
      | no => exact hmore _ hcall
      | optional =>
        dsimp only at hcall ⊢
        by_cases hlast : cluster = []
        · subst hlast
          exact consumes_options b hnil hcall
        · rw [if_neg hlast, if_neg hlast] at hcall
          rw [if_neg hlast]
          exact consumes_options b hnil hcall
      | required =>
        dsimp only at hcall ⊢
        by_cases hlast : cluster = []
        · subst hlast
          rw [if_pos rfl, if_pos rfl, b.next_optind] at hcall
          refine consumes_argument b hnil (hcall.trans ?_)
          cases rest <;> rfl
        · rw [if_neg hlast, if_neg hlast] at hcall
          rw [if_neg hlast]
          exact consumes_options b hnil hcall

/-! ### The calls between two words -/

/-- The words that have been read are at the front, or operands are not passed. -/
theorem Between.settle (b : Between t posix d argv done skipped since rest) (hnext : d.nextchar.getD [] = [])
    (hstop : t.ordering posix = .permute → rest.takeWhile isNonoption = []) :
    ∃ d' argv' done' since', done' ++ since' = done ++ since ∧ Between t posix d' argv' done' skipped since' rest ∧
      (since' = [] ∨ skipped = []) ∧ getoptLong t posix d argv = readElement t d' argv' := by
  by_cases h : t.ordering posix = .permute
  · have hcall := (b.getoptLong_eq hnext).trans (b.nextElement_permute h)
    refine ⟨_, _, done ++ since, [], List.append_nil _, ⟨?_, ?_, ?_, ?_, ?_, ?_, ?_, fun hno => absurd h hno⟩, .inl rfl,
      hcall⟩
    · simp
    · simp [hstop h]
      omega
    · rfl
    · simp [hstop h]
      omega
    · exact b.started
    · exact b.ordering
    · simp [b.done_ne]
  · exact ⟨d, argv, done, since, rfl, b, .inr (b.skipped_nil h), (b.getoptLong_eq hnext).trans (b.nextElement_eq h)⟩

theorem Between.argv_moved (b : Between t posix d argv done skipped since rest) (h : since = [] ∨ skipped = []) :
    argv = done ++ since ++ skipped ++ rest := by
  rw [b.argv_eq]
  rcases h with rfl | rfl <;> simp

theorem Between.ends_nil (b : Between t posix d argv done skipped since []) (hnext : d.nextchar.getD [] = []) :
    ∃ d', Ends t posix d argv ⟨[], d', done ++ since ++ skipped⟩ ∧ d'.optind = (done ++ since).length := by
  obtain ⟨d', argv', done', since', hwords, b', hmoved, hcall⟩ := b.settle hnext fun _ => rfl
  have hargv := b'.argv_moved hmoved
  rw [List.append_nil, hwords] at hargv
  have hnone : argv'[d'.optind]? = none := b'.getElem?_optind
  unfold readElement readWord at hcall
  rw [if_neg (by rw [hnone]; nofun)] at hcall
  simp only [hnone] at hcall
  rw [hargv] at hcall
  refine ⟨_, Ends.last hcall, ?_⟩
  rw [← hwords, List.length_append]
  have hfirst := b'.first
  have hlast := b'.last
  have hoptind := b'.optind
  rcases hmoved with rfl | rfl
  · split
    · simpa using hfirst
    · simp only [List.length_nil] at hoptind ⊢
      omega
  · rw [if_neg (by simp only [List.length_nil] at hlast; omega)]
    simpa using hoptind

theorem Between.ends_dashes (b : Between t posix d argv done skipped since (dashes :: rest))
    (hnext : d.nextchar.getD [] = []) :
    ∃ d', Ends t posix d argv ⟨[], d', done ++ since ++ [dashes] ++ skipped ++ rest⟩ ∧
      d'.optind = (done ++ since ++ [dashes]).length := by
  obtain ⟨d', argv', done', since', hwords, b', -, hcall⟩ := b.settle hnext fun _ => by
    rw [List.takeWhile_cons_of_neg (by decide)]
  have hread : Between t posix { d' with optind := d'.optind + 1 } argv' done' skipped (since' ++ [dashes]) rest :=
    Between.advance [dashes] b' d'.nextchar
  have hdashes : argv'[d'.optind]? = some dashes := b'.getElem?_optind
  have hlength : argv'.length = (done' ++ (since' ++ [dashes]) ++ skipped ++ rest).length := by
    rw [hread.argv_eq]
    simp only [List.length_append]
    omega
  -- either branch of `endOptions` that can be taken
  have hended : ∃ last optind, last = argv'.length ∧ optind = argv'.length ∧ endOptions d' argv' =
      ({ d' with firstNonopt := (done' ++ (since' ++ [dashes])).length, lastNonopt := last, optind := optind },
        done' ++ (since' ++ [dashes]) ++ skipped ++ rest) := by
    refine ⟨_, _, rfl, rfl, ?_⟩
    unfold endOptions
    by_cases hskipped : skipped = []
    · have hfirst : d'.firstNonopt = d'.lastNonopt := by rw [b'.first, b'.last, hskipped]; rfl
      have hoptind : d'.optind + 1 = (done' ++ (since' ++ [dashes])).length := by
        have := b'.optind
        simp only [hskipped, List.length_append, List.length_cons, List.length_nil] at this ⊢
        omega
      simp only [hfirst, ne_eq, not_true_eq_false, false_and, if_false, if_true, hoptind]
      rw [hread.argv_moved (.inr hskipped)]
    · have hfirst : d'.firstNonopt ≠ d'.lastNonopt := by
        have := List.length_pos_iff.mpr hskipped
        rw [b'.first, b'.last]
        omega
      have hlast : d'.lastNonopt ≠ d'.optind + 1 := by rw [b'.last, b'.optind]; omega
      simp only [hfirst, hlast, ne_eq, not_false_eq_true, and_self, if_true, hread.exchange_eq]
  obtain ⟨last, optind, rfl, rfl, hended⟩ := hended
  have hnone : (done' ++ (since' ++ [dashes]) ++ skipped ++ rest)[argv'.length]? = none := by
    rw [hlength]
    exact List.getElem?_eq_none (Nat.le_refl _)
  have hdone : done' ++ (since' ++ [dashes]) = done ++ since ++ [dashes] := by rw [← List.append_assoc, hwords]
  rw [readElement, if_pos hdashes, hended] at hcall
  simp only [readWord, hnone] at hcall
  rw [hdone] at hcall hlength
  refine ⟨_, .last hcall, ?_⟩
  split
  · rfl
  · rename_i heq
    exact (not_not.mp heq).symm

theorem Between.ends_operand (b : Between t posix d argv done skipped since (word :: rest))
    (hnext : d.nextchar.getD [] = []) (h : t.ordering posix = .stop) (hword : isNonoption word = true)
    (hdashes : word ≠ dashes) :
    ∃ d', Ends t posix d argv ⟨[], d', done ++ since ++ skipped ++ word :: rest⟩ ∧
      d'.optind = (done ++ since).length := by
  have hskipped := b.skipped_nil (by rw [h]; nofun)
  have hsome : argv[d.optind]? = some word := b.getElem?_optind
  have hcall := (b.getoptLong_eq hnext).trans (b.nextElement_eq (by rw [h]; nofun))
  unfold readElement readWord at hcall
  rw [if_neg (by simp [hsome, hdashes])] at hcall
  simp only [hsome, hword, if_true, b.ordering, h] at hcall
  have hargv := b.argv_moved (.inr hskipped)
  refine ⟨d, Ends.last (hcall.trans (by rw [← hargv])), ?_⟩
  rw [b.optind, hskipped, List.length_append]
  rfl

theorem Between.leads_operand (b : Between t posix d argv done skipped since (word :: rest))
    (hnext : d.nextchar.getD [] = []) (h : t.ordering posix = .pass) (hword : isNonoption word = true)
    (hdashes : word ≠ dashes) :
    ∃ d', Leads t posix d argv [{ c := 1, optarg := some word }] d' argv ∧
      Between t posix d' argv done skipped (since ++ [word]) rest ∧ d'.nextchar.getD [] = [] := by
  have hsome : argv[d.optind]? = some word := b.getElem?_optind
  have hcall := (b.getoptLong_eq hnext).trans (b.nextElement_eq (by rw [h]; nofun))
  unfold readElement readWord at hcall
  rw [if_neg (by simp [hsome, hdashes])] at hcall
  simp only [hsome, hword, if_true] at hcall
  rw [if_neg (by rw [b.ordering, h]; nofun)] at hcall
  exact ⟨_, .event hcall, Between.advance [word] b d.nextchar, hnext⟩

theorem Between.consumes (b : Between t posix d argv done skipped since (word :: rest))
    (hnext : d.nextchar.getD [] = []) (hword : isNonoption word = false) (hdashes : word ≠ dashes) :
    ∃ d' argv' done' since', done' ++ since' = done ++ since ∧ getoptLong t posix d argv = getoptLong t posix d' argv' ∧
      Consumes t posix d' argv' done' skipped since' word rest (t.wordKind word) := by
  obtain ⟨d', argv', done', since', hwords, b', -, hcall⟩ := b.settle hnext fun _ => by
    rw [List.takeWhile_cons_of_neg (by simp [hword])]
  have hsome : argv'[d'.optind]? = some word := b'.getElem?_optind
  obtain ⟨hhead, htail⟩ : word.head? = some dash ∧ word.tail ≠ [] := by
    simpa [isNonoption] using hword
  obtain ⟨nextchar, hnextchar⟩ : ∃ nextchar, nextchar = word.drop (if word.tail.head? = some dash then 2 else 1) :=
    ⟨_, rfl⟩
  have hinside := b'.inside (some nextchar)
  have hne : nextchar ≠ [] := by
    intro hnil
    rw [hnextchar] at hnil
    split at hnil
    · rename_i hdash
      cases word with
      | nil => cases hhead
      | cons c word =>
        cases word with
        | nil => cases hdash
        | cons c' word =>
          rw [List.drop_succ_cons, List.drop_one, List.tail_cons] at hnil
          cases hhead
          cases hdash
          exact hdashes (congrArg (fun w => dash :: dash :: w) hnil)
    · exact htail (by rwa [List.drop_one] at hnil)
  have hdecode : readElement t d' argv' = decode t { d' with nextchar := some nextchar } argv' := by
    unfold readElement readWord
    rw [if_neg (by simp [hsome, hdashes])]
    simp only [hsome, hword, hnextchar]
    rfl
  refine ⟨{ d' with nextchar := some nextchar }, argv', done', since', hwords, ?_, ?_⟩
  · rw [hcall, hdecode, hinside.getoptLong_decode hne]
  · rw [OptTable.wordKind, if_neg hdashes, if_neg (by simp [hword])]
    split
    · rename_i hdash
      rw [if_pos hdash] at hnextchar
      rw [← hnextchar]
      exact consumes_long hinside rfl hne hdash
    · rename_i hdash
      rw [if_neg hdash, List.drop_one] at hnextchar
      rw [← hnextchar]
      exact consumes_cluster _ hinside rfl hne hdash

/-! ### A run -/

/-- The rest of a run, from between two words. -/
theorem Between.ends (rest : List CString) {d : Data} {argv done skipped since : List CString}
    (b : Between t posix d argv done skipped since rest) (hnext : d.nextchar.getD [] = []) :
    let p := (t.grammar posix).parse rest
    ∃ d', Ends t posix d argv ⟨p.events, d', done ++ since ++ p.options ++ skipped ++ p.operands⟩ ∧
      d'.optind = (done ++ since ++ p.options).length := by
  induction hn : rest.length using Nat.strong_induction_on generalizing rest d argv done skipped since with
  | _ n ih =>
    intro p
    cases rest with
    | nil =>
      obtain ⟨d', hends, hoptind⟩ := b.ends_nil hnext
      exact ⟨d', by simpa [p, parse] using hends, by simpa [p, parse] using hoptind⟩
    | cons word rest =>
      rw [List.length_cons] at hn
      by_cases hdashes : word = dashes
      · subst hdashes
        obtain ⟨d', hends, hoptind⟩ := b.ends_dashes hnext
        exact ⟨d', hends, hoptind⟩
      cases hword : isNonoption word with
      | true =>
        have hkind : (t.grammar posix).kind word = .operand := by
          show t.wordKind word = _
          rw [OptTable.wordKind, if_neg hdashes, if_pos hword]
        cases horder : t.ordering posix with
        | stop =>
          have hp : p = { operands := word :: rest } := by
            show parse _ _ = _
            rw [parse, hkind]
            simp only [OptTable.grammar, horder]
          obtain ⟨d', hends, hoptind⟩ := b.ends_operand hnext horder hword hdashes
          rw [hp]
          exact ⟨d', by simpa using hends, by simpa using hoptind⟩
        | permute =>
          have hp : p = ⟨((t.grammar posix).parse rest).events, ((t.grammar posix).parse rest).options,
              word :: ((t.grammar posix).parse rest).operands⟩ := by
            show parse _ _ = _
            rw [parse, hkind]
            simp only [OptTable.grammar, horder]
          obtain ⟨d₁, argv₁, b₁, hnext₁, hcall⟩ := b.pass horder hword hnext
          obtain ⟨d', hends, hoptind⟩ := ih rest.length (by omega) rest b₁ hnext₁ rfl
          rw [hp]
          exact ⟨d', .of_eq hcall (by simpa using hends), by simpa using hoptind⟩
        | pass =>
          have hp : p = ((t.grammar posix).parse rest).prepend [word] [{ c := 1, optarg := some word }] := by
            show parse _ _ = _
            rw [parse, hkind]
            simp only [OptTable.grammar, horder]
          obtain ⟨d₁, hleads, b₁, hnext₁⟩ := b.leads_operand hnext horder hword hdashes
          obtain ⟨d', hends, hoptind⟩ := ih rest.length (by omega) rest b₁ hnext₁ rfl
          rw [hp]
          exact ⟨d', by simpa [Parsed.prepend] using hleads.ends hends, by simpa [Parsed.prepend] using hoptind⟩
      | false =>
        obtain ⟨d₁, argv₁, done₁, since₁, hwords, hcall, hc⟩ := b.consumes hnext hword hdashes
        rw [← hwords]
        cases hkind : t.wordKind word with
        | operand =>
          rw [hkind] at hc
          exact hc.elim
        | terminator =>
          rw [hkind] at hc
          exact hc.elim
        | options events =>
          have hp : p = ((t.grammar posix).parse rest).prepend [word] events := by
            show parse _ _ = _
            rw [parse]
            simp only [OptTable.grammar, hkind]
          rw [hkind] at hc
          obtain ⟨d₂, hleads, b₂, hnext₂⟩ := hc
          obtain ⟨d', hends, hoptind⟩ := ih rest.length (by omega) rest b₂ hnext₂ rfl
          rw [hp]
          exact ⟨d', .of_eq hcall (by simpa [Parsed.prepend] using hleads.ends hends),
            by simpa [Parsed.prepend] using hoptind⟩
        | takes events last =>
          rw [hkind] at hc
          cases rest with
          | nil =>
            have hp : p = { events := events ++ [last none], options := [word] } := by
              show parse _ _ = _
              rw [parse]
              simp only [OptTable.grammar, hkind]
            obtain ⟨d₂, hleads, b₂, hnext₂⟩ := hc
            obtain ⟨d', hends, hoptind⟩ := b₂.ends_nil hnext₂
            rw [hp]
            exact ⟨d', .of_eq hcall (by simpa using hleads.ends hends), by simpa using hoptind⟩
          | cons arg rest =>
            have hp : p = ((t.grammar posix).parse rest).prepend [word, arg] (events ++ [last (some arg)]) := by
              show parse _ _ = _
              rw [parse]
              simp only [OptTable.grammar, hkind]
            obtain ⟨d₂, hleads, b₂, hnext₂⟩ := hc
            obtain ⟨d', hends, hoptind⟩ := ih rest.length (by simp at hn; omega) rest b₂ hnext₂ rfl
            rw [hp]
            exact ⟨d', .of_eq hcall (by simpa [Parsed.prepend] using hleads.ends hends),
              by simpa [Parsed.prepend] using hoptind⟩

theorem between_start (t : OptTable) (posix : Bool) (hd : d.optind = 0 ∨ d.optind = 1 ∧ d.initialized = false)
    (prog : CString) (args : List CString) :
    ∃ d', Between t posix d' (prog :: args) [prog] [] [] args ∧ d'.nextchar.getD [] = [] ∧
      getoptLong t posix d (prog :: args) = getoptLong t posix d' (prog :: args) := by
  have hoptind : (if d.optind = 0 then 1 else d.optind) = 1 := by
    rcases hd with h | ⟨h, _⟩ <;> simp [h]
  have hb : Between t posix (getoptInitialize t posix d) (prog :: args) [prog] [] [] args :=
    ⟨rfl, hoptind, hoptind, hoptind, rfl, rfl, by simp, fun _ => rfl⟩
  refine ⟨_, hb, rfl, ?_⟩
  rw [hb.getoptLong_eq rfl, getoptLong, if_neg (by simp)]
  simp only [if_pos (hd.imp_right And.right)]
  rfl

theorem ends_parse (t : OptTable) (posix : Bool) (hd : d.optind = 0 ∨ d.optind = 1 ∧ d.initialized = false)
    (prog : CString) (args : List CString) :
    let p := (t.grammar posix).parse args
    ∃ d', Ends t posix d (prog :: args) ⟨p.events, d', prog :: (p.options ++ p.operands)⟩ ∧
      d'.optind = 1 + p.options.length := by
  obtain ⟨d₁, hb, hnext, hcall⟩ := between_start t posix hd prog args
  obtain ⟨d', hends, hoptind⟩ := hb.ends args hnext
  refine ⟨d', .of_eq hcall (by simpa using hends), ?_⟩
  rw [hoptind]
  simp
  omega

theorem getoptLoop_eq {ρ σ : Type} (body : σ → OptEvent → Except ρ σ) {fuel : Nat} {r : Read}
    (h : getoptEvents t posix fuel d argv = some r) (s : σ) :
    ∃ d' argv', getoptLoop t posix body fuel d argv s = some ⟨r.events.foldlM body s, d', argv'⟩ ∧
      ∀ s', r.events.foldlM body s = .ok s' → d' = r.data ∧ argv' = r.argv := by
  induction fuel generalizing d argv r s with
  | zero => cases h
  | succ fuel ih =>
    rw [getoptEvents] at h
    rw [getoptLoop]
    cases hevent : (getoptLong t posix d argv).event with
    | none =>
      rw [hevent] at h
      cases h
      exact ⟨_, _, rfl, fun _ _ => ⟨rfl, rfl⟩⟩
    | some e =>
      rw [hevent] at h
      obtain ⟨r, hr, rfl⟩ := Option.map_eq_some_iff.mp h
      rw [List.foldlM_cons]
      dsimp only
      cases hbody : body s e with
      | error x => exact ⟨_, _, rfl, nofun⟩
      | ok s => exact ih hr s
end

/-- The loop takes the options, and if it is not left, `optind` is where the operands start. -/
theorem getoptLoop_ends {ρ σ : Type} (t : OptTable) (posixlyCorrect : Bool) (body : σ → OptEvent → Except ρ σ)
    {d : Data} (hd : d.optind = 0 ∨ d.optind = 1 ∧ d.initialized = false) (prog : CString) (args : List CString) (s : σ)
    {fuel : Nat} (hfuel : ((t.grammar posixlyCorrect).parse args).events.length < fuel) :
    let p := (t.grammar posixlyCorrect).parse args
    ∃ d' argv', getoptLoop t posixlyCorrect body fuel d (prog :: args) s = some ⟨p.events.foldlM body s, d', argv'⟩ ∧
      ∀ s', p.events.foldlM body s = .ok s' →
        argv' = prog :: (p.options ++ p.operands) ∧ d'.optind = 1 + p.options.length := by
  obtain ⟨d₁, hends, hoptind⟩ := ends_parse t posixlyCorrect hd prog args
  obtain ⟨d', argv', hloop, hok⟩ := getoptLoop_eq body (hends fuel hfuel) s
  refine ⟨d', argv', hloop, fun s' hs' => ?_⟩
  obtain ⟨rfl, rfl⟩ := hok s' hs'
  exact ⟨rfl, hoptind⟩

/-- A loop over the words of a command line, whatever earlier calls have left. It takes the options in the order in
which `parse` reads them; when it has taken them all, they are at the front of `argv`, and `optind` is where the operands
start. No word is lost, and options and operands each keep their order. -/
theorem getoptLoop_parse {ρ σ : Type} (t : OptTable) (posixlyCorrect : Bool) (body : σ → OptEvent → Except ρ σ)
    {d : Data} (hd : d.optind = 0 ∨ d.optind = 1 ∧ d.initialized = false) (prog : CString) (args : List CString) (s : σ)
    {fuel : Nat} (hfuel : ((t.grammar posixlyCorrect).parse args).events.length < fuel) :
    let p := (t.grammar posixlyCorrect).parse args
    ∃ d' argv', getoptLoop t posixlyCorrect body fuel d (prog :: args) s = some ⟨p.events.foldlM body s, d', argv'⟩ ∧
      ∀ s', p.events.foldlM body s = .ok s' →
        argv' = prog :: (p.options ++ p.operands) ∧ d'.optind = 1 + p.options.length ∧
          (p.options ++ p.operands).Perm args ∧ p.options.Sublist args ∧ p.operands.Sublist args := by
  obtain ⟨d', argv', hloop, hend⟩ := getoptLoop_ends t posixlyCorrect body hd prog args s hfuel
  refine ⟨d', argv', hloop, fun s' hs' => ?_⟩
  obtain ⟨hargv, hoptind⟩ := hend s' hs'
  exact ⟨hargv, hoptind, parse_perm _ _, parse_sublist _ _⟩

/-- `x -b y`, where `-b` has an argument. -/
theorem getoptLoop_parse_attached :
    let t : OptTable := { optstring := [98, colon], longopts := [] }
    let add : List OptEvent → OptEvent → Except Unit (List OptEvent) := fun events e => .ok (e :: events)
    ∃ d' argv', getoptLoop t false add 2 { optind := 0 } [[112], [120], [dash, 98], [121]] [] =
        some ⟨.ok [{ c := 98, optarg := some [121] }], d', argv'⟩ ∧
      argv' = [[112], [dash, 98], [121], [120]] ∧ d'.optind = 3 := by
  intro t add
  obtain ⟨d', argv', hloop, hend⟩ :=
    @getoptLoop_parse Unit (List OptEvent) t false add { optind := 0 } (.inl rfl) [112] [[120], [dash, 98], [121]] [] 2
      (by decide)
  obtain ⟨hargv, hoptind, -⟩ := hend _ rfl
  exact ⟨d', argv', hloop, hargv, hoptind⟩

end Getopt

end Renameutils
