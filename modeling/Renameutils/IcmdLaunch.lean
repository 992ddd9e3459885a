import Renameutils.Icmd

/-!
# What the launched command sees (`main`, `icmd.c`)

`main` adds the new name to the arguments that it was given, after a `--` unless it has found that options have
ended. `launchArgs_operands_iff` says when the command takes exactly the source and the new name for its
operands, whatever the new name is: `getopt` must have ended with the options exactly if `main` has
(`getoptEnd`), and the two must agree about the files.
-/

namespace Renameutils
open CString

/-- `args` from index 1 on, without the `NULL`: `args` are the arguments from `argv[first_cmd_opt]` on. -/
def launchArgs (posixlyCorrect noMoreOpts : Bool) (args : List CString) (newname : CString) : List CString :=
  if posixlyCorrect || noMoreOpts then args ++ [newname] else args ++ [dashes, newname]

/-- The index of the new name, when the arguments start at index `c`. -/
def newnameIndex (posixlyCorrect noMoreOpts : Bool) (c : Nat) (args : List CString) : Nat :=
  if posixlyCorrect || noMoreOpts then c + args.length else c + args.length + 1

/-- What `getopt` does with the arguments that come after those it has read. -/
inductive GetoptEnd
  | reads
  | skips
  | operands
deriving DecidableEq

def getoptEnd (posix : Bool) : Bool → List ArgKind → GetoptEnd
  | false, [] => .reads
  | true, [] => .skips
  | true, _ :: kinds => getoptEnd posix false kinds
  | false, k :: kinds =>
    match k with
    | .terminator => .operands
    | .dash | .operand => if posix then .operands else getoptEnd posix false kinds
    | .consumes => getoptEnd posix true kinds
    | .greedy | .other => getoptEnd posix false kinds

/-- The operands among arguments from index `c` on that come after others. -/
def operandsAfter (posix : Bool) (c : Nat) (kinds : List ArgKind) : GetoptEnd → List Nat
  | .reads => operandsBy posix false c kinds
  | .skips => operandsBy posix true c kinds
  | .operands => List.range' c kinds.length

section
variable {opts : List ArgOption} {posix skip noMore : Bool} {c src : Nat} {kinds : List ArgKind}
  {args : List CString} {s : Scan}

theorem operandsBy_append (c : Nat) (kinds tail : List ArgKind) : operandsBy posix skip c (kinds ++ tail) =
    operandsBy posix skip c kinds ++ operandsAfter posix (c + kinds.length) tail (getoptEnd posix skip kinds) := by
  induction kinds generalizing c skip with
  | nil => cases skip <;> rfl
  | cons k kinds ih =>
    have hlength : c + (k :: kinds).length = c + 1 + kinds.length := by rw [List.length_cons]; omega
    have hrange : List.range' (c + 1) (kinds ++ tail).length =
        List.range' (c + 1) kinds.length ++ List.range' (c + 1 + kinds.length) tail.length := by
      rw [List.length_append, List.range'_append_1]
    rw [hlength, List.cons_append]
    cases skip with
    | true => exact ih (c + 1)
    | false =>
      have hoperand : (c :: if posix then List.range' (c + 1) (kinds ++ tail).length
            else operandsBy posix false (c + 1) (kinds ++ tail)) =
          (c :: if posix then List.range' (c + 1) kinds.length else operandsBy posix false (c + 1) kinds) ++
            operandsAfter posix (c + 1 + kinds.length) tail
              (if posix then .operands else getoptEnd posix false kinds) := by
        cases posix with
        | true => exact congrArg (c :: ·) hrange
        | false => exact congrArg (c :: ·) (ih (c + 1))
      cases k with
      | terminator => exact hrange
      | dash => exact hoperand
      | operand => exact hoperand
      | consumes => exact ih (c + 1)
      | greedy => exact ih (c + 1)
      | other => exact ih (c + 1)

theorem lt_of_mem_taken {x : Nat} (h : x ∈ taken posix skip noMore c kinds) : x < c + kinds.length := by
  induction kinds generalizing c skip noMore with
  | nil => simp [taken] at h
  | cons k kinds ih =>
    rw [List.length_cons]
    have hlater : ∀ skip noMore, x ∈ taken posix skip noMore (c + 1) kinds → x < c + (kinds.length + 1) :=
      fun _ _ h => by have := ih h; omega
    have hcons : ∀ noMore, x ∈ c :: taken posix false noMore (c + 1) kinds → x < c + (kinds.length + 1) := by
      intro noMore h
      rcases List.mem_cons.mp h with rfl | h
      · omega
      · exact hlater _ _ h
    revert h
    cases skip with
    | true => exact hlater _ _
    | false =>
      cases noMore with
      | true => exact hcons _
      | false => cases k <;> first | exact hcons _ | exact hlater _ _

theorem lt_of_mem_operandsBy {x : Nat} (h : x ∈ operandsBy posix skip c kinds) : x < c + kinds.length := by
  induction kinds generalizing c skip with
  | nil => simp [operandsBy] at h
  | cons k kinds ih =>
    rw [List.length_cons]
    have hrange : x ∈ List.range' (c + 1) kinds.length → x < c + (kinds.length + 1) := fun h => by
      have := List.mem_range'_1.mp h
      omega
    have hlater : ∀ skip, x ∈ operandsBy posix skip (c + 1) kinds → x < c + (kinds.length + 1) :=
      fun _ h => by have := ih h; omega
    have hcons : x ∈ c :: (if posix then List.range' (c + 1) kinds.length else operandsBy posix false (c + 1) kinds) →
        x < c + (kinds.length + 1) := by
      intro h
      rcases List.mem_cons.mp h with rfl | h
      · omega
      · split at h
        · exact hrange h
        · exact hlater _ h
    revert h
    cases skip with
    | true => exact hlater _
    | false => cases k <;> first | exact hrange | exact hcons | exact hlater _

/-! ### The variables of `main` when a name is edited -/

/-- With `POSIXLY_CORRECT` the first file ends the options. -/
theorem noMoreOpts_step (hs : posix = true → s.files ≠ [] → s.noMoreOpts = true) {argOptions arg : CString} :
    posix = true → (s.step argOptions posix c arg).files ≠ [] →
      (s.step argOptions posix c arg).noMoreOpts = true := by
  have hlong : (s.longOption argOptions arg).files = s.files ∧
      (s.longOption argOptions arg).noMoreOpts = s.noMoreOpts := by
    unfold Scan.longOption
    dsimp only
    split <;> split <;> exact ⟨rfl, rfl⟩
  have hshort : ∀ cluster, (s.shortOptions argOptions cluster).files = s.files ∧
      (s.shortOptions argOptions cluster).noMoreOpts = s.noMoreOpts := by
    intro cluster
    induction cluster with
    | nil => exact ⟨rfl, rfl⟩
    | cons option rest ih =>
      rw [Scan.shortOptions]
      split
      · exact ⟨rfl, rfl⟩
      · exact ih
  intro hposix
  unfold Scan.step
  split
  · exact hs hposix
  split
  · rename_i hmore
    exact fun _ => hmore
  split
  · exact fun _ => rfl
  split
  · rw [hlong.1, hlong.2]
    exact hs hposix
  split
  · rw [(hshort _).1, (hshort _).2]
    exact hs hposix
  · exact fun _ => by rw [hposix, Bool.or_true]

theorem noMoreOpts_scanArgs {argOptions : CString} (hs : posix = true → s.files ≠ [] → s.noMoreOpts = true) :
    posix = true → (scanArgs argOptions posix c args s).files ≠ [] →
      (scanArgs argOptions posix c args s).noMoreOpts = true := by
  induction args generalizing c s with
  | nil => exact hs
  | cons arg args ih => exact ih (noMoreOpts_step hs)

/-! ### The operands of the launched command -/

/-- `main` has ended with the options exactly if `getopt` has, and `getopt` does not wait for the argument of an
option. -/
def endsAlike (opts : List ArgOption) (posix : Bool) (args : List CString) (noMoreOpts : Bool) : Bool :=
  getoptEnd posix false (args.map (argKind opts)) = if noMoreOpts then .operands else .reads

theorem argKind_assignment : argKind opts [dash, dash, equals] = .other := by
  have hnot : consumesNext opts [dash, dash, equals] = false ∧
      skipsNext (csvOf opts) [dash, dash, equals] = false := by
    simp [consumesNext, skipsNext, dashes]
  unfold argKind
  rw [hnot.1, hnot.2]
  rfl

theorem operands_launchArgs (newname : CString) : operands opts posix c (launchArgs posix noMore args newname) =
    operandsBy posix false c (args.map (argKind opts)) ++
      operandsAfter posix (c + args.length)
        (if posix || noMore then [argKind opts newname] else [.terminator, argKind opts newname])
        (getoptEnd posix false (args.map (argKind opts))) := by
  have hdashes : argKind opts dashes = .terminator := if_pos rfl
  rw [operands_eq, launchArgs]
  split
  · rw [List.map_append, operandsBy_append, List.length_map]
    rfl
  · rw [List.map_append, operandsBy_append, List.length_map, List.map_cons, hdashes]
    rfl

/-- The command takes the source and the new name for its operands. -/
theorem operands_launchArgs_eq (hops : operandsBy posix false c (args.map (argKind opts)) = [src])
    (hends : endsAlike opts posix args noMore = true) (hmore : (posix || noMore) = noMore) (newname : CString) :
    operands opts posix c (launchArgs posix noMore args newname) = [src, newnameIndex posix noMore c args] := by
  rw [operands_launchArgs, hops, of_decide_eq_true hends, newnameIndex, hmore]
  cases noMore with
  | true => rfl
  | false => rfl

theorem taken_of_editName {passThrough : Bool}
    (h : (scanArgs (csvOf opts) posix c args .init).after passThrough = .editName src) :
    taken posix false false c (args.map (argKind opts)) = [src] ∧
      (posix || (scanArgs (csvOf opts) posix c args .init).noMoreOpts) =
        (scanArgs (csvOf opts) posix c args .init).noMoreOpts := by
  have hfiles := Scan.files_of_editName h
  constructor
  · have htaken : (scanArgs (csvOf opts) posix c args .init).files =
        taken posix false false c (args.map (argKind opts)) :=
      scanArgs_files args c .init
    rw [← htaken, hfiles]
  · cases hp : posix with
    | false => rfl
    | true =>
      subst hp
      have := noMoreOpts_scanArgs (fun _ hne => absurd rfl hne) rfl (by rw [hfiles]; simp)
      rw [this]
      rfl

/-- The operands before the new name are the file of `main` if and only if the two agree. -/
theorem operandsBy_eq_iff (htaken : taken posix false false c (args.map (argKind opts)) = [src]) :
    operandsBy posix false c (args.map (argKind opts)) = [src] ↔
      agrees posix .bothRead (args.map (argKind opts)) = true := by
  rw [← taken_eq_iff .bothRead c]
  show _ ↔ taken posix false false c _ = operandsBy posix false c _
  rw [htaken, eq_comm]

/-- When a name is edited, the command takes the source and the new name for its operands, whatever the new name
is, if and only if `main` and `getopt` agree about the files and about where the options end. -/
theorem launchArgs_operands_iff {passThrough : Bool}
    (h : (scanArgs (csvOf opts) posix c args .init).after passThrough = .editName src) :
    (∀ newname,
      operands opts posix c (launchArgs posix (scanArgs (csvOf opts) posix c args .init).noMoreOpts args newname) =
        [src, newnameIndex posix (scanArgs (csvOf opts) posix c args .init).noMoreOpts c args]) ↔
      agrees posix .bothRead (args.map (argKind opts)) = true ∧
        endsAlike opts posix args (scanArgs (csvOf opts) posix c args .init).noMoreOpts = true := by
  obtain ⟨htaken, hmore⟩ := taken_of_editName h
  have hsrc : src < c + args.length := by
    rw [← List.length_map (f := argKind opts)]
    exact lt_of_mem_taken (htaken ▸ List.mem_singleton_self src)
  rw [← operandsBy_eq_iff htaken]
  generalize (scanArgs (csvOf opts) posix c args .init).noMoreOpts = noMore at hmore ⊢
  constructor
  · intro hall
    have hother := hall [dash, dash, equals]
    rw [operands_launchArgs, newnameIndex, hmore, argKind_assignment] at hother
    rw [endsAlike, decide_eq_true_eq]
    have hlt : ∀ x ∈ operandsBy posix false c (args.map (argKind opts)), x < c + args.length := by
      intro x hx
      have := lt_of_mem_operandsBy hx
      rwa [List.length_map] at this
    generalize operandsBy posix false c (args.map (argKind opts)) = found at hother hlt ⊢
    generalize getoptEnd posix false (args.map (argKind opts)) = gend at hother ⊢
    -- the new name is not among the operands that were there before it
    have hnew : ∀ {i}, c + args.length ≤ i → found ++ [] ≠ [src, i] := by
      intro i hi heq
      rw [List.append_nil] at heq
      have := hlt i (by rw [heq]; simp)
      omega
    cases noMore with
    | true =>
      cases gend with
      | reads => exact absurd hother (hnew (Nat.le_refl _))
      | skips => exact absurd hother (hnew (Nat.le_refl _))
      | operands => exact ⟨(List.append_inj' hother rfl).1, rfl⟩
    | false =>
      cases gend with
      | reads => exact ⟨(List.append_inj' hother rfl).1, rfl⟩
      | skips => exact absurd hother (hnew (Nat.le_succ _))
      | operands =>
        have heq : c + args.length = src := by
          have hboth : found ++ [c + args.length, c + args.length + 1] = [] ++ [src, c + args.length + 1] := hother
          exact (List.cons.inj (List.append_inj' hboth rfl).2).1
        omega
  · rintro ⟨hops, hends⟩ newname
    exact operands_launchArgs_eq hops hends hmore newname

end

/-- `imv -b a`, with `--suffix` and `-S` in the list: the new name may start with a dash. -/
theorem launchArgs_operands_backup :
    let opts : List ArgOption := [.short 83 (by decide), .long [115, 117, 102, 102, 105, 120] (by decide)]
    ∀ newname, operands opts false 1 (launchArgs false
        (scanArgs (csvOf opts) false 1 [[dash, 98], [97]] .init).noMoreOpts [[dash, 98], [97]] newname) = [2, 4] := by
  intro opts
  have h : (scanArgs (csvOf opts) false 1 [[dash, 98], [97]] .init).after false = .editName 2 := rfl
  exact (launchArgs_operands_iff h).mpr ⟨by decide, by decide⟩

end Renameutils
