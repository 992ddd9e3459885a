import Renameutils.SessionInv

/-!
# Leaving the command mode (`commandmode_mainloop`, `interactive.c`)

`Loop` is the session with the two variables of the main loop. The end of the input goes through
`terminate_program`, which tells of unapplied changes once; `exit` and `quit` do not, and `exit_warned` stays
when the plan becomes another one. `KeepsWarning` excludes both, and then nobody leaves untold
(`leaves_told`).
-/

namespace Renameutils

variable {φ : Type}

/-- The session, and `running` and `exit_warned`. -/
structure Loop (φ : Type) where
  session : Session φ
  running : Bool := true
  exitWarned : Bool := false

/-- What `readline` gives: a line with a command of the session, a line with `exit` or `quit`, or the end of
the input. Lines with other commands change nothing, as `plan` does. -/
inductive Input where
  | command (e : Event)
  | quit
  | endOfFile

/-- What a turn of the loop shows or does, as far as unapplied changes go. -/
inductive Turn where
  | told
  | planChanged
  | other
deriving DecidableEq

/-- The plan has entries in `ok` or `error`. -/
def pending (plan : Option ApplyPlan) : Bool := plan.any fun plan => plan.ok ≠ [] || plan.error ≠ []

/-- The command replaces the plan, or changes its lists. -/
def changesPlan (s : Session φ) (r : StepResult φ) : Bool := r.made.isSome || r.session.plan ≠ s.plan

def quitCommand (l : Loop φ) : Loop φ := { l with running := false }

def terminateProgram (l : Loop φ) : Loop φ × Turn :=
  let valid := match l.session.plan with
    | some plan => decide (plan.error = []) && decide (plan.ok = [])
    | none => false
  if valid || l.session.plan.isNone || l.exitWarned then ({ l with running := false }, .other)
  else ({ l with exitWarned := true }, .told)

/-- One turn of `commandmode_mainloop`. -/
def Loop.turn (setup : Setup) (l : Loop φ) : Input → Option (Loop φ × Turn)
  | .command e => do
    let r ← l.session.step setup e
    return ({ l with session := r.session }, if changesPlan l.session r then .planChanged else .other)
  | .quit => some (quitCommand l, .other)
  | .endOfFile => some (terminateProgram l)

/-- The loop, and the turns that it has taken. -/
structure LoopRun (φ : Type) where
  loop : Loop φ
  turns : List Turn := []

/-- `while (running)`. -/
def LoopRun.next (setup : Setup) (run : LoopRun φ) (input : Input) : Option (LoopRun φ) := do
  if run.loop.running then
    let (loop, turn) ← run.loop.turn setup input
    return { loop := loop, turns := run.turns ++ [turn] }
  else none

/-- The user was told of unapplied changes, and the plan has not been changed since. -/
def Told (turns : List Turn) : Prop := ∃ before after, turns = before ++ .told :: after ∧ .planChanged ∉ after

/-- When the loop ends and the plan has entries, the user was told before the last turn. -/
def LeavesTold (run : LoopRun φ) : Prop :=
  run.loop.running = false → pending run.loop.session.plan = true →
    ∃ turns last, run.turns = turns ++ [last] ∧ Told turns

/-- `exit` and `quit` are used when the plan has no entries or `exit_warned` is set, and then no command gives
the plan new entries. -/
def KeepsWarning (setup : Setup) (run : LoopRun φ) : Input → Prop
  | .quit => pending run.loop.session.plan = true → run.loop.exitWarned = true
  | .command e => run.loop.exitWarned = true → ∀ r, run.loop.session.step setup e = some r →
      changesPlan run.loop.session r = true → pending r.session.plan = false
  | .endOfFile => True

/-- What holds between two turns. -/
structure WarnInv (run : LoopRun φ) : Prop where
  told : run.loop.running = true → run.loop.exitWarned = true → pending run.loop.session.plan = true →
    Told run.turns
  leaves : LeavesTold run

section
variable {setup : Setup} {l : Loop φ} {run run' : LoopRun φ} {input : Input} {turns : List Turn}

theorem Told.snoc (h : Told turns) {turn : Turn} (hturn : turn ≠ .planChanged) : Told (turns ++ [turn]) := by
  obtain ⟨before, after, rfl, hafter⟩ := h
  exact ⟨before, after ++ [turn], by simp, by simp [hafter, Ne.symm hturn]⟩

/-- `terminate_program` ends the loop when nothing is pending or the user was warned, and warns otherwise. -/
theorem terminateProgram_eq (l : Loop φ) : terminateProgram l =
    if pending l.session.plan = true ∧ l.exitWarned = false then ({ l with exitWarned := true }, .told)
    else ({ l with running := false }, .other) := by
  unfold terminateProgram pending
  cases l.session.plan with
  | none => simp
  | some plan =>
    by_cases hok : plan.ok = [] <;> by_cases herror : plan.error = [] <;> cases l.exitWarned <;> simp [hok, herror]

theorem LoopRun.next_eq (h : run.next setup input = some run') : run.loop.running = true ∧
    ∃ loop turn, run.loop.turn setup input = some (loop, turn) ∧ run' = ⟨loop, run.turns ++ [turn]⟩ := by
  unfold LoopRun.next at h
  split at h
  · rename_i hrunning
    obtain ⟨⟨loop, turn⟩, hturn, h⟩ := Option.bind_eq_some_iff.mp h
    exact ⟨hrunning, loop, turn, hturn, (Option.some.inj h).symm⟩
  · cases h

theorem LoopRun.exitWarned_command {e : Event} (h : run.next setup (.command e) = some run') :
    run'.loop.exitWarned = run.loop.exitWarned := by
  obtain ⟨_, loop, turn, hturn, rfl⟩ := LoopRun.next_eq h
  obtain ⟨r, _, hturn⟩ := Option.bind_eq_some_iff.mp hturn
  cases hturn
  rfl

namespace WarnInv

theorem init (s : Session φ) : WarnInv ({ loop := { session := s } } : LoopRun φ) :=
  ⟨fun _ h => (nomatch h), fun h => (nomatch h)⟩

theorem ends (inv : WarnInv run) (hrunning : run.loop.running = true)
    (hwarned : pending run.loop.session.plan = true → run.loop.exitWarned = true) :
    WarnInv ⟨{ run.loop with running := false }, run.turns ++ [.other]⟩ where
  told h := nomatch h
  leaves _ hp := ⟨run.turns, .other, rfl, inv.told hrunning (hwarned hp) hp⟩

theorem next (inv : WarnInv run) (ok : KeepsWarning setup run input) (h : run.next setup input = some run') :
    WarnInv run' := by
  obtain ⟨hrunning, loop, turn, hturn, rfl⟩ := LoopRun.next_eq h
  cases input with
  | quit =>
    cases hturn
    exact inv.ends hrunning ok
  | endOfFile =>
    rw [Loop.turn, terminateProgram_eq] at hturn
    split at hturn
    · cases hturn
      exact ⟨fun _ _ _ => ⟨run.turns, [], rfl, by simp⟩, fun h => Bool.noConfusion (hrunning.symm.trans h)⟩
    · rename_i hwarn
      cases hturn
      exact inv.ends hrunning fun hp => by simpa [hp] using hwarn
  | command e =>
    obtain ⟨r, hr, hturn⟩ := Option.bind_eq_some_iff.mp hturn
    cases hturn
    refine ⟨fun _ hwarned hp => ?_, fun h => Bool.noConfusion (hrunning.symm.trans h)⟩
    by_cases hchanges : changesPlan run.loop.session r = true
    · exact absurd hp (by simp [ok hwarned r hr hchanges])
    · have hplan : r.session.plan = run.loop.session.plan := by
        simp only [changesPlan, Bool.or_eq_true, decide_eq_true_eq, not_or, not_not] at hchanges
        exact hchanges.2
      rw [if_neg hchanges]
      exact (inv.told hrunning hwarned (hplan ▸ hp)).snoc (by decide)

end WarnInv

/-- In any run in which `exit` and `quit` are used as the end of the input is, and the plan gets no entries
after the warning, the user is told before the loop ends with entries in the plan. -/
theorem leaves_told {s : Session φ} {inputs : List Input}
    (h : Runs (LoopRun.next setup) (KeepsWarning setup) ⟨{ session := s }, []⟩ inputs run) : LeavesTold run :=
  (h.invariant (fun _ _ _ inv ok hnext => inv.next ok hnext) (WarnInv.init _)).leaves

end

/-- A file is to be renamed, and the input ends twice. -/
theorem leaves_told_twice :
    let setup := asciiSetup .qmv
    let fs : FileSys Nat := Table.empty.put [97] 1
    ∃ run, Runs (LoopRun.next setup) (KeepsWarning setup) ⟨{ session := .initial fs false .destinationOnly {} }, []⟩
        [.command (.list (some [([], [97])])), .command (editLines true [[120]]), .endOfFile, .endOfFile] run ∧
      run.loop.running = false ∧ pending run.loop.session.plan = true ∧ LeavesTold run := by
  intro setup fs
  have hcheck : (([.command (.list (some [([], [97])])), .command (editLines true [[120]]), .endOfFile,
      .endOfFile].foldlM (LoopRun.next setup) ⟨{ session := .initial fs false .destinationOnly {} }, []⟩).any
      fun run => !run.loop.running && pending run.loop.session.plan) = true := by
    decide
  obtain ⟨run, hrun, hcheck⟩ := (Option.any_eq_true _ _).mp hcheck
  simp only [Bool.and_eq_true, Bool.not_eq_true'] at hcheck
  simp only [List.foldlM_cons, List.foldlM_nil] at hrun
  obtain ⟨run₁, h₁, hrun⟩ := Option.bind_eq_some_iff.mp hrun
  obtain ⟨run₂, h₂, hrun⟩ := Option.bind_eq_some_iff.mp hrun
  obtain ⟨run₃, h₃, hrun⟩ := Option.bind_eq_some_iff.mp hrun
  obtain ⟨run₄, h₄, hrun⟩ := Option.bind_eq_some_iff.mp hrun
  obtain rfl : run₄ = run := Option.some.inj hrun
  have hwarned₁ : run₁.loop.exitWarned = false := LoopRun.exitWarned_command h₁
  have hruns : Runs (LoopRun.next setup) (KeepsWarning setup) ⟨{ session := .initial fs false .destinationOnly {} }, []⟩
      [.command (.list (some [([], [97])])), .command (editLines true [[120]]), .endOfFile, .endOfFile] run₄ :=
    .cons (fun h => Bool.noConfusion h) h₁ (.cons (fun h => Bool.noConfusion (hwarned₁.symm.trans h)) h₂
      (.cons trivial h₃ (.cons trivial h₄ (.nil _))))
  exact ⟨run₄, hruns, hcheck.1, hcheck.2, leaves_told hruns⟩

/-- `quit` does not tell of the rename that is planned. -/
theorem quits_untold :
    let setup := asciiSetup .qmv
    let fs : FileSys Nat := Table.empty.put [97] 1
    ¬ ∀ inputs run, Runs (LoopRun.next setup) (fun _ _ => True)
      ⟨{ session := .initial fs false .destinationOnly {} }, []⟩ inputs run → LeavesTold run := by
  intro setup fs claim
  have hcheck : (([.command (.list (some [([], [97])])), .command (editLines true [[120]]),
      .quit].foldlM (LoopRun.next setup) ⟨{ session := .initial fs false .destinationOnly {} }, []⟩).any
      fun run => !run.loop.running && pending run.loop.session.plan &&
        decide (run.turns = [.other, .planChanged, .other])) = true := by
    decide
  obtain ⟨run, hrun, hcheck⟩ := (Option.any_eq_true _ _).mp hcheck
  simp only [Bool.and_eq_true, Bool.not_eq_true', decide_eq_true_eq] at hcheck
  obtain ⟨turns, last, hturns, before, after, rfl, _⟩ :=
    claim _ run (.of_foldlM (fun _ _ _ => trivial) hrun) hcheck.1.1 hcheck.1.2
  have hmem : Turn.told ∈ run.turns := by simp [hturns]
  rw [hcheck.2] at hmem
  exact absurd hmem (by decide)

end Renameutils
