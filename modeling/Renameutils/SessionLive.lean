import Renameutils.SessionInv

/-!
# References to discarded specs

The specs belong to `work_files`, but for those that the current plan created. `LiveInv` says that the
other lists and the links lead only to such specs; `import` breaks it because it leaves the old plan and
`edit_file_list`, `apply` because it frees specs that may be in `edit_file_list`, and a new plan because
the specs that it carries over keep their links to the specs that an old plan created.
-/

namespace Renameutils
open Chain

variable {φ : Type}

/-- The spec is listed, or was created for the current plan and is still to be applied. -/
def Live (s : Session φ) (t : SpecId) : Prop :=
  t ∈ s.workFiles ∨ ∃ plan, s.plan = some plan ∧ t ∈ plan.freeSpec ∧ t ∈ plan.ok

/-- The spec is in `edit_file_list` or in the current plan. -/
def InList (s : Session φ) (t : SpecId) : Prop :=
  t ∈ s.editFileList ∨ ∃ plan, s.plan = some plan ∧ t ∈ plan.specs

/-- All specs that the lists and the links of their specs lead to are live. -/
structure NoDangling (s : Session φ) : Prop where
  inList : ∀ t, InList s t → Live s t
  prev : ∀ t u, InList s t → s.heap.prevSpec t = some u → Live s u
  next : ∀ t u, InList s t → s.heap.nextSpec t = some u → Live s u

/-- `import` is used when nothing is planned or to be edited again, `apply` when no planned spec is to be
edited again, and at `make_plan` the carried specs are linked to listed specs only and the others to
none. -/
def KeepsLive (setup : Setup) (s : Session φ) (e : Event) : Prop :=
  match e with
  | .importFile (some (_, false)) => s.editFileList = [] ∧ ∀ plan, s.plan = some plan → plan.specs = []
  | .edit all env => ∀ d, s.editFiles setup all false env = some d → d.result = true →
      CarriedLinks d.session.workFiles d.session.heap
  | .apply _ => ∀ plan, s.plan = some plan → ∀ t ∈ s.editFileList, t ∉ plan.ok
  | _ => True

/-- The lists of a plan hold listed specs and those that the plan created. -/
structure PlanLive (W : List SpecId) (h : Heap) (plan : ApplyPlan) : Prop where
  ok : ∀ t ∈ plan.ok, t ∈ W ∨ t ∈ plan.freeSpec
  error : ∀ t ∈ plan.error, t ∈ W
  noChange : ∀ t ∈ plan.noChange, t ∈ W
  free : ∀ t ∈ plan.freeSpec, t ∉ W ∧ t < h.fresh
  nodup : plan.specs.Nodup

structure LiveInv (s : Session φ) : Prop where
  listed : ListedOnce s.workFiles s.heap
  closed : LinksClosed s.heap (Live s)
  edit : ∀ t ∈ s.editFileList, t ∈ s.workFiles
  plan : ∀ plan, s.plan = some plan → PlanLive s.workFiles s.heap plan

theorem LinksClosed.congr {h h' : Heap} {L L' : SpecId → Prop} (closed : LinksClosed h L)
    (hL : ∀ t, L' t ↔ L t) (hprev : ∀ t, L t → h'.prevSpec t = h.prevSpec t)
    (hnext : ∀ t, L t → h'.nextSpec t = h.nextSpec t) : LinksClosed h' L' where
  prev t u ht hp := by
    rw [hL] at ht
    rw [hprev t ht] at hp
    obtain ⟨hu, hn⟩ := closed.prev t u ht hp
    exact ⟨(hL u).mpr hu, by rw [hnext u hu, hn]⟩
  next t u ht hn := by
    rw [hL] at ht
    rw [hnext t ht] at hn
    obtain ⟨hu, hp⟩ := closed.next t u ht hn
    exact ⟨(hL u).mpr hu, by rw [hprev u hu, hp]⟩

theorem LinksClosed.of_none {h : Heap} {L : SpecId → Prop}
    (hnone : ∀ t, L t → h.prevSpec t = none ∧ h.nextSpec t = none) : LinksClosed h L where
  prev t u ht hp := by rw [(hnone t ht).1] at hp; cases hp
  next t u ht hn := by rw [(hnone t ht).2] at hn; cases hn

theorem CarriedLinks.of_none {W : List SpecId} {h : Heap}
    (hnone : ∀ t ∈ W, h.status t = .unchecked ∧ h.prevSpec t = none ∧ h.nextSpec t = none) :
    CarriedLinks W h where
  unchecked t ht _ := (hnone t ht).2
  prev t ht u hp := by rw [(hnone t ht).2.1] at hp; cases hp
  next t ht u hn := by rw [(hnone t ht).2.2] at hn; cases hn

/-! ### Freeing lists -/

/-- The links of the specs in `A` lead to specs in `A`. -/
structure LinksIn (h : Heap) (A : SpecId → Prop) : Prop where
  prev : ∀ t u, A t → h.prevSpec t = some u → A u
  next : ∀ t u, A t → h.nextSpec t = some u → A u

/-- The links of the specs outside of `A` are the same. -/
def SameOutside (A : SpecId → Prop) (h h' : Heap) : Prop :=
  ∀ t, ¬ A t → h'.prevSpec t = h.prevSpec t ∧ h'.nextSpec t = h.nextSpec t

namespace LinksIn
variable {h : Heap} {A : SpecId → Prop} {s p : SpecId} {v : Option SpecId}

theorem ne_of_not {t : SpecId} (hp : A p) (ht : ¬ A t) : t ≠ p := by
  rintro rfl
  exact ht hp

theorem setNext (hin : LinksIn h A) (hp : A p) (hv : ∀ u, v = some u → A u) :
    LinksIn (h.setNext p v) A ∧ SameOutside A h (h.setNext p v) := by
  refine ⟨⟨hin.prev, fun t u ht hn => ?_⟩, fun t ht => ⟨rfl, Function.update_of_ne (ne_of_not hp ht) _ _⟩⟩
  change Function.update h.nextSpec p v t = some u at hn
  rw [Function.update_apply] at hn
  split at hn
  · exact hv u hn
  · exact hin.next t u ht hn

theorem setPrev (hin : LinksIn h A) (hp : A p) (hv : ∀ u, v = some u → A u) :
    LinksIn (h.setPrev p v) A ∧ SameOutside A h (h.setPrev p v) := by
  refine ⟨⟨fun t u ht hn => ?_, hin.next⟩, fun t ht => ⟨Function.update_of_ne (ne_of_not hp ht) _ _, rfl⟩⟩
  change Function.update h.prevSpec p v t = some u at hn
  rw [Function.update_apply] at hn
  split at hn
  · exact hv u hn
  · exact hin.prev t u ht hn

theorem refl (hin : LinksIn h A) : LinksIn h A ∧ SameOutside A h h := ⟨hin, fun _ _ => ⟨rfl, rfl⟩⟩

theorem andThen {h' h'' : Heap} (a : LinksIn h' A ∧ SameOutside A h h')
    (b : LinksIn h' A → LinksIn h'' A ∧ SameOutside A h' h'') : LinksIn h'' A ∧ SameOutside A h h'' := by
  obtain ⟨hin, hsame⟩ := b a.1
  exact ⟨hin, fun t ht => ⟨(hsame t ht).1.trans (a.2 t ht).1, (hsame t ht).2.trans (a.2 t ht).2⟩⟩

/-- Freeing a spec of `A` changes links only in `A`. -/
theorem freeFileSpec (hin : LinksIn h A) (hs : A s) :
    LinksIn (h.freeFileSpec s) A ∧ SameOutside A h (h.freeFileSpec s) := by
  have hlast : ∀ h₁, LinksIn h₁ A → ∀ n, h₁.nextSpec s = some n →
      LinksIn (h₁.setPrev n (h₁.prevSpec s)) A ∧ SameOutside A h₁ (h₁.setPrev n (h₁.prevSpec s)) :=
    fun h₁ hin n hn => hin.setPrev (hin.next s n hs hn) fun u hu => hin.prev s u hs hu
  unfold Heap.freeFileSpec
  cases hp : h.prevSpec s with
  | none =>
    dsimp only
    split
    · exact hlast h hin _ ‹_›
    · exact hin.refl
  | some p =>
    have hset := hin.setNext (v := h.nextSpec s) (hin.prev s p hs hp) fun u hu => hin.next s u hs hu
    dsimp only
    split
    · exact andThen hset fun hin => hlast _ hin _ ‹_›
    · exact hset

theorem freeFiles {files : List SpecId} (hin : LinksIn h A) (hs : ∀ s ∈ files, A s) :
    LinksIn (Renameutils.freeFiles files h) A ∧ SameOutside A h (Renameutils.freeFiles files h) := by
  induction files generalizing h with
  | nil => exact hin.refl
  | cons s files ih =>
    exact andThen (hin.freeFileSpec (hs s List.mem_cons_self)) fun hin =>
      ih hin fun t ht => hs t (List.mem_cons_of_mem _ ht)

end LinksIn

/-! ### Steps -/

/-- The session while `apply_plan` runs: `kept` is `plan->ok`. -/
def Session.applied (s : Session φ) (plan : ApplyPlan) (kept : List SpecId) (w : ApplyState φ) : Session φ :=
  { s with heap := w.heap, workFiles := w.workFiles, fs := w.fs, plan := some { plan with ok := kept } }

theorem live_applied {s : Session φ} {plan : ApplyPlan} {kept : List SpecId} {w : ApplyState φ} {t : SpecId} :
    Live (s.applied plan kept w) t ↔ t ∈ w.workFiles ∨ t ∈ plan.freeSpec ∧ t ∈ kept := by
  constructor
  · rintro (ht | ⟨_, ⟨⟩, ht⟩)
    · exact .inl ht
    · exact .inr ht
  · rintro (ht | ht)
    · exact .inl ht
    · exact .inr ⟨_, rfl, ht⟩

theorem Live.lt {s : Session φ} {t : SpecId} (inv : LiveInv s) (ht : Live s t) : t < s.heap.fresh := by
  rcases ht with ht | ⟨plan, hplan, hf, _⟩
  · exact inv.listed.lt t ht
  · exact ((inv.plan plan hplan).free t hf).2

namespace LiveInv
variable {setup : Setup} {s s₁ : Session φ} {e : Event} {r : StepResult φ}

theorem noDangling (inv : LiveInv s) : NoDangling s := by
  have hlive : ∀ t, InList s t → Live s t := by
    rintro t (ht | ⟨plan, hplan, ht⟩)
    · exact .inl (inv.edit t ht)
    · have p := inv.plan plan hplan
      rcases List.mem_append.mp ht with ht | ht
      · rcases List.mem_append.mp ht with ht | ht
        · exact (p.ok t ht).imp_right fun hf => ⟨plan, hplan, hf, ht⟩
        · exact .inl (p.error t ht)
      · exact .inl (p.noChange t ht)
  exact ⟨hlive, fun t u ht hp => (inv.closed.prev t u (hlive t ht) hp).1,
    fun t u ht hn => (inv.closed.next t u (hlive t ht) hn).1⟩

theorem list (inv : LiveInv s) (ls : Option (List (CString × CString))) : LiveInv (s.listFiles ls) := by
  cases ls with
  | none => exact inv
  | some entries =>
    have l := loadFiles_loaded entries Table.empty (freeFiles s.workFiles s.heap)
    refine ⟨.of_loaded l, .of_none ?_, nofun, nofun⟩
    rintro t (ht | ⟨_, ⟨⟩, _⟩)
    exact ⟨(l.new t ht).2.1, (l.new t ht).2.2.1⟩

/-- `import` when it replaces the list. -/
theorem importFiles (inv : LiveInv s) {lines : List CString} (hedit : s.editFileList = [])
    (hplan : ∀ plan, s.plan = some plan → plan.specs = []) :
    LiveInv (s.importCommand (some (lines, false))) := by
  have l := loadFiles_loaded (lines.map ([], ·)) Table.empty s.heap
  -- the old list is freed among the specs that were live
  have hin : LinksIn (loadFiles (lines.map ([], ·)) Table.empty s.heap).1 (Live s) := by
    constructor
    · intro t u ht hp
      have heq : Heap.prevSpec _ t = s.heap.prevSpec t := congrArg FileSpec.prevSpec (l.spec t (ht.lt inv))
      rw [heq] at hp
      exact (inv.closed.prev t u ht hp).1
    · intro t u ht hn
      have heq : Heap.nextSpec _ t = s.heap.nextSpec t := congrArg FileSpec.nextSpec (l.spec t (ht.lt inv))
      rw [heq] at hn
      exact (inv.closed.next t u ht hn).1
  have hout : SameOutside (Live s) _ (freeFiles s.workFiles _) := (hin.freeFiles fun t ht => .inl ht).2
  have hfiles : ∀ t ∈ (loadFiles (lines.map ([], ·)) Table.empty s.heap).2, ¬ Live s t := fun t ht hl =>
    (l.bounds t ht).1.not_gt (hl.lt inv)
  have only := linksOnly_freeFiles s.workFiles (loadFiles (lines.map ([], ·)) Table.empty s.heap).1
  refine ⟨(ListedOnce.of_loaded l).links only, .of_none ?_, ?_, ?_⟩
  · rintro t (ht | ⟨plan, hp, _, ht⟩)
    · obtain ⟨h1, h2⟩ := hout t (hfiles t ht)
      exact ⟨h1.trans (l.new t ht).2.1, h2.trans (l.new t ht).2.2.1⟩
    · have := hplan plan hp
      simp only [ApplyPlan.specs, List.append_eq_nil_iff] at this
      rw [this.1.1] at ht; cases ht
  · show ∀ t ∈ s.editFileList, _
    simp [hedit]
  · intro plan hp
    have hnil := hplan plan hp
    simp only [ApplyPlan.specs, List.append_eq_nil_iff] at hnil
    refine ⟨by simp [hnil.1.1], by simp [hnil.1.2], by simp [hnil.2], fun t ht => ?_, ?_⟩
    · have hlt := ((inv.plan plan hp).free t ht).2
      exact ⟨fun hmem => (l.bounds t hmem).1.not_gt hlt,
        Nat.lt_of_lt_of_le hlt (l.fresh.trans only.fresh.ge)⟩
    · rw [hplan plan hp]; exact List.nodup_nil

/-- `import` when the file cannot be read: the new specs are freed again. -/
theorem importFails (inv : LiveInv s) (lines : List CString) :
    LiveInv (s.importCommand (some (lines, true))) := by
  have l := loadFiles_loaded (lines.map ([], ·)) Table.empty s.heap
  have hin : LinksIn (loadFiles (lines.map ([], ·)) Table.empty s.heap).1
      (· ∈ (loadFiles (lines.map ([], ·)) Table.empty s.heap).2) := by
    constructor
    · intro t u ht hp; rw [(l.new t ht).2.1] at hp; cases hp
    · intro t u ht hn; rw [(l.new t ht).2.2.1] at hn; cases hn
  have hout := (hin.freeFiles fun t ht => ht).2
  have only := linksOnly_freeFiles (loadFiles (lines.map ([], ·)) Table.empty s.heap).2
    (loadFiles (lines.map ([], ·)) Table.empty s.heap).1
  have hlive : ∀ t, Live s t → t ∉ (loadFiles (lines.map ([], ·)) Table.empty s.heap).2 := fun t hl ht =>
    (l.bounds t ht).1.not_gt (hl.lt inv)
  refine ⟨ListedOnce.links (inv.listed.mono (List.Sublist.refl _) (fun t ht => ?_) l.fresh) only,
    inv.closed.congr (fun _ => Iff.rfl) (fun t ht => ?_) (fun t ht => ?_), inv.edit, fun plan hp => ?_⟩
  · exact congrArg FileSpec.oldName (l.spec t (inv.listed.lt t ht))
  · exact (hout t (hlive t ht)).1.trans (congrArg FileSpec.prevSpec (l.spec t (ht.lt inv)))
  · exact (hout t (hlive t ht)).2.trans (congrArg FileSpec.nextSpec (l.spec t (ht.lt inv)))
  · have p := inv.plan plan hp
    exact { p with free := fun t ht => ⟨(p.free t ht).1,
      Nat.lt_of_lt_of_le (p.free t ht).2 (l.fresh.trans only.fresh.ge)⟩ }

theorem of_frame (inv : LiveInv s) (f : EditFrame s s₁) (hedit : ∀ t ∈ s₁.editFileList, t ∈ s.workFiles) :
    LiveInv s₁ := by
  refine ⟨?_, inv.closed.congr (fun t => ?_) (fun t _ => congrFun f.prevSpec t)
    fun t _ => congrFun f.nextSpec t, fun t ht => f.workFiles ▸ hedit t ht, fun plan hp => ?_⟩
  · rw [f.workFiles]
    exact inv.listed.mono (List.Sublist.refl _) (fun _ _ => congrFun f.oldName _) f.fresh.ge
  · rw [Live, Live, f.workFiles, f.plan]
  · rw [f.plan] at hp
    have p := inv.plan plan hp
    rw [f.workFiles]
    exact { p with free := fun t ht => ⟨(p.free t ht).1, f.fresh ▸ (p.free t ht).2⟩ }

theorem toEdit (inv : LiveInv s) (all : Bool) : ∀ t ∈ s.toEdit all, t ∈ s.workFiles := by
  unfold Session.toEdit
  split
  · exact fun _ h => h
  · cases hp : s.plan with
    | none => nofun
    | some plan => exact (inv.plan plan hp).error

theorem editFiles {all force : Bool} {env : EditEnv} {d : EditResult φ} (inv : LiveInv s)
    (h : s.editFiles setup all force env = some d) : LiveInv d.session := by
  have hprepared : ∀ s₁ ready, Prepares all s s₁ ready → ∀ t ∈ s₁.editFileList, t ∈ s.workFiles := by
    intro s₁ ready hp
    cases hp with
    | again => exact inv.edit
    | written => exact inv.toEdit all
    | failed => nofun
  refine inv.of_frame (editFiles_frame h) ?_
  rcases editFiles_run h with ⟨hp, _⟩ | ⟨s₁, hp, he⟩
  · exact hprepared _ _ hp
  · cases he with
    | unread => exact hprepared s₁ true hp
    | rejected => exact hprepared s₁ true hp
    | accepted => exact nofun

theorem makePlan (inv : LiveInv s) {fuel : Nat} {program : Program} {fileExists : CString → Bool}
    {st : PlanState} (links : CarriedLinks s.workFiles s.heap)
    (h : makePlan fuel program fileExists s.workFiles s.heap = some st) :
    LiveInv { s with heap := st.heap, plan := some st.plan } := by
  have l := inv.listed
  obtain ⟨cuts, _, f, _⟩ := makePlan_filed l.nodup l.lt h
  obtain ⟨hfresh, hnames⟩ := makePlan_frame l.nodup l.lt h
  have closed : LinksClosed s.heap (· ∈ s.workFiles) :=
    ⟨fun t u ht hp => ⟨links.prev t ht u hp, (inv.closed.prev t u (.inl ht) hp).2⟩,
      fun t u ht hn => ⟨links.next t ht u hn, (inv.closed.next t u (.inl ht) hn).2⟩⟩
  refine ⟨l.mono (List.Sublist.refl _) (fun t ht => (hnames t (l.lt t ht)).1) hfresh,
    (makePlan_linksClosed l.nodup l.lt l.old_inj closed links.unchecked h).congr (fun t => ?_)
      (fun _ _ => rfl) (fun _ _ => rfl), inv.edit, ?_⟩
  · constructor
    · rintro (ht | ⟨_, ⟨⟩, hf, _⟩)
      · exact .inl ht
      · exact .inr hf
    · rintro (ht | hf)
      · exact .inl ht
      · exact .inr ⟨st.plan, rfl, hf, (f.ok_iff t).mpr (.inr hf)⟩
  · rintro _ ⟨⟩
    exact ⟨fun t ht => ((f.ok_iff t).mp ht).imp_left fun h => h.1, fun t ht => ((f.error_iff t).mp ht).1,
      fun t ht => ((f.noChange_iff t).mp ht).1, fun t ht => ⟨(f.created t ht).1, (f.created t ht).2.1⟩,
      f.specs_nodup⟩

/-- `apply_plan` completes `t`. -/
theorem complete {plan : ApplyPlan} {kept rest : List SpecId} {t : SpecId} {w : ApplyState φ}
    {fs : FileSys φ} (inv : LiveInv (s.applied plan (kept ++ t :: rest) w))
    (hedit : ∀ u ∈ s.editFileList, u ≠ t) (hp : w.heap.prevSpec t = none) :
    LiveInv (s.applied plan (kept ++ rest) (w.complete t fs)) := by
  have p := inv.plan _ rfl
  have l : ListedOnce w.workFiles w.heap := inv.listed
  have only := linksOnly_freeFileSpec w.heap t
  -- the specs of the plan are distinct, so that no other stands for `t`
  have hnd : (kept ++ t :: (rest ++ plan.error ++ plan.noChange)).Nodup := by
    simpa [ApplyPlan.specs] using p.nodup
  have hout : ∀ u ∈ kept ++ (rest ++ plan.error ++ plan.noChange), u ≠ t := fun u hu =>
    ((mem_remove_iff hnd).mp hu).2
  have hok : (kept ++ t :: rest).Nodup := hnd.sublist (by simp)
  have hmem : ∀ u, u ∈ kept ++ rest ↔ u ∈ kept ++ t :: rest ∧ u ≠ t := fun u => mem_remove_iff hok
  have hlisted : ∀ u, u ∈ w.workFiles.erase t ↔ u ≠ t ∧ u ∈ w.workFiles := fun u => l.nodup.mem_erase_iff
  have hlive : ∀ u, Live (s.applied plan (kept ++ rest) (w.complete t fs)) u ↔
      Live (s.applied plan (kept ++ t :: rest) w) u ∧ u ≠ t := by
    intro u
    simp only [live_applied, ApplyState.complete, hlisted, hmem]
    rw [or_and_right, and_assoc, and_comm (a := u ≠ t)]
  have ht : Live (s.applied plan (kept ++ t :: rest) w) t := by
    have hok : t ∈ kept ++ t :: rest := by simp
    exact live_applied.mpr ((p.ok t hok).imp_right fun hf => ⟨hf, hok⟩)
  refine ⟨?_, ⟨fun u v hu hv => ?_, fun u v hu hv => ?_⟩, fun u hu => ?_, ?_⟩
  · exact (l.links only).mono List.erase_sublist (fun _ _ => rfl) (Nat.le_refl _)
  · obtain ⟨hu, _⟩ := (hlive u).mp hu
    change (w.heap.freeFileSpec t).prevSpec u = some v at hv
    change _ ∧ (w.heap.freeFileSpec t).nextSpec v = some u
    rw [(freeFileSpec_eq hp).2] at hv
    split at hv
    · cases hv
    · rename_i hn
      obtain ⟨hv, hnv⟩ := inv.closed.prev u v hu hv
      refine ⟨(hlive v).mpr ⟨hv, ?_⟩, by rw [freeFileSpec_nextSpec hp]; exact hnv⟩
      rintro rfl
      exact hn hnv
  · obtain ⟨hu, hut⟩ := (hlive u).mp hu
    change (w.heap.freeFileSpec t).nextSpec u = some v at hv
    change _ ∧ (w.heap.freeFileSpec t).prevSpec v = some u
    rw [freeFileSpec_nextSpec hp] at hv
    obtain ⟨hv, hpv⟩ := inv.closed.next u v hu hv
    change w.heap.prevSpec v = some u at hpv
    refine ⟨(hlive v).mpr ⟨hv, ?_⟩, ?_⟩
    · rintro rfl
      rw [hp] at hpv; cases hpv
    · rw [(freeFileSpec_eq hp).2, if_neg, hpv]
      intro hn
      have hpt : w.heap.prevSpec v = some t := (inv.closed.next t v ht hn).2
      rw [hpv] at hpt
      exact hut (Option.some.inj hpt)
  · exact (hlisted u).mpr ⟨hedit u hu, inv.edit u hu⟩
  · rintro _ ⟨⟩
    refine ⟨fun u hu => ?_, fun u hu => ?_, fun u hu => ?_, fun u hu => ?_, ?_⟩
    · obtain ⟨hu, hut⟩ := (hmem u).mp hu
      exact (p.ok u hu).imp_left fun h => (hlisted u).mpr ⟨hut, h⟩
    · exact (hlisted u).mpr ⟨hout u (by simp [hu]), p.error u hu⟩
    · exact (hlisted u).mpr ⟨hout u (by simp [hu]), p.noChange u hu⟩
    · obtain ⟨hW, hlt⟩ := p.free u hu
      exact ⟨fun h => hW ((hlisted u).mp h).2, Nat.lt_of_lt_of_eq hlt only.fresh.symm⟩
    · have := (List.nodup_cons.mp (List.nodup_middle.mp hnd)).2
      simpa [ApplyPlan.specs] using this

theorem applyCommand {env : ApplyEnv} (inv : LiveInv s) (ok : KeepsLive setup s (.apply env)) :
    LiveInv (s.applyCommand setup env).session := by
  unfold Session.applyCommand
  cases hplan : s.plan with
  | none => exact inv
  | some plan =>
    have start : LiveInv (s.applied plan plan.ok ⟨s.heap, s.workFiles, s.fs⟩) := by
      rw [Session.applied, ← hplan]; exact inv
    dsimp only
    rw [applyPlan_plan]
    refine (applyPlan_rule (P := fun _ => True)
      (I := fun kept w => LiveInv (s.applied plan kept w) ∧ ∀ u ∈ s.editFileList, u ∉ kept)
      (fun kept t rest w fs ⟨inv, hedit⟩ _ hp _ => ?_) (fun _ _ _ _ _ _ _ _ => trivial) env
      ⟨start, ok plan hplan⟩).1.1
    refine ⟨inv.complete (fun u hu => ?_) hp, fun u hu hmem => hedit u hu ?_⟩
    · rintro rfl
      exact hedit u hu (by simp)
    · simp only [List.mem_append, List.mem_cons] at hmem ⊢
      exact hmem.imp_right .inr

theorem step (inv : LiveInv s) (ok : KeepsLive setup s e) (h : s.step setup e = some r) :
    LiveInv r.session := by
  cases e with
  | list ls => cases h; exact inv.list ls
  | importFile file =>
    cases h
    match file with
    | none => exact inv
    | some (lines, true) => exact inv.importFails lines
    | some (lines, false) => exact inv.importFiles ok.1 ok.2
  | edit all env =>
    obtain ⟨_, rfl | ⟨d, hd, _, ⟨_, hs, _⟩ | ⟨hres, st, hst, _, hs⟩⟩⟩ := editCommand_run h
    · exact inv
    · rw [hs]; exact inv.editFiles hd
    · rw [hs]; exact (inv.editFiles hd).makePlan (ok d hd hres) hst
  | plan => cases h; exact inv
  | apply env => cases h; exact inv.applyCommand ok
  | setFormat format => cases h; exact ⟨inv.listed, inv.closed, inv.edit, inv.plan⟩
  | setOptions options indicator => cases h; exact ⟨inv.listed, inv.closed, inv.edit, inv.plan⟩
  | setSimulate simulate => cases h; exact ⟨inv.listed, inv.closed, inv.edit, inv.plan⟩

theorem initial (fs : FileSys φ) (simulate : Bool) (format : EditFormat) (options : FormatOptions) :
    LiveInv (Session.initial fs simulate format options) := by
  refine ⟨listedOnce_initial fs simulate format options, .of_none ?_, nofun, nofun⟩
  rintro t (⟨⟨⟩⟩ | ⟨_, ⟨⟩, _⟩)

end LiveInv

/-- In any session that keeps to `KeepsLive` nothing leads to a discarded spec. -/
theorem noDangling_runs {setup : Setup} {fs : FileSys φ} {simulate : Bool} {format : EditFormat}
    {options : FormatOptions} {es : List Event} {s : Session φ}
    (h : Runs (Session.next setup) (KeepsLive setup) (.initial fs simulate format options) es s) :
    NoDangling s := by
  have inv : LiveInv s :=
    runs_invariant h (fun _ _ _ inv ok hr => inv.step ok hr) (.initial fs simulate format options)
  exact inv.noDangling

/-- Two files exchange their names, and the second of the three commands fails. -/
theorem noDangling_runs_swap :
    let setup := asciiSetup .qmv
    let s := listed ((Table.empty.put [97] 1).put [98] 2) [[97], [98]]
    ∃ s' r, s.next setup (editLines true [[98], [97]]) = some s' ∧
      s'.step setup (.apply { outcome := fun i => if i = 1 then .failed else .done }) = some r ∧
      r.launched.length = 2 ∧ NoDangling r.session := by
  intro setup s
  have hlen : ((s.next setup (editLines true [[98], [97]])).any fun s' => s'.editFileList = [] ∧
      (s'.step setup (.apply { outcome := fun i => if i = 1 then .failed else .done })).any
        (·.launched.length = 2)) = true := by
    decide +kernel
  obtain ⟨s', hs', h⟩ := (Option.any_eq_true _ _).mp hlen
  obtain ⟨hnil, h⟩ := decide_eq_true_eq.mp h
  obtain ⟨r, hr, hlen⟩ := (Option.any_eq_true _ _).mp h
  refine ⟨s', r, hs', hr, by simpa using hlen, ?_⟩
  refine noDangling_runs (runs_listed trivial (.cons ?_ hs' (.cons ?_ (Option.map_eq_some_iff.mpr ⟨r, hr, rfl⟩)
    (.nil _))))
  · intro d hd _
    exact .of_none (editFiles_listed_fresh (by decide) hd)
  · intro _ _ t ht
    rw [hnil] at ht; cases ht

/-- A file is imported while another is planned to be renamed, which leads to the old list. -/
theorem dangling_after_import :
    let setup := asciiSetup .qmv
    let fs : FileSys Nat := Table.empty.put [97] 1
    ¬ ∀ es s, Runs (Session.next setup)
      (fun _ e => (∀ f, e ≠ .setFormat f) ∧ (∀ o indicator, e ≠ .setOptions o indicator) ∧ ∀ b, e ≠ .setSimulate b)
      (.initial fs false .destinationOnly {}) es s → NoDangling s := by
  intro setup fs claim
  have h : (([.list (some [([], [97])]), editLines true [[120]], .importFile (some ([[98]], false))].foldlM
      (Session.next setup) (.initial fs false .destinationOnly {})).any fun s =>
        s.workFiles = [1] ∧ s.plan.any fun plan => plan.ok = [0] ∧ plan.freeSpec = []) = true := by
    decide
  obtain ⟨s, hs, h⟩ := (Option.any_eq_true _ _).mp h
  obtain ⟨hW, h⟩ := decide_eq_true_eq.mp h
  obtain ⟨plan, hplan, h⟩ := (Option.any_eq_true _ _).mp h
  obtain ⟨hok, hfree⟩ := decide_eq_true_eq.mp h
  have hlive : Live s 0 := (claim _ s (.of_foldlM (by simp [editLines]) hs)).inList 0
    (.inr ⟨plan, hplan, by simp [ApplyPlan.specs, hok]⟩)
  rcases hlive with h0 | ⟨plan', hplan', h0, _⟩
  · rw [hW] at h0; simp at h0
  · rw [hplan] at hplan'
    cases hplan'
    rw [hfree] at h0; cases h0

end Renameutils
