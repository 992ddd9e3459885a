import Renameutils.PlanCount

/-!
# The outcome of each spec in a fresh qmv plan

For unchecked specs with distinct old names, `make_plan` gives each spec the outcome that the chain of
renamings from it decides: the chain ends at a free destination, ends at one that exists, or returns.
The order of the list does not matter.
-/

namespace Renameutils
open Chain Relator

/-- Another spec of `W` has the new name of `s`. -/
def SharesNew (W : List SpecId) (h : Heap) (s : SpecId) : Prop :=
  ∃ t ∈ W, t ≠ s ∧ h.newName t = h.newName s

/-- The specs that the scans leave for the ordering: they share no new name with another spec, their old
name exists and differs from the new one. -/
structure Remaining (fileExists : CString → Bool) (W : List SpecId) (h : Heap) (s : SpecId) : Prop where
  mem : s ∈ W
  alone : ¬ SharesNew W h s
  old_exists : fileExists (h.oldName s) = true
  old_ne : h.oldName s ≠ h.newName s

/-- The chain `s = t₀, t₁, …` of renamings goes from each spec to the one whose old name is its new
name. -/
abbrev Onto (fileExists : CString → Bool) (W : List SpecId) (h : Heap) : SpecId → SpecId → Prop :=
  MovesOnto h (Remaining fileExists W h)

/-- The outcome that `make_plan` gives to `s`; `cuts` are the circular sets of the plan. -/
structure Classified (fileExists : CString → Bool) (W : List SpecId) (h : Heap) (st : PlanState)
    (cuts : List Cut) (s : SpecId) : Prop where
  duplicate : st.heap.status s = .duplicate ↔ SharesNew W h s
  oldMissing : st.heap.status s = .oldMissing ↔ ¬ SharesNew W h s ∧ fileExists (h.oldName s) = false
  noChange : st.heap.status s = .noChange ↔
    ¬ SharesNew W h s ∧ fileExists (h.oldName s) = true ∧ h.oldName s = h.newName s
  apply : st.heap.status s = .apply ∧ s ∈ st.plan.ok ↔
    Remaining fileExists W h s ∧ ∃ t, EndsAt (Onto fileExists W h) s t ∧ fileExists (h.newName t) = false
  newExists : st.heap.status s = .newExists ↔
    Remaining fileExists W h s ∧ ∃ t, EndsAt (Onto fileExists W h) s t ∧ fileExists (h.newName t) = true
  circular : (∃ c ∈ cuts, s ∈ c.members) ↔
    Remaining fileExists W h s ∧ Returns (Onto fileExists W h) s
  error : s ∈ st.plan.error ↔ st.heap.status s ∈ [.duplicate, .oldMissing, .newExists]
  noChange_iff : s ∈ st.plan.noChange ↔ st.heap.status s = .noChange

section
variable {fileExists : CString → Bool} {W : List SpecId} {h : Heap} {st : PlanState} {cuts : List Cut}
  {ts : TopologicState} {T pending errs : List SpecId} {s : SpecId}

theorem shares_iff (hun : ∀ s ∈ W, h.status s = .unchecked) :
    Shares h W s ↔ SharesNew W h s := by
  constructor
  · rintro ⟨t, ht, hne, _, heq⟩; exact ⟨t, ht, hne, heq⟩
  · rintro ⟨t, ht, hne, heq⟩; exact ⟨t, ht, hne, hun t ht, heq⟩

theorem remaining_iff (hnd : W.Nodup) (hun : ∀ s ∈ W, h.status s = .unchecked) :
    Unchecked (scanned fileExists W h).heap W s ↔ Remaining fileExists W h s := by
  rw [Unchecked, unchecked_scanned_iff hnd, shares_iff hun]
  constructor
  · rintro ⟨h1, _, h2, h3, h4⟩; exact ⟨h1, h2, h3, h4⟩
  · rintro ⟨h1, h2, h3, h4⟩; exact ⟨h1, hun s h1, h2, h3, h4⟩

theorem distinct_scanned (hnd : W.Nodup) (hold : ∀ s ∈ W, ∀ t ∈ W, h.oldName s = h.oldName t → s = t) :
    Distinct fileExists (scanned fileExists W h).heap (Unchecked (scanned fileExists W h).heap W) where
  old_inj s t hs ht heq := by
    rw [(scanned_only hnd).oldName] at heq
    exact hold s hs.1 t ht.1 heq
  new_inj := (newDistinct_scanned fileExists W h).new_inj
  old_exists s hs := by
    rw [(scanned_only hnd).oldName]
    exact ((unchecked_scanned_iff hnd).mp hs).2.2.2.1
  old_ne := (newDistinct_scanned fileExists W h).old_ne

theorem movesOnto_scanned (hnd : W.Nodup) (hun : ∀ s ∈ W, h.status s = .unchecked) :
    MovesOnto (scanned fileExists W h).heap (Unchecked (scanned fileExists W h).heap W) =
      Onto fileExists W h := by
  funext a b
  simp only [MovesOnto, remaining_iff hnd hun, (scanned_only hnd).oldName, (scanned_only hnd).newName]

namespace Distinct
variable {R : SpecId → Prop}

theorem rightUnique (D : Distinct fileExists h R) : RightUnique (MovesOnto h R) := by
  rintro a b c ⟨_, hb, hab⟩ ⟨_, hc, hac⟩
  exact D.old_inj b c hb hc (hab.trans hac.symm)

theorem leftUnique (D : Distinct fileExists h R) : LeftUnique (MovesOnto h R) := by
  rintro a b c ⟨ha, _, hac⟩ ⟨hb, _, hbc⟩
  exact D.new_inj a b ha hb (hac.symm.trans hbc)

end Distinct

namespace Ordered

theorem unchecked_pending (o : Ordered fileExists W h ts T pending cuts errs st) :
    Unchecked ts.st.heap W s ↔ s ∈ pending := by
  have b := o.topologic.base
  constructor
  · rintro ⟨hs, hu⟩
    rw [b.status] at hu
    split at hu
    · cases hu
    · rename_i hT
      exact (List.mem_append.mp ((b.mem_iff s).mpr ⟨hs, hu⟩)).resolve_left hT
  · intro hp
    obtain ⟨hs, hu⟩ := b.unchecked_of_pending hp
    exact ⟨hs, by rwa [b.status, if_neg (b.notMem_of_pending hp)]⟩

/-- Between pending specs `cross_reference_resolve` follows the chain of renamings. -/
theorem leadsTo_iff (o : Ordered fileExists W h ts T pending cuts errs st)
    (D : Distinct fileExists (scanned fileExists W h).heap (Unchecked (scanned fileExists W h).heap W))
    {a b : SpecId} : LeadsTo W ts.st.heap a b ↔ a ∈ pending ∧ b ∈ pending ∧
      MovesOnto (scanned fileExists W h).heap (Unchecked (scanned fileExists W h).heap W) a b := by
  have base := o.topologic.base
  constructor
  · intro hab
    have ha := o.unchecked_pending.mp hab.1
    have hb := o.unchecked_pending.mp hab.unchecked
    have hname := hab.name
    rw [base.oldName, base.newName] at hname
    exact ⟨ha, hb, base.unchecked_of_pending ha, base.unchecked_of_pending hb, hname⟩
  · rintro ⟨ha, hb, _, _, hname⟩
    have hbu := o.unchecked_pending.mpr hb
    obtain ⟨c, hc⟩ := oldNameMap_isSome hbu.1 hbu.2
    rw [base.oldName, hname, ← base.newName] at hc
    have hac : LeadsTo W ts.st.heap a c := ⟨o.unchecked_pending.mpr ha, hc⟩
    have hcn := hac.name
    rw [base.oldName, base.newName, ← hname] at hcn
    have hcR := base.unchecked_of_pending (o.unchecked_pending.mp hac.unchecked)
    rwa [D.old_inj c b hcR (base.unchecked_of_pending hb) hcn] at hac

theorem returns_iff (o : Ordered fileExists W h ts T pending cuts errs st)
    (D : Distinct fileExists (scanned fileExists W h).heap (Unchecked (scanned fileExists W h).heap W)) :
    Returns (LeadsTo W ts.st.heap) s ↔
      Returns (MovesOnto (scanned fileExists W h).heap (Unchecked (scanned fileExists W h).heap W)) s := by
  constructor
  · exact Relation.TransGen.mono (fun a b hab => ((o.leadsTo_iff D).mp hab).2.2) _ _
  · intro hret
    -- no spec of the circle is in `T`, where every chain ends
    have hpend : ∀ b, Relation.ReflTransGen
        (MovesOnto (scanned fileExists W h).heap (Unchecked (scanned fileExists W h).heap W)) s b →
        b ∈ pending := by
      intro b hsb
      have hb := hret.of_reflTransGen D.rightUnique hsb
      obtain ⟨c, ⟨hbR, _⟩, _⟩ := Relation.TransGen.head'_iff.mp hb
      refine (List.mem_append.mp ((o.topologic.base.mem_iff b).mpr hbR)).resolve_left fun hbT => ?_
      obtain ⟨t, ht, _⟩ := (o.topologic.links D).ends b hbT
      exact ht.not_returns D.rightUnique hb
    suffices ∀ b, Relation.TransGen (MovesOnto (scanned fileExists W h).heap
        (Unchecked (scanned fileExists W h).heap W)) s b →
        Relation.TransGen (LeadsTo W ts.st.heap) s b from this s hret
    intro b hsb
    induction hsb with
    | single hab =>
      exact .single ((o.leadsTo_iff D).mpr ⟨hpend s .refl, hpend _ (.single hab), hab⟩)
    | @tail b c hsb hbc ih =>
      exact ih.tail ((o.leadsTo_iff D).mpr
        ⟨hpend b hsb.to_reflTransGen, hpend c (hsb.tail hbc).to_reflTransGen, hbc⟩)

theorem outcome (o : Ordered fileExists W h ts T pending cuts errs st)
    (D : Distinct fileExists (scanned fileExists W h).heap (Unchecked (scanned fileExists W h).heap W))
    (hlt : ∀ s ∈ W, s < ts.st.heap.fresh) (hs : Unchecked (scanned fileExists W h).heap W s) :
    let onto := MovesOnto (scanned fileExists W h).heap (Unchecked (scanned fileExists W h).heap W)
    let newName := (scanned fileExists W h).heap.newName
    (st.heap.status s = .apply ∧ s ∈ st.plan.ok ∧ s ∉ cuts.flatMap Cut.members ∧
      ∃ t, EndsAt onto s t ∧ fileExists (newName t) = false) ∨
    (st.heap.status s = .newExists ∧ s ∉ cuts.flatMap Cut.members ∧
      ∃ t, EndsAt onto s t ∧ fileExists (newName t) = true) ∨
    (s ∈ cuts.flatMap Cut.members ∧ Returns onto s) := by
  intro onto newName
  have base := o.topologic.base
  rcases List.mem_append.mp ((base.mem_iff s).mpr hs) with hT | hp
  · have hu : ts.st.heap.status s ≠ .unchecked := by rw [base.status, if_pos hT]; decide
    refine .inl ⟨?_, ?_, fun hm => ?_, (o.topologic.links D).ends s hT⟩
    · rw [o.cross.status_of_ne (hlt s hs.1) hu, base.status, if_pos hT]
    · rw [o.cross.plan, base.plan]
      exact List.mem_append_right _ (List.mem_append_right _ hT)
    · exact hu (o.cross.unchecked s (List.mem_append_right _ hm)).2
  · rcases List.mem_append.mp (o.cross.done s (o.unchecked_pending.mpr hp)) with he | hm
    · obtain ⟨h1, _, h2⟩ := o.cross.err s he
      rw [o.returns_iff D] at h2
      refine .inr (.inl ⟨h1, fun hm => ?_, ?_⟩)
      · exact (List.nodup_append.mp o.cross.nodup).2.2 s he s hm rfl
      · obtain ⟨t, ht⟩ := (endsAt_or_returns D.leftUnique (U := W) (fun a b h => h.2.1.1) s).resolve_right h2
        refine ⟨t, ht, ?_⟩
        by_contra hf
        exact base.notMem_of_pending hp
          (o.topologic.mem_of_endsAt D o.stuck hs ht (Bool.not_eq_true _ ▸ hf))
    · refine .inr (.inr ⟨hm, ?_⟩)
      obtain ⟨c, hc, hs⟩ := List.mem_flatMap.mp hm
      obtain ⟨last, hw, hback⟩ := (o.cross.cut c hc).walk
      rw [← o.returns_iff D]
      have hret : Returns (LeadsTo W ts.st.heap) c.member :=
        Relation.TransGen.tail' hw.reflTransGen hback
      rcases List.mem_cons.mp hs with rfl | hs
      · exact hret
      · exact hret.of_reflTransGen LeadsTo.rightUnique (hw.transGen hs).to_reflTransGen

end Ordered

namespace Ordered

theorem classified_of_scanned (o : Ordered fileExists W h ts T pending cuts errs st) (hnd : W.Nodup)
    (hlt : ∀ s ∈ W, s < h.fresh) (hun : ∀ s ∈ W, h.status s = .unchecked) (hs : s ∈ W)
    (hR : ¬ Remaining fileExists W h s) : Classified fileExists W h st cuts s := by
  have hU : ¬ Unchecked (scanned fileExists W h).heap W s := fun hu => hR ((remaining_iff hnd hun).mp hu)
  have f := o.filed hnd hlt
  have hT : s ∉ T := fun h => hU (o.topologic.base.unchecked_of_mem h)
  have hts : ts.st.heap.status s = (scanned fileExists W h).heap.status s := by
    rw [o.topologic.base.status, if_neg hT]
  have hlts : s < ts.st.heap.fresh := by
    rw [o.topologic.base.fresh, (scanned_only hnd).fresh]; exact hlt s hs
  have hst : st.heap.status s = (scanned fileExists W h).heap.status s := by
    rw [← hts]
    exact o.cross.status_of_ne hlts fun hu => hU ⟨hs, hts ▸ hu⟩
  have hmem : ¬ ∃ c ∈ cuts, s ∈ c.members := by
    rintro ⟨c, hc, hm⟩
    have := o.cross.unchecked s (List.mem_append_right _ (List.mem_flatMap.mpr ⟨c, hc, hm⟩))
    exact hU ⟨hs, hts ▸ this.2⟩
  rw [scanned_status hnd, if_pos ⟨hs, hun s hs⟩] at hst
  have hfile := And.intro (f.error_iff s) (f.noChange_iff s)
  by_cases hS : Shares h W s
  · rw [if_pos hS] at hst
    rw [hst] at hfile
    rw [shares_iff hun] at hS
    constructor <;> simp [hst, hS, hR, hmem, hfile, hs, FileSpecStatus.isError]
  · rw [if_neg hS] at hst
    rw [shares_iff hun] at hS
    by_cases he : fileExists (h.oldName s) = false
    · rw [if_pos he] at hst
      rw [hst] at hfile
      constructor <;> simp [hst, hS, he, hR, hmem, hfile, hs, FileSpecStatus.isError]
    · have ho : h.oldName s = h.newName s := by
        by_contra ho; exact hR ⟨hs, hS, by simpa using he, ho⟩
      have hnew : fileExists (h.newName s) = true := by rw [← ho]; simpa using he
      rw [if_neg he, if_pos ho] at hst
      rw [hst] at hfile
      constructor <;> simp [hst, hS, ho, hnew, hR, hmem, hfile, hs, FileSpecStatus.isError]

theorem classified_of_remaining (o : Ordered fileExists W h ts T pending cuts errs st) (hnd : W.Nodup)
    (hlt : ∀ s ∈ W, s < h.fresh) (hun : ∀ s ∈ W, h.status s = .unchecked)
    (hold : ∀ s ∈ W, ∀ t ∈ W, h.oldName s = h.oldName t → s = t)
    (hR : Remaining fileExists W h s) : Classified fileExists W h st cuts s := by
  have D : Distinct fileExists (scanned fileExists W h).heap _ := distinct_scanned hnd hold
  have hlt' : ∀ s ∈ W, s < ts.st.heap.fresh := by
    intro s hs
    rw [o.topologic.base.fresh, (scanned_only hnd).fresh]
    exact hlt s hs
  have f := o.filed hnd hlt
  have hfile := And.intro (f.error_iff s) (f.noChange_iff s)
  have hout := o.outcome D hlt' ((remaining_iff hnd hun).mpr hR)
  rw [movesOnto_scanned hnd hun, (scanned_only hnd).newName] at hout
  have hr : RightUnique (Onto fileExists W h) := movesOnto_scanned hnd hun ▸ D.rightUnique
  have hcirc : (∃ c ∈ cuts, s ∈ c.members) ↔ s ∈ cuts.flatMap Cut.members := List.mem_flatMap.symm
  have hends : ∀ b, (∃ t, EndsAt (Onto fileExists W h) s t ∧ fileExists (h.newName t) = b) →
      ¬ (∃ t, EndsAt (Onto fileExists W h) s t ∧ fileExists (h.newName t) = !b) ∧
        ¬ Returns (Onto fileExists W h) s := by
    rintro b ⟨t, ht, hb⟩
    refine ⟨?_, ht.not_returns hr⟩
    rintro ⟨u, hu, hb'⟩
    rw [ht.unique hr hu, hb'] at hb
    cases b <;> cases hb
  rcases hout with ⟨hst, hok, hm, hA⟩ | ⟨hst, hm, hE⟩ | ⟨hm, hC⟩
  · obtain ⟨hE, hC⟩ := hends false hA
    rw [Bool.not_false] at hE
    rw [hst] at hfile
    constructor <;> simp [hst, hok, hR, hR.mem, hR.alone, hR.old_exists, hR.old_ne, hA, hE, hC, hcirc, hm,
      hfile, FileSpecStatus.isError]
  · obtain ⟨hA, hC⟩ := hends true hE
    rw [Bool.not_true] at hA
    rw [hst] at hfile
    constructor <;> simp [hst, hR, hR.mem, hR.alone, hR.old_exists, hR.old_ne, hA, hE, hC, hcirc, hm, hfile,
      FileSpecStatus.isError]
  · have hA : ¬ ∃ t, EndsAt (Onto fileExists W h) s t ∧ fileExists (h.newName t) = false := fun hA =>
      (hends false hA).2 hC
    have hE : ¬ ∃ t, EndsAt (Onto fileExists W h) s t ∧ fileExists (h.newName t) = true := fun hE =>
      (hends true hE).2 hC
    rcases CrossInv.mem_members_iff.mp hm with hmem | hring
    · have hst := o.cross.status_of_mem_member hmem
      have hok : s ∉ st.plan.ok := by
        rw [f.ok_iff]
        rintro (⟨_, hn, _⟩ | hf)
        · exact hn hmem
        · exact f.notMem_freeSpec hR.mem hf
      rw [hst] at hfile
      constructor <;> simp [hst, hok, hR, hR.mem, hR.alone, hR.old_exists, hR.old_ne, hA, hE, hC, hcirc, hm,
        hfile, FileSpecStatus.isError]
    · have hst := o.cross.status_of_mem_ring hring
      rw [hst] at hfile
      constructor <;> simp [hst, hR, hR.mem, hR.alone, hR.old_exists, hR.old_ne, hA, hE, hC, hcirc, hm,
        hfile, FileSpecStatus.isError]

end Ordered

end

/-- The outcome of each spec of a fresh list, in qmv mode. -/
theorem makePlan_classified (fileExists : CString → Bool) {W : List SpecId} {h : Heap} (hnd : W.Nodup)
    (hlt : ∀ s ∈ W, s < h.fresh)
    (hfresh : ∀ s ∈ W, h.status s = .unchecked ∧ h.prevSpec s = none ∧ h.nextSpec s = none)
    (hold : ∀ s ∈ W, ∀ t ∈ W, h.oldName s = h.oldName t → s = t) :
    (∀ fuel st, makePlan fuel .qmv fileExists W h = some st →
      ∃ cuts, ExactlyOnce W h st cuts ∧ ∀ s ∈ W, Classified fileExists W h st cuts s) ∧
    ∀ F : List CString, (∀ n, fileExists n = true → n ∈ F) →
      ∃ fuel₀, ∀ fuel ≥ fuel₀, makePlan fuel .qmv fileExists W h ≠ none := by
  refine ⟨fun fuel st hm => ?_, fun F hF => ⟨F.length + W.length + 1, fun fuel hfuel => ?_⟩⟩
  · obtain ⟨ts, T, pending, cuts, errs, o⟩ := makePlan_qmv hnd hlt hm
    have hun : ∀ s ∈ W, h.status s = .unchecked := fun s hs => (hfresh s hs).1
    refine ⟨cuts, o.exactlyOnce hnd hlt, fun s hs => ?_⟩
    by_cases hR : Remaining fileExists W h s
    · exact o.classified_of_remaining hnd hlt hun hold hR
    · exact o.classified_of_scanned hnd hlt hun hs hR
  · exact Option.isSome_iff_ne_none.mp (makePlan_isSome hlt .qmv hF (by omega))

/-- A file that moves to a free name, one that moves into its place, and one that stays. -/
theorem makePlan_classified_chain :
    let h := ((Heap.empty.newFileSpec ⟨[97], [98], none, none, .unchecked⟩).newFileSpec
      ⟨[98], [99], none, none, .unchecked⟩).newFileSpec ⟨[100], [100], none, none, .unchecked⟩
    let exist : List CString := [[97], [98], [100]]
    ∃ st cuts, makePlan 10 .qmv (exist.contains ·) [0, 1, 2] h = some st ∧
      ∀ s ∈ [0, 1, 2], Classified (exist.contains ·) [0, 1, 2] h st cuts s := by
  intro h exist
  have hm : (makePlan 10 .qmv (exist.contains ·) [0, 1, 2] h).isSome = true := by decide
  obtain ⟨st, hst⟩ := Option.isSome_iff_exists.mp hm
  obtain ⟨cuts, _, hc⟩ := (makePlan_classified (exist.contains ·) (by decide) (by decide) (by decide)
    (by decide)).1 10 st hst
  exact ⟨st, cuts, hst, hc⟩

end Renameutils
