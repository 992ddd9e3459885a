import Mathlib.Data.List.Induction
import Mathlib.Data.List.Nodup
import Mathlib.Data.List.Perm.Subperm
import Mathlib.Logic.Relation
import Mathlib.Logic.Relator

/-!
# Chains of a one-to-one relation

`R a b` reads "`b` comes after `a`". When no element comes after two others (`LeftUnique`) and
there are finitely many elements, the chain from `a` either ends or returns to `a`
(`endsAt_or_returns`): it can not run into a circle that `a` is not on.
-/

namespace Chain

open Relation Relator

variable {α : Type} {R : α → α → Prop} {a b c t u x : α} {l l' : List α}

/-- The chain from `a` ends at `t`. -/
def EndsAt (R : α → α → Prop) (a t : α) : Prop := ReflTransGen R a t ∧ ∀ u, ¬ R t u

/-- The chain from `a` returns to `a`. -/
def Returns (R : α → α → Prop) (a : α) : Prop := TransGen R a a

/-- `l` lists the elements after `a` up to `b`. -/
def Walk (R : α → α → Prop) : α → List α → α → Prop
  | a, [], b => a = b
  | a, x :: l, b => R a x ∧ Walk R x l b

/-! ### Chains that end or return -/

theorem EndsAt.head (hab : R a b) (h : EndsAt R b t) : EndsAt R a t :=
  ⟨ReflTransGen.head hab h.1, h.2⟩

theorem EndsAt.of_rel (hr : RightUnique R) (hab : R a b) (h : EndsAt R a t) : EndsAt R b t := by
  rcases ReflTransGen.cases_head h.1 with rfl | ⟨c, hac, hct⟩
  · exact absurd hab (h.2 b)
  · rw [hr hab hac]; exact ⟨hct, h.2⟩

theorem Returns.of_rel (hr : RightUnique R) (hab : R a b) (h : Returns R a) : Returns R b := by
  obtain ⟨c, hac, hca⟩ := TransGen.head'_iff.mp h
  rw [hr hab hac]
  exact TransGen.tail' hca (hr hab hac ▸ hac)

theorem Returns.of_reflTransGen (hr : RightUnique R) (h : Returns R a) (hab : ReflTransGen R a b) :
    Returns R b := by
  induction hab with
  | refl => exact h
  | tail _ hbc ih => exact ih.of_rel hr hbc

theorem Returns.reaches_back (hr : RightUnique R) (h : Returns R a) (hab : ReflTransGen R a b) :
    ReflTransGen R b a := by
  induction hab with
  | refl => exact .refl
  | @tail b c _ hbc ih =>
    rcases ReflTransGen.cases_head ih with rfl | ⟨d, hbd, hda⟩
    · obtain ⟨d, hbd, hdb⟩ := TransGen.head'_iff.mp h
      rwa [hr hbc hbd]
    · rwa [hr hbc hbd]

theorem EndsAt.unique (hr : RightUnique R) (h : EndsAt R a t) (h' : EndsAt R a u) : t = u := by
  obtain ⟨hat, ht⟩ := h
  induction hat using ReflTransGen.head_induction_on with
  | refl =>
    rcases ReflTransGen.cases_head h'.1 with rfl | ⟨c, hc, _⟩
    · rfl
    · exact absurd hc (ht c)
  | head hab _ ih => exact ih (h'.of_rel hr hab)

theorem EndsAt.not_returns (hr : RightUnique R) (h : EndsAt R a t) : ¬ Returns R a := by
  intro hret
  obtain ⟨c, htc, _⟩ := TransGen.head'_iff.mp (hret.of_reflTransGen hr h.1)
  exact h.2 c htc

/-! ### Order in a list -/

/-- `a` stands before `b` in `l`. -/
def Before (l : List α) (a b : α) : Prop := ∃ l₁ l₂, l = l₁ ++ b :: l₂ ∧ a ∈ l₁

theorem mem_remove_iff (hnd : (l ++ a :: l').Nodup) : b ∈ l ++ l' ↔ b ∈ l ++ a :: l' ∧ b ≠ a := by
  have hout := (List.nodup_cons.mp (List.nodup_middle.mp hnd)).1
  rw [List.perm_middle.mem_iff, List.mem_cons]
  constructor
  · intro hb; exact ⟨.inr hb, fun h => hout (h ▸ hb)⟩
  · rintro ⟨h1, h2⟩; exact h1.resolve_left h2

namespace Before
variable {l : List α} {a b : α}

theorem append_right (h : Before l a b) (l' : List α) : Before (l ++ l') a b := by
  obtain ⟨l₁, l₂, rfl, ha⟩ := h
  exact ⟨l₁, l₂ ++ l', by simp, ha⟩

theorem append_left (h : Before l a b) (l' : List α) : Before (l' ++ l) a b := by
  obtain ⟨l₁, l₂, rfl, ha⟩ := h
  exact ⟨l' ++ l₁, l₂, by simp, List.mem_append_right _ ha⟩

theorem snoc (ha : a ∈ l) : Before (l ++ [b]) a b := ⟨l, [], rfl, ha⟩

theorem mem_left (h : Before l a b) : a ∈ l := by
  obtain ⟨l₁, l₂, rfl, ha⟩ := h
  exact List.mem_append_left _ ha

theorem remove {c : α} {l' : List α} (h : Before (l ++ c :: l') a b) (ha : a ≠ c) (hb : b ≠ c) :
    Before (l ++ l') a b := by
  obtain ⟨l₁, l₂, heq, hm⟩ := h
  rcases List.append_eq_append_iff.mp heq with ⟨m, rfl, hl⟩ | ⟨m, rfl, hl⟩
  · cases m with
    | nil => simp only [List.nil_append, List.cons.injEq] at hl; exact absurd hl.1.symm hb
    | cons d m =>
      simp only [List.cons_append, List.cons.injEq] at hl
      obtain ⟨rfl, rfl⟩ := hl
      refine ⟨l ++ m, l₂, by simp, ?_⟩
      rcases List.mem_append.mp hm with hm | hm
      · exact List.mem_append_left _ hm
      · exact List.mem_append_right _ ((List.mem_cons.mp hm).resolve_left ha)
  · cases m with
    | nil => simp only [List.nil_append, List.cons.injEq] at hl; exact absurd hl.1 hb
    | cons d m =>
      simp only [List.cons_append, List.cons.injEq] at hl
      obtain ⟨rfl, rfl⟩ := hl
      exact ⟨l₁, m ++ l', by simp, hm⟩

theorem not_head (hnd : (b :: l).Nodup) : ¬ Before (b :: l) a b := by
  rintro ⟨l₁, l₂, heq, ha⟩
  cases l₁ with
  | nil => cases ha
  | cons c l₁ =>
    simp only [List.cons_append, List.cons.injEq] at heq
    exact (List.nodup_cons.mp hnd).1 (by rw [heq.2]; simp)

theorem filter {p : α → Bool} (h : Before l a b)
    (ha : p a = true) (hb : p b = true) : Before (l.filter p) a b := by
  obtain ⟨l₁, l₂, rfl, hm⟩ := h
  refine ⟨l₁.filter p, l₂.filter p, ?_, List.mem_filter.mpr ⟨hm, ha⟩⟩
  rw [List.filter_append, List.filter_cons, if_pos hb]

theorem flatMap {β : Type} {f : β → List α} {m : List β} {x : β} (h : Before (f x) a b) (hx : x ∈ m) :
    Before (m.flatMap f) a b := by
  obtain ⟨m₁, m₂, rfl⟩ := List.append_of_mem hx
  rw [List.flatMap_append, List.flatMap_cons]
  exact (h.append_right _).append_left _

end Before

/-! ### Walks -/

namespace Walk

theorem reflTransGen : ∀ {a : α} {l : List α}, Walk R a l b → ReflTransGen R a b
  | _, [], rfl => .refl
  | _, _ :: _, ⟨hax, h⟩ => .head hax h.reflTransGen

theorem snoc : ∀ {a : α} {l : List α}, Walk R a l b → R b c → Walk R a (l ++ [c]) c
  | _, [], rfl, hbc => ⟨hbc, rfl⟩
  | _, _ :: _, ⟨hax, h⟩, hbc => ⟨hax, h.snoc hbc⟩

theorem append_singleton_iff : ∀ {a : α} {l : List α},
    Walk R a (l ++ [x]) b ↔ x = b ∧ ∃ c, Walk R a l c ∧ R c x
  | a, [] => by simp [Walk, and_comm]
  | a, y :: l => by
    simp only [List.cons_append, Walk, append_singleton_iff (l := l)]
    constructor
    · rintro ⟨hay, rfl, c, hc, hcx⟩; exact ⟨rfl, c, ⟨hay, hc⟩, hcx⟩
    · rintro ⟨rfl, c, ⟨hay, hc⟩, hcx⟩; exact ⟨hay, rfl, c, hc, hcx⟩

theorem last_mem : ∀ {a : α} {l : List α}, Walk R a l b → b ∈ a :: l
  | _, [], rfl => by simp
  | _, _ :: _, ⟨_, h⟩ => List.mem_cons_of_mem _ h.last_mem

theorem imp_of_mem {R' : α → α → Prop} : ∀ {a : α} {l : List α},
    (∀ x y, x ∈ a :: l → y ∈ l → R x y → R' x y) → Walk R a l b → Walk R' a l b
  | _, [], _, h => h
  | _, x :: _, hR, ⟨hax, h⟩ => ⟨hR _ x (by simp) (by simp) hax, h.imp_of_mem fun y z hy hz =>
      hR y z (List.mem_cons_of_mem _ hy) (List.mem_cons_of_mem _ hz)⟩

theorem imp_start {a' : α} (hR : ∀ x, R a x → R a' x) (hl : l ≠ []) (h : Walk R a l b) :
    Walk R a' l b := by
  cases l with
  | nil => exact absurd rfl hl
  | cons x l => exact ⟨hR x h.1, h.2⟩

/-- The steps of a walk without repetition do not start at its end. -/
theorem imp_of_nodup {R' : α → α → Prop} : ∀ {a : α} {l : List α}, (a :: l).Nodup →
    (∀ x y, x ∈ a :: l → x ≠ b → y ∈ l → R x y → R' x y) → Walk R a l b → Walk R' a l b
  | _, [], _, _, h => h
  | a, x :: l, hnd, hR, ⟨hax, h⟩ => by
    obtain ⟨ha, hnd⟩ := List.nodup_cons.mp hnd
    refine ⟨hR a x (by simp) (fun hab => ha (hab ▸ h.last_mem)) (by simp) hax, ?_⟩
    exact h.imp_of_nodup hnd fun y z hy hyb hz =>
      hR y z (List.mem_cons_of_mem _ hy) hyb (List.mem_cons_of_mem _ hz)

theorem reverse : ∀ {a : α} {l : List α}, Walk R a (l ++ [c]) c → Walk (flip R) c (l.reverse ++ [a]) a
  | _, [], ⟨hac, _⟩ => ⟨hac, rfl⟩
  | _, _ :: _, ⟨hax, h⟩ => by
    rw [List.reverse_cons]
    exact h.reverse.snoc hax

/-- Every element of a walk after its start has its predecessor on the walk. -/
theorem exists_pred : ∀ {a : α} {l : List α}, Walk R a l b → x ∈ l →
    ∃ l₁ y l₂, a :: l = l₁ ++ y :: x :: l₂ ∧ R y x
  | a, y :: l, ⟨hay, h⟩, hx => by
    rcases List.mem_cons.mp hx with rfl | hx
    · exact ⟨[], a, l, rfl, hay⟩
    · obtain ⟨l₁, z, l₂, heq, hzx⟩ := h.exists_pred hx
      exact ⟨a :: l₁, z, l₂, by rw [heq]; rfl, hzx⟩

theorem getLast_eq : ∀ {a : α} {l : List α}, Walk R a l b → (a :: l).getLast? = some b
  | _, [], rfl => rfl
  | _, _ :: _, ⟨_, h⟩ => by rw [List.getLast?_cons_cons]; exact h.getLast_eq

/-- A walk that does not come back to its start has no element twice. -/
theorem nodup (hl : LeftUnique R) (h : Walk R a l b) (ha : a ∉ l) : (a :: l).Nodup := by
  induction l using List.reverseRecOn generalizing b with
  | nil => simp
  | append_singleton l x ih =>
    obtain ⟨rfl, c, hc, hcx⟩ := append_singleton_iff.mp h
    have hnd := ih hc fun hm => ha (by simp [hm])
    rw [← List.cons_append]
    refine List.nodup_append.mpr ⟨hnd, by simp, ?_⟩
    rintro y hy z hz rfl
    obtain rfl := List.mem_singleton.mp hz
    rcases List.mem_cons.mp hy with rfl | hy
    · exact ha (by simp)
    -- `y` comes after `c`, the last element, and after some element before it
    obtain ⟨l₁, d, l₂, heq, hdy⟩ := hc.exists_pred hy
    obtain rfl := hl hcx hdy
    have hlast := hc.getLast_eq
    rw [heq] at hnd hlast
    have hmem : c ∈ y :: l₂ := by
      rw [List.getLast?_append_cons, List.getLast?_cons_cons] at hlast
      exact List.mem_of_getLast? hlast
    exact (List.nodup_cons.mp (List.nodup_append.mp hnd).2.1).1 hmem

theorem length_le (hl : LeftUnique R) {U : List α} (hU : ∀ a b, R a b → b ∈ U)
    (h : Walk R a l b) (ha : a ∉ l) : l.length ≤ U.length := by
  have hnd := (List.nodup_cons.mp (h.nodup hl ha)).2
  refine (hnd.subperm fun x hx => ?_).length_le
  obtain ⟨_, y, _, _, hyx⟩ := h.exists_pred hx
  exact hU y x hyx

/-- A walk whose last element leads back to its start can not be left. -/
theorem closed (hr : RightUnique R) {d : α} : ∀ {a : α} {l : List α}, Walk R a l b → R b d →
    x ∈ a :: l → R x c → c ∈ d :: l
  | _, [], rfl, hbd, ha, hxc => by
    obtain rfl := List.mem_singleton.mp ha
    rw [hr hxc hbd]; simp
  | _, y :: l, ⟨hay, h⟩, hbd, ha, hxc => by
    rcases List.mem_cons.mp ha with rfl | ha
    · rw [hr hxc hay]; simp
    · rcases List.mem_cons.mp (h.closed hr hbd ha hxc) with h | h <;> simp [h]

theorem and {S : α → α → Prop} : ∀ {a : α} {l : List α}, Walk R a l b → Walk S a l b →
    Walk (fun x y => R x y ∧ S x y) a l b
  | _, [], h, _ => h
  | _, _ :: _, ⟨hax, h⟩, ⟨hax', h'⟩ => ⟨⟨hax, hax'⟩, h.and h'⟩

theorem exists_succ : ∀ {a : α} {l : List α}, Walk R a l b → x ∈ a :: l → x = b ∨ ∃ y ∈ l, R x y
  | _, [], rfl, hx => .inl (List.mem_singleton.mp hx)
  | _, y :: l, ⟨hay, h⟩, hx => by
    rcases List.mem_cons.mp hx with rfl | hx
    · exact .inr ⟨y, by simp, hay⟩
    · exact (h.exists_succ hx).imp_right fun ⟨z, hz, hxz⟩ => ⟨z, List.mem_cons_of_mem _ hz, hxz⟩

theorem before (hw : Walk R a l b) (hx : x ∈ l) : ∃ y, Before (a :: l) y x ∧ R y x := by
  obtain ⟨l₁, y, l₂, heq, hyx⟩ := hw.exists_pred hx
  exact ⟨y, ⟨l₁ ++ [y], l₂, by simp [heq], by simp⟩, hyx⟩

theorem transGen : ∀ {a : α} {l : List α}, Walk R a l b → x ∈ l → TransGen R a x
  | _, y :: _, ⟨hay, h⟩, hx => by
    rcases List.mem_cons.mp hx with rfl | hx
    · exact .single hay
    · exact .head hay (h.transGen hx)

end Walk

theorem exists_walk (h : ∀ t, ¬ EndsAt R a t) (n : Nat) : ∃ l b, l.length = n ∧ Walk R a l b := by
  induction n with
  | zero => exact ⟨[], a, rfl, rfl⟩
  | succ n ih =>
    obtain ⟨l, b, hlen, hw⟩ := ih
    have hb := h b
    simp only [EndsAt, hw.reflTransGen, true_and, not_forall, not_not] at hb
    obtain ⟨u, hu⟩ := hb
    exact ⟨l ++ [u], u, by simp [hlen], hw.snoc hu⟩

theorem endsAt_or_returns (hl : LeftUnique R) {U : List α} (hU : ∀ a b, R a b → b ∈ U) (a : α) :
    (∃ t, EndsAt R a t) ∨ Returns R a := by
  by_contra hno
  obtain ⟨hend, hret⟩ := not_or.mp hno
  obtain ⟨l, b, hlen, hw⟩ := exists_walk (not_exists.mp hend) (U.length + 1)
  have := hw.length_le hl hU fun ha => hret (hw.transGen ha)
  omega

end Chain
