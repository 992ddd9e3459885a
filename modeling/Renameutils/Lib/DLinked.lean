import Renameutils.Lib.Linked

/-!
# Doubly linked nodes

`DLinked next prev before head ids last after`: the nodes `ids` are linked in both directions. From `head` the
links `next` lead through `ids` to `after`, and from `last` the links `prev` lead back through them to `before`.
-/

structure DLinked {ι : Type} (next prev : ι → Option (Option ι)) (before head : Option ι) (ids : List ι)
    (last after : Option ι) : Prop where
  forward : Linked next head ids after
  backward : Linked prev last ids.reverse before

namespace DLinked

variable {ι : Type} {next next' prev prev' : ι → Option (Option ι)} {i : ι} {xs ys ids : List ι}
variable {before head last after p q m n : Option ι}

theorem nil (p q : Option ι) : DLinked next prev p q [] p q := ⟨.nil q, .nil p⟩

theorem nil_eq (h : DLinked next prev before head [] last after) : head = after ∧ last = before :=
  ⟨h.forward.nil_eq, h.backward.nil_eq⟩

theorem single (hnext : next i = some after) (hprev : prev i = some before) :
    DLinked next prev before (some i) [i] (some i) after :=
  ⟨.cons hnext (.nil after), .cons hprev (.nil before)⟩

theorem reverse (h : DLinked next prev before head ids last after) :
    DLinked prev next after last ids.reverse head before :=
  ⟨h.backward, by rw [List.reverse_reverse]; exact h.forward⟩

theorem append (h : DLinked next prev before head xs m n) (h' : DLinked next prev m n ys last after) :
    DLinked next prev before head (xs ++ ys) last after :=
  ⟨h.forward.append h'.forward, by rw [List.reverse_append]; exact h'.backward.append h.backward⟩

theorem cons_inv (h : DLinked next prev before head (i :: ids) last after) :
    head = some i ∧ prev i = some before ∧ ∃ p, next i = some p ∧ DLinked next prev (some i) p ids last after := by
  obtain ⟨rfl, p, hnext, hforward⟩ := h.forward.cons_inv
  have hbackward := h.backward
  rw [List.reverse_cons] at hbackward
  obtain ⟨m, hids, hi⟩ := hbackward.split
  obtain ⟨rfl, q, hprev, hq⟩ := hi.cons_inv
  cases hq
  exact ⟨rfl, hprev, p, hnext, hforward, hids⟩

theorem split (h : DLinked next prev before head (xs ++ ys) last after) :
    ∃ m n, DLinked next prev before head xs m n ∧ DLinked next prev m n ys last after := by
  induction xs generalizing before head with
  | nil => exact ⟨before, head, nil before head, h⟩
  | cons x xs ih =>
    obtain ⟨rfl, hprev, p, hnext, h'⟩ := h.cons_inv
    obtain ⟨m, n, h₁, h₂⟩ := ih h'
    exact ⟨m, n, (single hnext hprev).append h₁, h₂⟩

theorem concat_inv (h : DLinked next prev before head (ids ++ [i]) last after) :
    last = some i ∧ next i = some after ∧ ∃ p, prev i = some p ∧ DLinked next prev before head ids p (some i) := by
  have hrev := h.reverse
  rw [List.reverse_append] at hrev
  obtain ⟨rfl, hnext, p, hprev, h'⟩ := hrev.cons_inv
  exact ⟨rfl, hnext, p, hprev, by simpa using h'.reverse⟩

theorem congr (h : DLinked next prev before head ids last after) (hn : ∀ i ∈ ids, next' i = next i)
    (hp : ∀ i ∈ ids, prev' i = prev i) : DLinked next' prev' before head ids last after :=
  ⟨h.forward.congr hn, h.backward.congr fun i hi => hp i (List.mem_reverse.mp hi)⟩

theorem nodup (h : DLinked next prev none head ids last after) : ids.Nodup :=
  List.nodup_reverse.mp h.backward.nodup

theorem retarget [DecidableEq ι] (h : DLinked next prev none head ids last after)
    (hlast : ∀ i, last = some i → next' i = some q) (hn : ∀ i ∈ ids, last ≠ some i → next' i = next i)
    (hp : ∀ i ∈ ids, prev' i = prev i) : DLinked next' prev' none (if last = none then q else head) ids last q := by
  obtain rfl | ⟨ids, i, rfl⟩ := ids.eq_nil_or_concat'
  · obtain ⟨rfl, rfl⟩ := h.nil_eq
    rw [if_pos rfl]
    exact nil none q
  · have hnd := h.nodup
    obtain ⟨rfl, -⟩ := h.concat_inv
    rw [if_neg (Option.some_ne_none i)]
    refine ⟨h.forward.relink (fun j hj => hn j (List.mem_append_left _ hj) ?_) (hlast i rfl),
      h.backward.congr fun j hj => hp j (List.mem_reverse.mp hj)⟩
    rintro ⟨⟩
    exact (List.nodup_append.mp hnd).2.2 i hj i (List.mem_singleton_self i) rfl

theorem retarget_prev [DecidableEq ι] (h : DLinked next prev before head ids last none)
    (hhead : ∀ i, head = some i → prev' i = some q) (hp : ∀ i ∈ ids, head ≠ some i → prev' i = prev i)
    (hn : ∀ i ∈ ids, next' i = next i) : DLinked next' prev' q head ids (if head = none then q else last) none := by
  have h' := h.reverse.retarget hhead (fun i hi => hp i (List.mem_reverse.mp hi))
    fun i hi => hn i (List.mem_reverse.mp hi)
  simpa using h'.reverse

theorem last_eq_none_iff (h : DLinked next prev none head ids last after) : last = none ↔ ids = [] := by
  obtain rfl | ⟨ids, i, rfl⟩ := ids.eq_nil_or_concat'
  · simp [h.nil_eq.2]
  · simp [h.concat_inv.1]

theorem head_eq_none_iff (h : DLinked next prev before head ids last none) : head = none ↔ ids = [] := by
  cases ids with
  | nil => simp [h.nil_eq.1]
  | cons i ids => simp [h.cons_inv.1]

theorem head?_eq (h : DLinked next prev before head ids last none) : ids.head? = head := by
  cases ids with
  | nil => exact h.nil_eq.1.symm
  | cons i ids => exact h.cons_inv.1.symm

theorem getLast?_eq (h : DLinked next prev none head ids last after) : ids.getLast? = last := by
  have h' := h.reverse.head?_eq
  rwa [List.head?_reverse] at h'

end DLinked
