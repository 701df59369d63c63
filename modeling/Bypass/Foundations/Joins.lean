import Mathlib

/-!
# Joined lists

What `List.splitOn` and `List.intercalate` do to lists of lists.

* `not_mem_of_mem_splitOn`: the pieces of a split do not hold what was split at.
* `intercalate_flatMap`: a join of joins is one join, when the empty joins are left out.
-/

namespace Bypass

/-- No piece of a split holds what was split at. -/
theorem not_mem_of_mem_splitOn {α : Type} [DecidableEq α] {a : α} {l piece : List α}
    (h : piece ∈ l.splitOn a) : a ∉ piece := by
  induction l generalizing piece with
  | nil =>
    obtain rfl : piece = [] := by simpa using h
    exact List.not_mem_nil
  | cons b l ih =>
    obtain ⟨first, rest, hsplit⟩ := List.exists_cons_of_ne_nil (List.splitOn_ne_nil a l)
    have hfirst : a ∉ first := ih (hsplit ▸ List.mem_cons_self)
    have hrest : ∀ p ∈ rest, a ∉ p := fun p hp => ih (hsplit ▸ List.mem_cons_of_mem _ hp)
    rw [List.splitOn_cons_eq_if_modifyHead, hsplit] at h
    split_ifs at h with hb
    · rcases List.mem_cons.1 h with rfl | h
      · exact List.not_mem_nil
      · exact (List.mem_cons.1 h).elim (fun he => he ▸ hfirst) (hrest piece)
    · rcases List.mem_cons.1 h with rfl | h
      · have hab : a ≠ b := fun he => hb (by simp [he])
        simp [hab, hfirst]
      · exact hrest piece h

theorem intercalate_append {α : Type} (sep : List α) {l l' : List (List α)} (h : l ≠ [])
    (h' : l' ≠ []) : sep.intercalate (l ++ l') = sep.intercalate l ++ sep ++ sep.intercalate l' := by
  induction l with
  | nil => exact absurd rfl h
  | cons x l ih =>
    cases l with
    | nil => simp [List.intercalate_cons_of_ne_nil h']
    | cons y l =>
      have hrest := ih (by simp)
      simp only [List.cons_append] at hrest
      simp [hrest]

theorem intercalate_eq_nil {α : Type} {sep : List α} {l : List (List α)} (h : ∀ x ∈ l, x ≠ []) :
    sep.intercalate l = [] ↔ l = [] := by
  cases l with
  | nil => simp
  | cons x l =>
    have hx : x ≠ [] := h x List.mem_cons_self
    cases l with
    | nil => simp [hx]
    | cons y l => simp [hx]

theorem mem_of_mem_intercalate {α : Type} {sep : List α} {l : List (List α)} {a : α}
    (h : a ∈ sep.intercalate l) : a ∈ sep ∨ ∃ x ∈ l, a ∈ x := by
  induction l with
  | nil => simp at h
  | cons x l ih =>
    by_cases hl : l = []
    · rw [hl, List.intercalate_singleton] at h
      exact Or.inr ⟨x, List.mem_cons_self, h⟩
    · rw [List.intercalate_cons_of_ne_nil hl, List.mem_append, List.mem_append] at h
      rcases h with (h | h) | h
      · exact Or.inr ⟨x, List.mem_cons_self, h⟩
      · exact Or.inl h
      · exact (ih h).imp_right fun ⟨y, hy, ha⟩ => ⟨y, List.mem_cons_of_mem x hy, ha⟩

theorem mem_intercalate_of_mem {α : Type} {sep : List α} {l : List (List α)} {x : List α} {a : α}
    (hx : x ∈ l) (ha : a ∈ x) : a ∈ sep.intercalate l := by
  induction l with
  | nil => cases hx
  | cons y l ih =>
    by_cases hl : l = []
    · subst hl
      rw [List.mem_singleton.1 hx] at ha
      rwa [List.intercalate_singleton]
    · rw [List.intercalate_cons_of_ne_nil hl, List.mem_append, List.mem_append]
      rcases List.mem_cons.1 hx with rfl | hx
      · exact Or.inl (Or.inl ha)
      · exact Or.inr (ih hx)

/-- A join of joins, of which the empty ones are left out. -/
theorem intercalate_flatMap {α β : Type} [DecidableEq β] (sep : List β) (f : α → List (List β))
    (l : List α) (hne : ∀ a ∈ l, ∀ x ∈ f a, x ≠ []) : sep.intercalate (l.flatMap f) =
      sep.intercalate ((l.map fun a => sep.intercalate (f a)).filter (· ≠ [])) := by
  induction l with
  | nil => rfl
  | cons a l ih =>
    obtain ⟨ha, hl⟩ := List.forall_mem_cons.1 hne
    have hempty := @intercalate_eq_nil β sep (f a) ha
    rw [List.flatMap_cons, List.map_cons]
    by_cases hfa : f a = []
    · rw [List.filter_cons_of_neg (by simp [hempty.2 hfa]), hfa, List.nil_append, ih hl]
    · have hjoin : sep.intercalate (f a) ≠ [] := fun h => hfa (hempty.1 h)
      rw [List.filter_cons_of_pos (by simpa using hjoin)]
      by_cases hrest : l.flatMap f = []
      · have hnone := ih hl
        rw [hrest, List.intercalate_nil, eq_comm, intercalate_eq_nil (by simp)] at hnone
        rw [hrest, hnone, List.append_nil, List.intercalate_singleton]
      · have hsome : (l.map fun a => sep.intercalate (f a)).filter (· ≠ []) ≠ [] := fun hnil => by
          have hmem : ∀ x ∈ l.flatMap f, x ≠ [] := fun x hx => by
            obtain ⟨b, hb, hxb⟩ := List.mem_flatMap.1 hx
            exact hl b hb x hxb
          have hnone := ih hl
          rw [hnil, List.intercalate_nil, intercalate_eq_nil hmem] at hnone
          exact hrest hnone
        rw [intercalate_append sep hfa hrest, ih hl, List.intercalate_cons_of_ne_nil hsome]

end Bypass
