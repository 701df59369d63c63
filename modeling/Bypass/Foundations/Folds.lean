import Mathlib

/-!
# What a fold leaves in a field

A loop over a list that sets fields of a record. A field that each step sets or leaves alone holds
what was set last; a field that each step may add to holds what was added, in order; a counter
counts.

* `foldl_last`: **the last one wins**.
* `foldl_append`: nothing that is added is lost.
* `foldl_count`: what a counter ends at.
-/

namespace Bypass

variable {α β γ : Type} {step : β → α → β}

/-- The field `get` of the record holds what was set last. -/
theorem foldl_last {get : β → γ} {set : α → Option γ}
    (h : ∀ b a, get (step b a) = (set a).getD (get b)) (l : List α) (b : β) :
    get (l.foldl step b) = (l.filterMap set).getLast?.getD (get b) := by
  induction l generalizing b with
  | nil => rfl
  | cons a l ih =>
    rw [List.foldl_cons, ih, h, List.filterMap_cons]
    cases ha : set a with
    | none => rfl
    | some c =>
      cases hl : (l.filterMap set).getLast? with
      | none =>
        rw [List.getLast?_eq_none_iff.1 hl]
        rfl
      | some d => simp [List.getLast?_cons, hl]

/-- The field `get` of the record holds what was added, after what it held. -/
theorem foldl_append {get : β → List γ} {added : α → Option γ}
    (h : ∀ b a, get (step b a) = get b ++ (added a).toList) (l : List α) (b : β) :
    get (l.foldl step b) = get b ++ l.filterMap added := by
  induction l generalizing b with
  | nil => simp
  | cons a l ih =>
    rw [List.foldl_cons, ih, h, List.filterMap_cons]
    cases added a <;> simp

/-- The field `get` of the record counts the members with `p`. -/
theorem foldl_count {get : β → ℕ} {p : α → Bool}
    (h : ∀ b a, get (step b a) = get b + if p a then 1 else 0) (l : List α) (b : β) :
    get (l.foldl step b) = get b + l.countP p := by
  induction l generalizing b with
  | nil => rfl
  | cons a l ih =>
    rw [List.foldl_cons, ih, h, List.countP_cons]
    omega

end Bypass
