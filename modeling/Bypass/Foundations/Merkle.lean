import Mathlib

/-!
# Histories as values

A version history whose nodes are named by their content: a node is its payload with its parents,
so a node determines all that came before it, and there are no cycles and no missing parents. The
nodes reachable from one are its `history`.

* `mem_history_iff`, `history_trans`: reachability is the reflexive and transitive closure of
  "is a parent of".
* `history_antisymm`: of two nodes that reach each other, there is only one.
-/

namespace Bypass

/-- A node of a history: its payload, and the nodes it was made from. -/
inductive Merkle (α : Type) where
  | node (payload : α) (parents : List (Merkle α))

namespace Merkle

variable {α : Type}

def payload : Merkle α → α
  | node x _ => x

def parents : Merkle α → List (Merkle α)
  | node _ ps => ps

@[simp] theorem payload_node (x : α) (ps : List (Merkle α)) : (node x ps).payload = x := rfl

@[simp] theorem parents_node (x : α) (ps : List (Merkle α)) : (node x ps).parents = ps := rfl

@[ext] theorem ext {a b : Merkle α} (hx : a.payload = b.payload) (hps : a.parents = b.parents) :
    a = b := by
  cases a
  cases b
  cases hx
  cases hps
  rfl

/-! ## Equality -/

section Equality

variable [DecidableEq α]

mutual

/-- Equality of nodes, -/
def decEq : (a b : Merkle α) → Decidable (a = b)
  | node x ps, node y qs =>
    match decEqList ps qs with
    | isTrue h => if hx : x = y then isTrue (by rw [h, hx]) else isFalse (by simp [hx])
    | isFalse h => isFalse (by simp [h])

/-- and of their lists. -/
def decEqList : (as bs : List (Merkle α)) → Decidable (as = bs)
  | [], [] => isTrue rfl
  | [], _ :: _ => isFalse (by simp)
  | _ :: _, [] => isFalse (by simp)
  | a :: as, b :: bs =>
    match decEq a b with
    | isTrue h =>
      match decEqList as bs with
      | isTrue h' => isTrue (by rw [h, h'])
      | isFalse h' => isFalse (by simp [h'])
    | isFalse h => isFalse (by simp [h])

end

instance : DecidableEq (Merkle α) := decEq

end Equality

/-! ## History -/

mutual

/-- The nodes reachable from a node: itself, and those reachable from its parents. -/
def history : Merkle α → List (Merkle α)
  | node x ps => node x ps :: histories ps

/-- The nodes reachable from one of the list. -/
def histories : List (Merkle α) → List (Merkle α)
  | [] => []
  | p :: ps => history p ++ histories ps

end

theorem history_eq (b : Merkle α) : b.history = b :: histories b.parents := by
  cases b
  rfl

@[simp] theorem mem_history_self (b : Merkle α) : b ∈ b.history := by
  rw [history_eq]
  exact List.mem_cons_self

theorem mem_histories {a : Merkle α} {ps : List (Merkle α)} :
    a ∈ histories ps ↔ ∃ p ∈ ps, a ∈ p.history := by
  induction ps with
  | nil => simp [histories]
  | cons p ps ih => simp only [histories, List.mem_append, ih, List.mem_cons, exists_eq_or_imp]

theorem mem_history_iff {a b : Merkle α} :
    a ∈ b.history ↔ a = b ∨ ∃ p ∈ b.parents, a ∈ p.history := by
  rw [history_eq, List.mem_cons, mem_histories]

theorem sizeOf_parent_lt {p b : Merkle α} (h : p ∈ b.parents) : sizeOf p < sizeOf b := by
  cases b with
  | node x ps =>
    have hlt : sizeOf p < sizeOf ps := List.sizeOf_lt_of_mem h
    simp only [node.sizeOf_spec]
    omega

/-- What is reachable from a node of a history is in that history. -/
theorem history_trans {a b c : Merkle α} (hab : a ∈ b.history) (hbc : b ∈ c.history) :
    a ∈ c.history := by
  induction hn : sizeOf c using Nat.strong_induction_on generalizing c with
  | _ n ih =>
    rcases mem_history_iff.1 hbc with rfl | ⟨p, hp, hbp⟩
    · exact hab
    · exact mem_history_iff.2 (Or.inr ⟨p, hp, ih _ (hn ▸ sizeOf_parent_lt hp) hbp rfl⟩)

theorem sizeOf_le_of_mem_history {a b : Merkle α} (h : a ∈ b.history) : sizeOf a ≤ sizeOf b := by
  induction hn : sizeOf b using Nat.strong_induction_on generalizing b with
  | _ n ih =>
    rcases mem_history_iff.1 h with rfl | ⟨p, hp, hap⟩
    · omega
    · have hlt := sizeOf_parent_lt hp
      have hle := ih _ (hn ▸ hlt) hap rfl
      omega

/-- **Reachability is antisymmetric.** -/
theorem history_antisymm {a b : Merkle α} (hab : a ∈ b.history) (hba : b ∈ a.history) : a = b := by
  rcases mem_history_iff.1 hab with rfl | ⟨p, hp, hap⟩
  · rfl
  · have hlt := sizeOf_parent_lt hp
    have hle := sizeOf_le_of_mem_history hap
    have hge := sizeOf_le_of_mem_history hba
    omega

end Merkle

end Bypass
