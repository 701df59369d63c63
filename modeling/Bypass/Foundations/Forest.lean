import Mathlib

/-!
# Walks through a forest

A walk through a forest of labelled trees, in document order: of the children of a node, it takes
those whose label is sought, enters those whose label it opens, and passes over the others. It meets
a tree at a position, the indices that lead there from the forest, with its ancestors from the
outside in.

* `mem_walk`: **the walk meets every tree that is sought, where all ancestors are opened**.
* `walk_sorted`: the positions increase, so that each is met once, in document order.
* `eq_walk`: these two determine the walk.
-/

namespace Bypass

/-- A tree with a label at each node. -/
inductive Tree (α : Type) where
  | node (label : α) (children : List (Tree α))

variable {α : Type}

def Tree.label : Tree α → α
  | .node label _ => label

def Tree.children : Tree α → List (Tree α)
  | .node _ children => children

@[simp]
theorem Tree.label_node (label : α) (children : List (Tree α)) :
    (Tree.node label children).label = label := rfl

@[simp]
theorem Tree.children_node (label : α) (children : List (Tree α)) :
    (Tree.node label children).children = children := rfl

/-- A tree that a walk meets: its position, its ancestors from the outside in, and itself. -/
structure Occurrence (α : Type) where
  path : List ℕ
  ancestors : List (Tree α)
  tree : Tree α

/-- The tree below the `i`-th one of a forest, which is `t`. -/
def Occurrence.under (t : Tree α) (i : ℕ) (o : Occurrence α) : Occurrence α :=
  ⟨i :: o.path, t :: o.ancestors, o.tree⟩

/-- The indices lead from the forest to the tree, through its ancestors. -/
inductive At : List (Tree α) → List ℕ → List (Tree α) → Tree α → Prop where
  | here {ts : List (Tree α)} {i : ℕ} {t : Tree α} (h : ts[i]? = some t) : At ts [i] [] t
  | inside {ts : List (Tree α)} {i : ℕ} {t u : Tree α} {path : List ℕ} {ancestors : List (Tree α)}
      (h : ts[i]? = some t) (hu : At t.children path ancestors u) :
      At ts (i :: path) (t :: ancestors) u

theorem at_zero {t u : Tree α} {ts ancestors : List (Tree α)} {path : List ℕ} :
    At (t :: ts) (0 :: path) ancestors u ↔ (path = [] ∧ ancestors = [] ∧ u = t) ∨
      ∃ rest, ancestors = t :: rest ∧ At t.children path rest u := by
  constructor
  · rintro (h | ⟨h, hu⟩)
    · obtain rfl := Option.some.inj h
      exact Or.inl ⟨rfl, rfl, rfl⟩
    · obtain rfl := Option.some.inj h
      exact Or.inr ⟨_, rfl, hu⟩
  · rintro (⟨rfl, rfl, rfl⟩ | ⟨rest, rfl, hu⟩)
    · exact At.here rfl
    · exact At.inside rfl hu

theorem at_succ {t u : Tree α} {ts ancestors : List (Tree α)} {i : ℕ} {path : List ℕ} :
    At (t :: ts) ((i + 1) :: path) ancestors u ↔ At ts (i :: path) ancestors u := by
  constructor
  · rintro (h | ⟨h, hu⟩)
    · exact At.here h
    · exact At.inside h hu
  · rintro (h | ⟨h, hu⟩)
    · exact At.here h
    · exact At.inside h hu

theorem not_at_nil {ancestors : List (Tree α)} {path : List ℕ} {u : Tree α} :
    ¬ At [] path ancestors u := by
  rintro (h | ⟨h, -⟩) <;> cases h

theorem At.ne_nil {ts ancestors : List (Tree α)} {path : List ℕ} {u : Tree α}
    (h : At ts path ancestors u) : path ≠ [] := by
  cases h <;> exact List.cons_ne_nil _ _

/-! ## What there is to meet -/

section Occurs

variable {sought opens : α → Prop}

/-- The tree is sought and all its ancestors are opened; `i` is the index of the forest's first
tree. -/
def Occurs (sought opens : α → Prop) (i : ℕ) (ts : List (Tree α)) (o : Occurrence α) : Prop :=
  ∃ j path, o.path = (i + j) :: path ∧ At ts (j :: path) o.ancestors o.tree ∧
    sought o.tree.label ∧ ∀ t ∈ o.ancestors, opens t.label

/-- In the first tree of the forest, or after it. -/
theorem occurs_cons {i : ℕ} {t : Tree α} {ts : List (Tree α)} {o : Occurrence α} :
    Occurs sought opens i (t :: ts) o ↔
      (∃ path, o.path = i :: path ∧ At (t :: ts) (0 :: path) o.ancestors o.tree ∧
        sought o.tree.label ∧ ∀ t ∈ o.ancestors, opens t.label) ∨
      Occurs sought opens (i + 1) ts o := by
  constructor
  · rintro ⟨j, path, hpath, hat, h⟩
    cases j with
    | zero => exact Or.inl ⟨path, hpath, hat, h⟩
    | succ j =>
      refine Or.inr ⟨j, path, ?_, at_succ.1 hat, h⟩
      rw [hpath, Nat.add_assoc, Nat.add_comm 1]
  · rintro (⟨path, hpath, hat, h⟩ | ⟨j, path, hpath, hat, h⟩)
    · exact ⟨0, path, hpath, hat, h⟩
    · refine ⟨j + 1, path, ?_, at_succ.2 hat, h⟩
      rw [hpath, Nat.add_assoc, Nat.add_comm 1]

/-- A tree that is sought is met itself, and nothing in it. -/
theorem occurs_here (hdisjoint : ∀ a, opens a → ¬ sought a) {i : ℕ} {t : Tree α}
    {ts : List (Tree α)} {o : Occurrence α} (ht : sought t.label) :
    (∃ path, o.path = i :: path ∧ At (t :: ts) (0 :: path) o.ancestors o.tree ∧
      sought o.tree.label ∧ ∀ t ∈ o.ancestors, opens t.label) ↔ o = ⟨[i], [], t⟩ := by
  obtain ⟨p, as, u⟩ := o
  simp only [Occurrence.mk.injEq]
  constructor
  · rintro ⟨path, rfl, hat, -, hopens⟩
    rcases at_zero.1 hat with ⟨rfl, rfl, rfl⟩ | ⟨rest, rfl, -⟩
    · exact ⟨rfl, rfl, rfl⟩
    · exact absurd ht (hdisjoint _ (hopens t List.mem_cons_self))
  · rintro ⟨rfl, rfl, rfl⟩
    exact ⟨[], rfl, At.here rfl, ht, nofun⟩

/-- In a tree that is not sought, what is met is in its children. -/
theorem occurs_under {i : ℕ} {t : Tree α} {ts : List (Tree α)} {o : Occurrence α}
    (ht : ¬ sought t.label) :
    (∃ path, o.path = i :: path ∧ At (t :: ts) (0 :: path) o.ancestors o.tree ∧
      sought o.tree.label ∧ ∀ t ∈ o.ancestors, opens t.label) ↔
      opens t.label ∧ ∃ o', Occurs sought opens 0 t.children o' ∧ o'.under t i = o := by
  obtain ⟨p, as, u⟩ := o
  constructor
  · rintro ⟨path, rfl, hat, hsought, hopens⟩
    rcases at_zero.1 hat with ⟨rfl, rfl, rfl⟩ | ⟨rest, rfl, hu⟩
    · exact absurd hsought ht
    · obtain ⟨j, path, rfl⟩ := List.exists_cons_of_ne_nil hu.ne_nil
      refine ⟨hopens t List.mem_cons_self, ⟨j :: path, rest, u⟩, ⟨j, path, ?_, hu, hsought,
        fun a ha => hopens a (List.mem_cons_of_mem _ ha)⟩, rfl⟩
      rw [Nat.zero_add]
  · rintro ⟨hopen, ⟨p', as', u'⟩, ⟨j, path, hpath, hat, hsought, hopens⟩, heq⟩
    obtain ⟨rfl, rfl, rfl⟩ := Occurrence.mk.inj heq
    dsimp only at hpath hat hopens
    rw [Nat.zero_add] at hpath
    refine ⟨p', rfl, At.inside rfl (hpath ▸ hat), hsought, fun a ha => ?_⟩
    rcases List.mem_cons.1 ha with rfl | ha
    · exact hopen
    · exact hopens a ha

end Occurs

/-! ## The walk -/

section Walk

variable (sought opens : α → Prop) [DecidablePred sought] [DecidablePred opens]

/-- What a walk through the forest meets; `i` is the index of the first tree. -/
def walk : ℕ → List (Tree α) → List (Occurrence α)
  | _, [] => []
  | i, .node a cs :: rest =>
    (if sought a then [⟨[i], [], .node a cs⟩]
      else if opens a then (walk 0 cs).map (Occurrence.under (.node a cs) i)
      else []) ++ walk (i + 1) rest

variable {sought opens}

/-- **What a walk meets**: every tree that is sought, where all ancestors are opened. -/
theorem mem_walk (hdisjoint : ∀ a, opens a → ¬ sought a) {i : ℕ} {ts : List (Tree α)}
    {o : Occurrence α} : o ∈ walk sought opens i ts ↔ Occurs sought opens i ts o := by
  fun_induction walk sought opens i ts generalizing o with
  | case1 i =>
    refine iff_of_false List.not_mem_nil ?_
    rintro ⟨j, path, -, hat, -⟩
    exact not_at_nil hat
  | case2 i a cs rest ihc ihr =>
    rw [List.mem_append, ihr, occurs_cons]
    refine or_congr ?_ Iff.rfl
    by_cases hsought : sought a
    · rw [if_pos hsought, List.mem_singleton]
      exact (occurs_here hdisjoint (t := .node a cs) hsought).symm
    · rw [if_neg hsought]
      refine Iff.trans ?_ (occurs_under (t := .node a cs) hsought).symm
      by_cases hopens : opens a
      · rw [if_pos hopens, List.mem_map]
        simp only [ihc]
        exact (and_iff_right hopens).symm
      · rw [if_neg hopens]
        exact iff_of_false List.not_mem_nil fun h => hopens h.1

/-- A position starts with an index of the forest, counted from `i`. -/
theorem le_of_mem_walk {i : ℕ} {ts : List (Tree α)} {o : Occurrence α}
    (h : o ∈ walk sought opens i ts) : ∃ j path, o.path = j :: path ∧ i ≤ j := by
  fun_induction walk sought opens i ts generalizing o with
  | case1 i => cases h
  | case2 i a cs rest ihc ihr =>
    rcases List.mem_append.1 h with h | h
    · split_ifs at h
      · rw [List.mem_singleton.1 h]
        exact ⟨i, [], rfl, le_rfl⟩
      · obtain ⟨o', -, rfl⟩ := List.mem_map.1 h
        exact ⟨i, o'.path, rfl, le_rfl⟩
      · cases h
    · obtain ⟨j, path, hpath, hj⟩ := ihr h
      exact ⟨j, path, hpath, by omega⟩

/-- **Document order**: the positions increase. -/
theorem walk_sorted (i : ℕ) (ts : List (Tree α)) :
    (walk sought opens i ts).Pairwise (·.path < ·.path) := by
  fun_induction walk sought opens i ts with
  | case1 i => exact List.Pairwise.nil
  | case2 i a cs rest ihc ihr =>
    rw [List.pairwise_append]
    refine ⟨?_, ihr, fun o ho o' ho' => ?_⟩
    · split_ifs
      · exact List.pairwise_singleton _ _
      · rw [List.pairwise_map]
        refine ihc.imp fun h => ?_
        exact List.cons_lt_cons_iff.2 (Or.inr ⟨rfl, h⟩)
      · exact List.Pairwise.nil
    · -- What is met in the first tree has its index; what is met after it, a larger one.
      have hfirst : ∃ path, o.path = i :: path := by
        split_ifs at ho
        · exact ⟨[], by rw [List.mem_singleton.1 ho]⟩
        · obtain ⟨o'', -, rfl⟩ := List.mem_map.1 ho
          exact ⟨o''.path, rfl⟩
        · cases ho
      obtain ⟨path, hpath⟩ := hfirst
      obtain ⟨j, path', hpath', hj⟩ := le_of_mem_walk ho'
      rw [hpath, hpath']
      exact List.cons_lt_cons_iff.2 (Or.inl (by omega))

/-- What the walk meets is determined by what there is to meet, and the order. -/
theorem eq_walk (hdisjoint : ∀ a, opens a → ¬ sought a) {i : ℕ} {ts : List (Tree α)}
    {os : List (Occurrence α)} (hsorted : os.Pairwise (·.path < ·.path))
    (hmem : ∀ o, o ∈ os ↔ Occurs sought opens i ts o) : os = walk sought opens i ts := by
  let before : Occurrence α → Occurrence α → Prop := fun o o' => o.path < o'.path
  have : Std.Irrefl before := ⟨fun o => lt_irrefl o.path⟩
  have : Std.Antisymm before := ⟨fun _ _ h h' => absurd h' (lt_asymm h)⟩
  exact List.Pairwise.eq_of_mem_iff hsorted (walk_sorted i ts) fun o =>
    (hmem o).trans (mem_walk hdisjoint).symm

end Walk

end Bypass
