import Mathlib

/-!
# Tries

A trie over ordered names: the children of a node, each with a name and a node of its own, in the
order of their names. Its paths are the ways from the root down to a node, listed node by node, each
before what is below it.

* `readBack_paths`: the depths and the names of the nodes determine the paths.
* `mem_paths_insert`: inserting a path adds its non-empty prefixes.
* `paths_sorted`: **the paths are listed in lexicographic order**, so each once.
* `rows_eq`: whether a node is the last of its siblings can be told from the listed paths.
-/

namespace Bypass

/-- The children of a node: the first with its name, and the others. -/
inductive Trie (α : Type) where
  | nil
  | cons (name : α) (child rest : Trie α)
  deriving DecidableEq

namespace Trie

variable {α : Type}

/-- The names of the children. -/
def names : Trie α → List α
  | nil => []
  | cons a _ rest => a :: rest.names

/-- The ways from the root to a node, in the order of a depth-first walk. -/
def paths : Trie α → List (List α)
  | nil => []
  | cons a child rest => [a] :: (child.paths.map (a :: ·) ++ rest.paths)

theorem ne_nil_of_mem_paths {p : List α} {t : Trie α} (h : p ∈ t.paths) : p ≠ [] := by
  induction t with
  | nil => cases h
  | cons a child rest _ ih =>
    rintro rfl
    simp only [paths, List.mem_cons, List.mem_append, List.mem_map] at h
    rcases h with h | ⟨q, -, h⟩ | h
    · cases h
    · cases h
    · exact ih h rfl

theorem mem_names_of_mem_paths {a : α} {p : List α} {t : Trie α} (h : a :: p ∈ t.paths) :
    a ∈ t.names := by
  induction t with
  | nil => cases h
  | cons b child rest _ ih =>
    simp only [paths, List.mem_cons, List.mem_append, List.mem_map] at h
    rcases h with h | ⟨q, -, h⟩ | h
    · exact List.mem_cons.2 (Or.inl (List.cons.inj h).1)
    · exact List.mem_cons.2 (Or.inl (List.cons.inj h).1.symm)
    · exact List.mem_cons_of_mem _ (ih h)

theorem mem_paths_of_mem_names {a : α} {t : Trie α} (h : a ∈ t.names) : [a] ∈ t.paths := by
  induction t with
  | nil => cases h
  | cons b child rest _ ih =>
    rcases List.mem_cons.1 h with rfl | h
    · exact List.mem_cons_self
    · exact List.mem_cons_of_mem _ (List.mem_append_right _ (ih h))

/-- The path of each node, with, for each node on the way there, whether it is the last of its
siblings. -/
def rows : Trie α → List (List Bool × List α)
  | nil => []
  | cons a child rest =>
    ([decide (rest.names = [])], [a]) ::
      (child.rows.map (fun row => (decide (rest.names = []) :: row.1, a :: row.2)) ++ rest.rows)

/-! ## Reading depths and names back -/

/-- The paths of some nodes of which the depth and the name are listed, after the node of a path. -/
def readBack : List α → List (ℕ × α) → List (List α)
  | _, [] => []
  | last, (depth, a) :: nodes => (last.take depth ++ [a]) :: readBack (last.take depth ++ [a]) nodes

/-- The depth of a node, and its name. -/
def nodeOf (d : α) (p : List α) : ℕ × α := (p.length - 1, p.getLastD d)

theorem readBack_append (d : α) {dir last : List α} (h : last.take dir.length = dir) (t : Trie α)
    (more : List (ℕ × α)) : ∃ last', last'.take dir.length = dir ∧
      readBack last (t.paths.map (fun p => nodeOf d (dir ++ p)) ++ more) =
        t.paths.map (dir ++ ·) ++ readBack last' more := by
  induction t generalizing dir last more with
  | nil => exact ⟨last, h, rfl⟩
  | cons a child rest ihchild ihrest =>
    have hhere : nodeOf d (dir ++ [a]) = (dir.length, a) := by simp [nodeOf]
    have hbelow : child.paths.map ((fun p => nodeOf d (dir ++ p)) ∘ (a :: ·)) =
        child.paths.map fun p => nodeOf d (dir ++ [a] ++ p) :=
      List.map_congr_left fun p _ => by simp
    have hself : (dir ++ [a]).take (dir ++ [a]).length = dir ++ [a] := List.take_length ..
    obtain ⟨last₁, hlast₁, hchild⟩ :=
      ihchild hself (rest.paths.map (fun p => nodeOf d (dir ++ p)) ++ more)
    have hdir : last₁.take dir.length = dir := by
      have htake := congrArg (List.take dir.length) hlast₁
      rw [List.take_take, List.take_left] at htake
      rwa [List.length_append, List.length_singleton, Nat.min_eq_left (by omega)] at htake
    obtain ⟨last₂, hlast₂, hrest⟩ := ihrest hdir more
    refine ⟨last₂, hlast₂, ?_⟩
    rw [paths, List.map_cons, List.map_append, List.map_map, hhere, hbelow, List.cons_append,
      List.append_assoc, readBack, h, hchild, hrest]
    simp

/-- **The depths and the names of the nodes determine the paths.** -/
theorem readBack_paths (d : α) (t : Trie α) : readBack [] (t.paths.map (nodeOf d)) = t.paths := by
  have hnil : ([] : List α).take ([] : List α).length = [] := rfl
  obtain ⟨last, -, hread⟩ := readBack_append d hnil t []
  simpa [readBack] using hread

section Insert

variable [Ord α]

/-- Change the child of a name, or add one. -/
def modifyChild (a : α) (f : Trie α → Trie α) : Trie α → Trie α
  | nil => cons a (f nil) nil
  | cons b child rest =>
    match compare a b with
    | .lt => cons a (f nil) (cons b child rest)
    | .eq => cons b (f child) rest
    | .gt => cons b child (rest.modifyChild a f)

/-- Add the nodes on the way along a path. -/
def insert : List α → Trie α → Trie α
  | [], t => t
  | a :: p, t => t.modifyChild a (insert p)

/-- The children of each node are in the order of their names. -/
def Sorted : Trie α → Prop
  | nil => True
  | cons a child rest => child.Sorted ∧ rest.Sorted ∧ ∀ b ∈ rest.names, compare a b = .lt

variable [Std.LawfulEqOrd α]

theorem mem_paths_modifyChild {a : α} {f : Trie α → Trie α} {t : Trie α} {p : List α}
    {P : List α → Prop} (hf : ∀ t q, q ∈ (f t).paths ↔ P q ∨ q ∈ t.paths) :
    p ∈ (t.modifyChild a f).paths ↔ (p = [a] ∨ ∃ q, P q ∧ p = a :: q) ∨ p ∈ t.paths := by
  have hnew {child : Trie α} : p ∈ (f child).paths.map (a :: ·) ↔
      (∃ q, P q ∧ p = a :: q) ∨ p ∈ child.paths.map (a :: ·) := by
    simp only [List.mem_map, hf]
    constructor
    · rintro ⟨q, hq | hq, rfl⟩
      · exact Or.inl ⟨q, hq, rfl⟩
      · exact Or.inr ⟨q, hq, rfl⟩
    · rintro (⟨q, hq, rfl⟩ | ⟨q, hq, rfl⟩)
      · exact ⟨q, Or.inl hq, rfl⟩
      · exact ⟨q, Or.inr hq, rfl⟩
  induction t with
  | nil =>
    rw [modifyChild]
    simp only [paths, List.mem_cons, List.mem_append, hnew]
    simp
  | cons b child rest _ ih =>
    rw [modifyChild]
    cases hcmp : compare a b with
    | lt =>
      dsimp only
      rw [paths, List.mem_cons, List.mem_append, hnew]
      simp [paths, or_assoc]
    | eq =>
      obtain rfl := Std.LawfulEqOrd.eq_of_compare hcmp
      dsimp only
      rw [paths, paths, List.mem_cons, List.mem_append, List.mem_cons, List.mem_append, hnew]
      grind
    | gt =>
      dsimp only
      rw [paths, paths, List.mem_cons, List.mem_append, List.mem_cons, List.mem_append]
      grind

/-- **Inserting a path adds its non-empty prefixes.** -/
theorem mem_paths_insert {p q : List α} {t : Trie α} :
    q ∈ (t.insert p).paths ↔ (q ≠ [] ∧ q <+: p) ∨ q ∈ t.paths := by
  induction p generalizing q t with
  | nil =>
    rw [insert]
    simp
  | cons a p ih =>
    rw [insert, mem_paths_modifyChild fun t q => ih]
    refine or_congr_left ?_
    constructor
    · rintro (rfl | ⟨q, ⟨-, hq⟩, rfl⟩)
      · simp
      · exact ⟨nofun, List.cons_prefix_cons.2 ⟨rfl, hq⟩⟩
    · rintro ⟨hne, hq⟩
      cases q with
      | nil => exact absurd rfl hne
      | cons b q =>
        obtain ⟨rfl, hbelow⟩ := List.cons_prefix_cons.1 hq
        by_cases hnil : q = []
        · exact Or.inl (by rw [hnil])
        · exact Or.inr ⟨q, ⟨hnil, hbelow⟩, rfl⟩

theorem names_modifyChild {a b : α} {f : Trie α → Trie α} {t : Trie α} :
    b ∈ (t.modifyChild a f).names ↔ b = a ∨ b ∈ t.names := by
  induction t with
  | nil => simp [modifyChild, names]
  | cons c child rest _ ih =>
    rw [modifyChild]
    cases hcmp : compare a c with
    | lt => simp [names]
    | eq =>
      obtain rfl := Std.LawfulEqOrd.eq_of_compare hcmp
      simp [names]
    | gt =>
      simp only [names, List.mem_cons, ih]
      grind

omit [Std.LawfulEqOrd α] in
theorem compare_cons_of_lt {a b : α} {p q : List α} (h : compare a b = .lt) :
    compare (a :: p) (b :: q) = .lt := by
  rw [List.compare_cons_cons, h]
  rfl

/-- **The paths are listed in lexicographic order.** -/
theorem paths_sorted {t : Trie α} (h : t.Sorted) :
    t.paths.Pairwise fun p q => compare p q = .lt := by
  induction t with
  | nil => exact List.Pairwise.nil
  | cons a child rest ihchild ihrest =>
    obtain ⟨hchild, hrest, hlt⟩ := h
    have hafter {p q : List α} (hq : q ∈ rest.paths) : compare (a :: p) q = .lt := by
      cases q with
      | nil => exact absurd rfl (ne_nil_of_mem_paths hq)
      | cons b q => exact compare_cons_of_lt (hlt b (mem_names_of_mem_paths hq))
    rw [paths, List.pairwise_cons, List.pairwise_append]
    refine ⟨fun q hq => ?_, ?_, ihrest hrest, fun p hp q hq => ?_⟩
    · rcases List.mem_append.1 hq with hq | hq
      · obtain ⟨q, hmem, rfl⟩ := List.mem_map.1 hq
        rw [List.compare_cons_cons, Std.ReflOrd.compare_self]
        cases q with
        | nil => exact absurd rfl (ne_nil_of_mem_paths hmem)
        | cons b q => rfl
      · exact hafter hq
    · rw [List.pairwise_map]
      refine (ihchild hchild).imp fun {p q} hpq => ?_
      rw [List.compare_cons_cons, Std.ReflOrd.compare_self, hpq]
      rfl
    · obtain ⟨p, -, rfl⟩ := List.mem_map.1 hp
      exact hafter hq

variable [Std.TransOrd α]

theorem Sorted.modifyChild {a : α} {f : Trie α → Trie α} {t : Trie α} (h : t.Sorted)
    (hf : ∀ t : Trie α, t.Sorted → (f t).Sorted) : (t.modifyChild a f).Sorted := by
  induction t with
  | nil => exact ⟨hf nil trivial, trivial, nofun⟩
  | cons c child rest _ ih =>
    obtain ⟨hchild, hrest, hlt⟩ := h
    rw [Trie.modifyChild]
    cases hcmp : compare a c with
    | lt =>
      refine ⟨hf nil trivial, ⟨hchild, hrest, hlt⟩, fun b hb => ?_⟩
      rcases List.mem_cons.1 hb with rfl | hb
      · exact hcmp
      · exact Std.TransCmp.lt_trans hcmp (hlt b hb)
    | eq => exact ⟨hf child hchild, hrest, hlt⟩
    | gt =>
      refine ⟨hchild, ih hrest, fun b hb => ?_⟩
      rcases names_modifyChild.1 hb with rfl | hb
      · exact Std.OrientedCmp.lt_of_gt hcmp
      · exact hlt b hb

theorem Sorted.insert {p : List α} {t : Trie α} (h : t.Sorted) : (t.insert p).Sorted := by
  induction p generalizing t with
  | nil => exact h
  | cons a p ih => exact h.modifyChild fun _ => ih

/-- Lexicographic order leaves no choice in how to list the paths. -/
theorem paths_ext {t t' : Trie α} (h : t.Sorted) (h' : t'.Sorted)
    (hmem : ∀ p, p ∈ t.paths ↔ p ∈ t'.paths) : t.paths = t'.paths := by
  have hantisymm : Std.Antisymm fun p q : List α => compare p q = .lt := ⟨fun p q hpq hqp => by
    rw [Std.OrientedOrd.eq_swap, hqp] at hpq
    cases hpq⟩
  have hirrefl : Std.Irrefl fun p q : List α => compare p q = .lt := ⟨fun p hp => by
    rw [Std.ReflOrd.compare_self] at hp
    cases hp⟩
  exact List.Pairwise.eq_of_mem_iff (paths_sorted h) (paths_sorted h') hmem

/-! ## The last of the siblings -/

variable [DecidableEq α]

/-- Of some paths, none that is in the same directory comes later. -/
def lastOf (listed : List (List α)) (p : List α) : Bool :=
  listed.all fun q => decide (q.dropLast = p.dropLast → (compare q p).isLE = true)

omit [Std.LawfulEqOrd α] [Std.TransOrd α] in
theorem lastOf_eq_true {listed : List (List α)} {p : List α} : lastOf listed p = true ↔
    ∀ q ∈ listed, q.dropLast = p.dropLast → (compare q p).isLE = true := by
  simp only [lastOf, List.all_eq_true, decide_eq_true_eq]

section Cons

variable {a b : α} {p : List α} {child rest : Trie α}

theorem lastOf_here (hlt : ∀ b ∈ rest.names, compare a b = .lt) :
    lastOf (cons a child rest).paths [a] = decide (rest.names = []) := by
  rw [Bool.eq_iff_iff, lastOf_eq_true, decide_eq_true_eq, List.eq_nil_iff_forall_not_mem]
  constructor
  · intro h b hb
    have hle := h [b] (List.mem_cons_of_mem _
      (List.mem_append_right _ (mem_paths_of_mem_names hb))) rfl
    rw [Std.OrientedOrd.eq_swap, compare_cons_of_lt (hlt b hb)] at hle
    cases hle
  · intro h q hq hdir
    simp only [paths, List.mem_cons, List.mem_append, List.mem_map] at hq
    rcases hq with rfl | ⟨q, hmem, rfl⟩ | hmem
    · rw [Std.ReflOrd.compare_self]
      rfl
    · rw [List.dropLast_cons_of_ne_nil (ne_nil_of_mem_paths hmem)] at hdir
      cases hdir
    · cases q with
      | nil => exact absurd rfl (ne_nil_of_mem_paths hmem)
      | cons b q => exact absurd (mem_names_of_mem_paths hmem) (h b)

omit [Std.TransOrd α] in
theorem lastOf_inside (hlt : ∀ b ∈ rest.names, compare a b = .lt) (hp : p ≠ []) :
    lastOf (cons a child rest).paths (a :: p) = lastOf child.paths p := by
  have hcons {q : List α} : compare (a :: q) (a :: p) = compare q p := by
    rw [List.compare_cons_cons, Std.ReflOrd.compare_self]
    rfl
  rw [Bool.eq_iff_iff, lastOf_eq_true, lastOf_eq_true, List.dropLast_cons_of_ne_nil hp]
  constructor
  · intro h q hq hdir
    have hle := h (a :: q) (List.mem_cons_of_mem _
      (List.mem_append_left _ (List.mem_map_of_mem hq)))
      (by rw [List.dropLast_cons_of_ne_nil (ne_nil_of_mem_paths hq), hdir])
    rwa [hcons] at hle
  · intro h q hq hdir
    simp only [paths, List.mem_cons, List.mem_append, List.mem_map] at hq
    rcases hq with rfl | ⟨q, hmem, rfl⟩ | hmem
    · cases hdir
    · rw [List.dropLast_cons_of_ne_nil (ne_nil_of_mem_paths hmem)] at hdir
      rw [hcons]
      exact h q hmem (List.cons.inj hdir).2
    · rcases q with _ | ⟨b, _ | ⟨c, q⟩⟩
      · cases hdir
      · cases hdir
      · obtain rfl := (List.cons.inj hdir).1
        have habsurd := hlt b (mem_names_of_mem_paths hmem)
        rw [Std.ReflOrd.compare_self] at habsurd
        cases habsurd

omit [Std.LawfulEqOrd α] [Std.TransOrd α] in
theorem lastOf_later (hlt : ∀ b ∈ rest.names, compare a b = .lt) (hb : b ∈ rest.names) :
    lastOf (cons a child rest).paths (b :: p) = lastOf rest.paths (b :: p) := by
  rw [Bool.eq_iff_iff, lastOf_eq_true, lastOf_eq_true]
  constructor
  · intro h q hq
    exact h q (List.mem_cons_of_mem _ (List.mem_append_right _ hq))
  · intro h q hq hdir
    have hfirst {p' : List α} : (compare (a :: p') (b :: p)).isLE = true := by
      rw [compare_cons_of_lt (hlt b hb)]
      rfl
    simp only [paths, List.mem_cons, List.mem_append, List.mem_map] at hq
    rcases hq with rfl | ⟨q, -, rfl⟩ | hmem
    · exact hfirst
    · exact hfirst
    · exact h q hmem hdir

end Cons

/-- The non-empty prefixes of a path, which lead to it. -/
def way (p : List α) : List (List α) := p.inits.tail

omit [Ord α] [Std.LawfulEqOrd α] [Std.TransOrd α] [DecidableEq α] in
theorem way_cons {a : α} {p : List α} : way (a :: p) = [a] :: (way p).map (a :: ·) := by
  cases p <;> simp [way]

omit [Ord α] [Std.LawfulEqOrd α] [Std.TransOrd α] [DecidableEq α] in
theorem ne_nil_of_mem_way {p q : List α} (h : q ∈ way p) : q ≠ [] := by
  cases p with
  | nil => cases h
  | cons a p =>
    rw [way_cons, List.mem_cons, List.mem_map] at h
    rcases h with rfl | ⟨q, -, rfl⟩ <;> simp

/-- **Whether a node is the last of its siblings** can be told from the paths. -/
theorem rows_eq {t : Trie α} (h : t.Sorted) :
    t.rows = t.paths.map fun p => ((way p).map (lastOf t.paths), p) := by
  induction t with
  | nil => rfl
  | cons a child rest ihchild ihrest =>
    obtain ⟨hchild, hrest, hlt⟩ := h
    have hbelow (p : List α) : (way (a :: p)).map (lastOf (cons a child rest).paths) =
        decide (rest.names = []) :: (way p).map (lastOf child.paths) := by
      rw [way_cons, List.map_cons, lastOf_here hlt, List.map_map]
      congr 1
      exact List.map_congr_left fun q hq => lastOf_inside hlt (ne_nil_of_mem_way hq)
    have hlater (p : List α) (hp : p ∈ rest.paths) :
        (way p).map (lastOf (cons a child rest).paths) = (way p).map (lastOf rest.paths) := by
      cases p with
      | nil => rfl
      | cons b p =>
        have hb := mem_names_of_mem_paths hp
        refine List.map_congr_left fun q hq => ?_
        rw [way_cons, List.mem_cons, List.mem_map] at hq
        rcases hq with rfl | ⟨q, -, rfl⟩
        · exact lastOf_later hlt hb
        · exact lastOf_later hlt hb
    have hmap : (cons a child rest).paths.map
        (fun p => ((way p).map (lastOf (cons a child rest).paths), p)) =
        ((way [a]).map (lastOf (cons a child rest).paths), [a]) ::
          (child.paths.map (fun p => ((way (a :: p)).map (lastOf (cons a child rest).paths), a :: p))
            ++ rest.paths.map (fun p => ((way p).map (lastOf (cons a child rest).paths), p))) := by
      rw [paths, List.map_cons, List.map_append, List.map_map]
      rfl
    rw [hmap, hbelow, rows, ihchild hchild, ihrest hrest, List.map_map]
    congr 2
    · exact List.map_congr_left fun p _ => by rw [hbelow]; rfl
    · exact List.map_congr_left fun p hp => by rw [hlater p hp]

end Insert

end Trie

end Bypass
