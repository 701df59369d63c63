import Mathlib

/-!
# File trees

A tree of directories, files and symbolic links over any type of names. A place is the list of names
that lead to it from the root; a node other than the root lies in a directory, which is a field of
the tree. What a path means is a place that it resolves to: on the way the links are followed, and
at its end if so asked.

* `get_set`, `get_unset`, `mem_children`: the tree as a map from places to nodes.
* `locate_of_get`, `locate_missing`, `locate_below_file`: **what a path resolves to** where there is
  no link in its way.
* `way_cases`: these are all the cases.
-/

namespace Bypass

/-- Why a call of the file system failed; `other` is any reason that the tree does not tell. -/
inductive Errno where
  | notFound
  | notADirectory
  | isADirectory
  | alreadyExists
  | loop
  | other (text : List Char)
  deriving DecidableEq

/-- One step of the target of a link. -/
inductive Hop (N : Type) where
  | up
  | name (n : N)
  deriving DecidableEq

/-- The target of a symbolic link, from the root or from the directory of the link. -/
structure Target (N : Type) where
  absolute : Bool
  hops : List (Hop N)
  deriving DecidableEq

/-- What is at a place: names `N`, contents `C`. -/
inductive FileNode (N C : Type) where
  | dir
  | file (content : C)
  | link (target : Target N)
  deriving DecidableEq

/-- A file tree: the nodes by their places, without that of the root. -/
structure FileTree (N C : Type) [Ord N] [Std.TransOrd N] where
  nodes : Std.ExtTreeMap (List N) (FileNode N C) compare
  root_none : nodes[([] : List N)]? = none
  closed : ∀ (x : List N) (n : N) (node : FileNode N C), nodes[x ++ [n]]? = some node →
    x = [] ∨ nodes[x]? = some .dir

namespace FileTree

/-! ## Nodes -/

variable {N C : Type} [Ord N] [Std.TransOrd N]

/-- The node at a place. -/
def get (t : FileTree N C) (x : List N) : Option (FileNode N C) :=
  if x = [] then some .dir else t.nodes[x]?

variable {t t' : FileTree N C} {x y z : List N} {n : N} {node : FileNode N C}

/-- The tree with nothing in it. -/
def empty : FileTree N C where
  nodes := ∅
  root_none := Std.ExtTreeMap.getElem?_empty
  closed := fun _ _ _ h => nomatch (Std.ExtTreeMap.getElem?_empty.symm.trans h)

theorem get_empty (h : x ≠ []) : (empty : FileTree N C).get x = none := by
  rw [get, if_neg h]
  exact Std.ExtTreeMap.getElem?_empty

@[simp] theorem get_nil : t.get [] = some .dir := if_pos rfl

theorem get_of_ne (h : x ≠ []) : t.get x = t.nodes[x]? := if_neg h

/-- **What there is, is in a directory.** -/
theorem get_parent (h : (t.get (x ++ [n])).isSome) : t.get x = some .dir := by
  rw [get_of_ne (by simp)] at h
  obtain ⟨node, hnode⟩ := Option.isSome_iff_exists.1 h
  rcases t.closed x n node hnode with rfl | hdir
  · exact get_nil
  · by_cases hx : x = []
    · rw [hx, get_nil]
    · rwa [get_of_ne hx]

/-- All places on the way to a node are directories. -/
theorem get_before (h : (t.get (x ++ y)).isSome) (hy : y ≠ []) : t.get x = some .dir := by
  induction y using List.reverseRecOn with
  | nil => exact absurd rfl hy
  | append_singleton y n ih =>
    rw [← List.append_assoc] at h
    have hdir := get_parent h
    by_cases hy : y = []
    · rwa [hy, List.append_nil] at hdir
    · exact ih (by rw [hdir]; rfl) hy

theorem get_eq_none (h : t.get x = none) : t.get (x ++ y) = none := by
  by_contra hsome
  rw [← ne_eq, ← Option.isSome_iff_ne_none] at hsome
  by_cases hy : y = []
  · rw [hy, List.append_nil, h] at hsome
    cases hsome
  · rw [get_before hsome hy] at h
    cases h

theorem get_below_file {c : C} (h : t.get x = some (.file c)) (hy : y ≠ []) :
    t.get (x ++ y) = none := by
  by_contra hsome
  rw [← ne_eq, ← Option.isSome_iff_ne_none] at hsome
  rw [get_before hsome hy] at h
  cases h

/-! ## Paths -/

/-- Go down from a directory; `jump` goes on at the target of a link. -/
def descend (t : FileTree N C) (follow : Bool)
    (jump : List N → List (Hop N) → Except Errno (List N)) :
    List N → List (Hop N) → Except Errno (List N)
  | x, [] => .ok x
  | x, .up :: rest => t.descend follow jump x.dropLast rest
  | x, .name n :: rest =>
    match t.get (x ++ [n]) with
    | none => .error .notFound
    | some .dir => t.descend follow jump (x ++ [n]) rest
    | some (.file _) => if rest = [] then .ok (x ++ [n]) else .error .notADirectory
    | some (.link target) =>
      if rest = [] ∧ follow = false then .ok (x ++ [n])
      else jump (if target.absolute then [] else x) (target.hops ++ rest)

/-- Go down from a directory, through at most so many links. -/
def resolve (t : FileTree N C) (follow : Bool) : ℕ → List N → List (Hop N) → Except Errno (List N)
  | 0 => t.descend follow fun _ _ => .error .loop
  | links + 1 => t.descend follow (t.resolve follow links)

/-- How many links a path may go through. -/
def maxLinks : ℕ := 40

/-- The place that a path leads to. If it ends at a link, this is followed if so asked. -/
def locate (t : FileTree N C) (follow : Bool) (path : List N) : Except Errno (List N) :=
  t.resolve follow maxLinks [] (path.map .name)

/-! ## Paths without links -/

/-- Directories are gone through. -/
theorem descend_dirs {follow : Bool} {jump : List N → List (Hop N) → Except Errno (List N)}
    (h : t.get (x ++ y) = some .dir) (rest : List (Hop N)) :
    t.descend follow jump x (y.map .name ++ rest) = t.descend follow jump (x ++ y) rest := by
  induction y generalizing x with
  | nil => rw [List.map_nil, List.nil_append, List.append_nil]
  | cons n y ih =>
    have hcons : x ++ n :: y = x ++ [n] ++ y := by simp
    have hdir : t.get (x ++ [n]) = some .dir := by
      by_cases hy : y = []
      · rwa [hy] at h
      · rw [hcons] at h
        exact get_before (by rw [h]; rfl) hy
    rw [List.map_cons, List.cons_append, descend, hdir, hcons]
    exact ih (hcons ▸ h)

/-- **A place is a path to itself**, if no link is there that is to be followed. -/
theorem locate_of_get {follow : Bool} (h : t.get x = some node)
    (hlink : follow = true → ∀ target, node ≠ .link target) : t.locate follow x = .ok x := by
  rcases List.eq_nil_or_concat' x with rfl | ⟨d, n, rfl⟩
  · rfl
  have hdir : t.get ([] ++ d) = some .dir := get_parent (by rw [List.nil_append, h]; rfl)
  rw [locate, maxLinks, resolve, List.map_append, descend_dirs hdir, List.nil_append,
    List.map_singleton, descend, h]
  cases node with
  | dir => rfl
  | file c => exact if_pos rfl
  | link target =>
    have hfollow : follow = false := by
      cases follow with
      | false => rfl
      | true => exact absurd rfl (hlink rfl target)
    exact if_pos ⟨rfl, hfollow⟩

/-- A path through a name that is missing. -/
theorem locate_missing {follow : Bool} (hdir : t.get x = some .dir)
    (hnone : t.get (x ++ [n]) = none) (y : List N) :
    t.locate follow (x ++ n :: y) = .error .notFound := by
  have hx : t.get ([] ++ x) = some .dir := by rwa [List.nil_append]
  rw [locate, maxLinks, resolve, List.map_append, descend_dirs hx, List.nil_append, List.map_cons,
    descend, hnone]

/-- A path through a file. -/
theorem locate_below_file {follow : Bool} {c : C} (h : t.get x = some (.file c)) (hy : y ≠ []) :
    t.locate follow (x ++ y) = .error .notADirectory := by
  rcases List.eq_nil_or_concat' x with rfl | ⟨d, n, rfl⟩
  · rw [get_nil] at h
    cases h
  have hdir : t.get ([] ++ d) = some .dir := get_parent (by rw [List.nil_append, h]; rfl)
  rw [locate, maxLinks, resolve, List.append_assoc, List.map_append, descend_dirs hdir, List.nil_append,
    List.singleton_append, List.map_cons, descend, h]
  exact if_neg (by simpa using hy)

/-- There is no link on the way from `x` along `l`, nor at its end. -/
def NoLink (t : FileTree N C) (x l : List N) : Prop :=
  ∀ l', l' <+: l → ∀ target, t.get (x ++ l') ≠ some (.link target)

theorem NoLink.mono {l l' : List N} (h : t.NoLink x l) (hl : l' <+: l) : t.NoLink x l' :=
  fun _ hl' => h _ (hl'.trans hl)

/-- There are no links at all. -/
def Linkless (t : FileTree N C) : Prop := ∀ x target, t.get x ≠ some (.link target)

theorem linkless_empty : (empty : FileTree N C).Linkless := by
  intro x target hx
  by_cases hnil : x = []
  · rw [hnil, get_nil] at hx
    cases hx
  · rw [get_empty hnil] at hx
    cases hx

theorem Linkless.noLink (h : t.Linkless) (x l : List N) : t.NoLink x l := fun _ _ => h _

/-- **Where a way without links leads**: to a directory or a file, to a name that is missing, or
through a file. -/
theorem way_cases {l : List N} (hx : t.get x = some .dir) (h : t.NoLink x l) :
    t.get (x ++ l) = some .dir ∨ (∃ c, t.get (x ++ l) = some (.file c)) ∨
      (∃ l₁ n l₂, l = l₁ ++ n :: l₂ ∧ t.get (x ++ l₁) = some .dir ∧
        t.get (x ++ (l₁ ++ [n])) = none) ∨
      ∃ l₁ l₂ c, l = l₁ ++ l₂ ∧ l₂ ≠ [] ∧ t.get (x ++ l₁) = some (.file c) := by
  induction l using List.reverseRecOn with
  | nil => exact Or.inl (by rwa [List.append_nil])
  | append_singleton l n ih =>
    rcases ih (h.mono (List.prefix_append _ _)) with hdir | ⟨c, hfile⟩ | hmissing | hfile
    · cases hnode : t.get (x ++ (l ++ [n])) with
      | none => exact Or.inr (Or.inr (Or.inl ⟨l, n, [], rfl, hdir, hnode⟩))
      | some node =>
        cases node with
        | dir => exact Or.inl rfl
        | file c => exact Or.inr (Or.inl ⟨c, rfl⟩)
        | link target => exact absurd hnode (h _ (List.prefix_refl _) target)
    · exact Or.inr (Or.inr (Or.inr ⟨l, [n], c, rfl, by simp, hfile⟩))
    · obtain ⟨l₁, m, l₂, rfl, hdir, hnone⟩ := hmissing
      exact Or.inr (Or.inr (Or.inl ⟨l₁, m, l₂ ++ [n], by simp, hdir, hnone⟩))
    · obtain ⟨l₁, l₂, c, rfl, -, hfile⟩ := hfile
      exact Or.inr (Or.inr (Or.inr ⟨l₁, l₂ ++ [n], c, by simp, by simp, hfile⟩))

/-- There is no link on the way to a path, and no file before its end. -/
structure Clear (t : FileTree N C) (path : List N) : Prop where
  noLink : t.NoLink [] path
  noFile : ∀ l, l <+: path → l ≠ path → ∀ c, t.get l ≠ some (.file c)

/-- What is there has a clear way. -/
theorem clear_of_get (h : t.get x = some node) (hlink : ∀ target, node ≠ .link target) :
    t.Clear x := by
  have hdir {l : List N} (hl : l <+: x) (hne : l ≠ x) : t.get l = some .dir := by
    obtain ⟨y, rfl⟩ := hl
    exact get_before (by rw [h]; rfl) fun hy => hne (by rw [hy, List.append_nil])
  refine ⟨fun l hl target htarget => ?_, fun l hl hne c hfile => ?_⟩
  · rw [List.nil_append] at htarget
    by_cases hne : l = x
    · rw [hne, h] at htarget
      exact hlink target (Option.some.inj htarget)
    · rw [hdir hl hne] at htarget
      cases htarget
  · rw [hdir hl hne] at hfile
    cases hfile

/-- There is no file on the way to a directory, -/
theorem noFile_of_dir (hdir : t.get x = some .dir) {l : List N} (hl : l <+: x) (c : C) :
    t.get l ≠ some (.file c) := by
  intro hfile
  obtain ⟨z, rfl⟩ := hl
  by_cases hz : z = []
  · rw [hz, List.append_nil, hfile] at hdir
    cases hdir
  · rw [get_below_file hfile hz] at hdir
    cases hdir

/-- nor on one that ends at a name that is missing. -/
theorem noFile_of_missing (hdir : t.get x = some .dir) (hnone : t.get (x ++ [n]) = none)
    {l : List N} (hl : l <+: x ++ n :: y) (c : C) : t.get l ≠ some (.file c) := by
  intro hfile
  rcases List.prefix_or_prefix_of_prefix hl (List.prefix_append x (n :: y)) with hx | ⟨z, rfl⟩
  · exact noFile_of_dir hdir hx c hfile
  · rcases List.prefix_cons_iff.1 ((List.prefix_append_right_inj x).1 hl) with rfl | ⟨z, rfl, -⟩
    · rw [List.append_nil, hdir] at hfile
      cases hfile
    · rw [← List.singleton_append, ← List.append_assoc, get_eq_none hnone] at hfile
      cases hfile

/-- Below a name that is missing in a clear way there is nothing in the way. -/
theorem clear_of_missing (h : t.get (x ++ [n]) = none) (hlink : t.NoLink [] x)
    (hfile : ∀ l, l <+: x → ∀ c, t.get l ≠ some (.file c)) (y : List N) :
    t.Clear (x ++ n :: y) := by
  have hcases {l : List N} (hl : l <+: x ++ n :: y) : l <+: x ∨ t.get l = none := by
    rcases List.prefix_or_prefix_of_prefix hl (List.prefix_append x (n :: y)) with hx | ⟨z, rfl⟩
    · exact Or.inl hx
    · rcases List.prefix_cons_iff.1 ((List.prefix_append_right_inj x).1 hl) with rfl | ⟨z, rfl, -⟩
      · exact Or.inl (by rw [List.append_nil])
      · refine Or.inr ?_
        rw [← List.singleton_append, ← List.append_assoc]
        exact get_eq_none h
  refine ⟨fun l hl target htarget => ?_, fun l hl _ c hc => ?_⟩
  · rcases hcases hl with hl | hnone
    · exact hlink l hl target htarget
    · rw [List.nil_append, hnone] at htarget
      cases htarget
  · rcases hcases hl with hl | hnone
    · exact hfile l hl c hc
    · rw [hnone] at hc
      cases hc

/-- **A clear way** leads to a directory or a file, or to a name that is missing. -/
theorem Clear.cases (h : t.Clear x) : t.get x = some .dir ∨ (∃ c, t.get x = some (.file c)) ∨
    ∃ l₁ n l₂, x = l₁ ++ n :: l₂ ∧ t.get l₁ = some .dir ∧ t.get (l₁ ++ [n]) = none := by
  have hway := way_cases get_nil h.noLink
  simp only [List.nil_append] at hway
  rcases hway with hdir | hfile | hmissing | ⟨l₁, l₂, c, rfl, hne, hfile⟩
  · exact Or.inl hdir
  · exact Or.inr (Or.inl hfile)
  · exact Or.inr (Or.inr hmissing)
  · exact absurd hfile (h.noFile l₁ (List.prefix_append _ _) (by simpa using hne) c)

/-! ## Entries of directories -/

/-- The place of a path whose last name need not exist, in a directory that does. -/
def entryPlace (t : FileTree N C) (path : List N) : Except Errno (List N) :=
  match path.getLast? with
  | none => .ok []
  | some leaf =>
    (t.locate true path.dropLast).bind fun d =>
      match t.get d with
      | some .dir => .ok (d ++ [leaf])
      | _ => .error .notADirectory

theorem entryPlace_of_dir (h : t.get x = some .dir) : t.entryPlace (x ++ [n]) = .ok (x ++ [n]) := by
  rw [entryPlace, List.getLast?_concat, List.dropLast_concat]
  show (t.locate true x).bind _ = _
  rw [locate_of_get h fun _ _ => nofun]
  show (match t.get x with | some .dir => _ | _ => _ : Except Errno (List N)) = _
  rw [h]

theorem entryPlace_missing (hdir : t.get x = some .dir) (hnone : t.get (x ++ [n]) = none)
    {m : N} (y : List N) : t.entryPlace (x ++ n :: y ++ [m]) = .error .notFound := by
  rw [entryPlace, List.getLast?_concat, List.dropLast_concat]
  show (t.locate true (x ++ n :: y)).bind _ = _
  rw [locate_missing hdir hnone]
  rfl

theorem entryPlace_below_file {c : C} (h : t.get x = some (.file c)) {m : N} (y : List N) :
    t.entryPlace (x ++ y ++ [m]) = .error .notADirectory := by
  rw [entryPlace, List.getLast?_concat, List.dropLast_concat]
  show (t.locate true (x ++ y)).bind _ = _
  by_cases hy : y = []
  · rw [hy, List.append_nil, locate_of_get h fun _ _ => nofun]
    show (match t.get x with | some .dir => _ | _ => _ : Except Errno (List N)) = _
    rw [h]
  · rw [locate_below_file h hy]
    rfl

/-! ## Trees as maps -/

variable [Std.LawfulEqOrd N]

/-- Two trees with the same nodes are the same. -/
theorem ext_get (h : ∀ x, t.get x = t'.get x) : t = t' := by
  have hnodes : t.nodes = t'.nodes := by
    apply Std.ExtTreeMap.ext_getElem?
    intro x
    by_cases hx : x = []
    · rw [hx, t.root_none, t'.root_none]
    · rw [← get_of_ne hx, ← get_of_ne hx, h x]
  cases t
  cases t'
  cases hnodes
  rfl

theorem mem_keys : x ∈ t.nodes.keys ↔ x ≠ [] ∧ (t.get x).isSome := by
  rw [Std.ExtTreeMap.mem_keys, Std.ExtTreeMap.mem_iff_isSome_getElem?]
  by_cases hx : x = []
  · simp [hx, t.root_none]
  · simp [hx, get_of_ne hx]

variable [DecidableEq N]

/-! ## Changes -/

section Changes

variable [DecidableEq C]

/-- A node may be put at a place: in a directory, and not over one. -/
def CanSet (t : FileTree N C) (x : List N) (node : FileNode N C) : Prop :=
  x ≠ [] ∧ t.get x.dropLast = some .dir ∧ (t.get x = some .dir → node = .dir)

instance (t : FileTree N C) (x : List N) (node : FileNode N C) : Decidable (t.CanSet x node) :=
  inferInstanceAs (Decidable (_ ∧ _ ∧ _))

/-- Put a node at a place. -/
def set (t : FileTree N C) (x : List N) (node : FileNode N C) : FileTree N C :=
  if h : t.CanSet x node then
    { nodes := t.nodes.insert x node
      root_none := by
        simp only [Std.ExtTreeMap.getElem?_insert, Std.LawfulEqOrd.compare_eq_iff_eq, if_neg h.1,
          t.root_none]
      closed := by
        intro y n old hold
        simp only [Std.ExtTreeMap.getElem?_insert, Std.LawfulEqOrd.compare_eq_iff_eq] at hold ⊢
        have hdir : t.get y = some .dir := by
          by_cases hx : x = y ++ [n]
          · have hparent := h.2.1
            rwa [hx, List.dropLast_concat] at hparent
          · rw [if_neg hx] at hold
            exact get_parent (by rw [get_of_ne (by simp), hold]; rfl)
        by_cases hy : y = []
        · exact Or.inl hy
        · refine Or.inr ?_
          split_ifs with hxy
          · rw [h.2.2 (hxy ▸ hdir)]
          · rwa [← get_of_ne hy] }
  else t

theorem get_set (h : t.CanSet x node) (y : List N) :
    (t.set x node).get y = if y = x then some node else t.get y := by
  rw [set, dif_pos h]
  by_cases hy : y = []
  · rw [hy, get_nil, get_nil, if_neg (Ne.symm h.1)]
  · rw [get_of_ne hy, get_of_ne hy]
    simp only [Std.ExtTreeMap.getElem?_insert, Std.LawfulEqOrd.compare_eq_iff_eq, @eq_comm _ x y]

/-- No link is there where none is put. -/
theorem Linkless.set (h : t.Linkless) (hnode : ∀ target, node ≠ .link target) :
    (t.set x node).Linkless := by
  intro y target
  by_cases hcan : t.CanSet x node
  · rw [get_set hcan]
    split_ifs
    · exact fun heq => hnode target (Option.some.inj heq)
    · exact h y target
  · rw [FileTree.set, dif_neg hcan]
    exact h y target

/-- Take away what is at a place, but for directories. -/
def unset (t : FileTree N C) (x : List N) : FileTree N C :=
  if h : t.get x = some .dir then t
  else
    { nodes := t.nodes.erase x
      root_none := by
        simp only [Std.ExtTreeMap.getElem?_erase, t.root_none, ite_self]
      closed := by
        intro y n old hold
        simp only [Std.ExtTreeMap.getElem?_erase, Std.LawfulEqOrd.compare_eq_iff_eq] at hold ⊢
        split_ifs at hold with hx
        have hdir : t.get y = some .dir :=
          get_parent (by rw [get_of_ne (by simp), hold]; rfl)
        by_cases hy : y = []
        · exact Or.inl hy
        · refine Or.inr ?_
          have hxy : x ≠ y := fun heq => h (heq ▸ hdir)
          rw [if_neg hxy, ← get_of_ne hy]
          exact hdir }

theorem get_unset (h : t.get x ≠ some .dir) (y : List N) :
    (t.unset x).get y = if y = x then none else t.get y := by
  rw [unset, dif_neg h]
  by_cases hy : y = []
  · have hx : ([] : List N) ≠ x := fun hx => h (by rw [← hx, get_nil])
    rw [hy, get_nil, get_nil, if_neg hx]
  · rw [get_of_ne hy, get_of_ne hy]
    simp only [Std.ExtTreeMap.getElem?_erase, Std.LawfulEqOrd.compare_eq_iff_eq, @eq_comm _ x y]

omit [Std.LawfulEqOrd N] [DecidableEq N] [DecidableEq C] in
/-- Where nothing is, anything may be put. -/
theorem CanSet.of_none (hx : x ≠ []) (hdir : t.get x.dropLast = some .dir) (h : t.get x = none) :
    t.CanSet x node :=
  ⟨hx, hdir, fun hnode => by rw [h] at hnode; cases hnode⟩

/-- What is put over what was put. -/
theorem CanSet.again {node' : FileNode N C} (h : t.CanSet x node) (hnode : node ≠ .dir) :
    (t.set x node).CanSet x node' := by
  refine ⟨h.1, ?_, fun hdir => ?_⟩
  · have hlen := List.length_pos_of_ne_nil h.1
    have hne : x.dropLast ≠ x := fun heq => by
      have hshort := congrArg List.length heq
      rw [List.length_dropLast] at hshort
      omega
    rw [get_set h, if_neg hne]
    exact h.2.1
  · rw [get_set h, if_pos rfl] at hdir
    exact absurd (Option.some.inj hdir) hnode

theorem set_set {node' : FileNode N C} (h : t.CanSet x node) (hnode : node ≠ .dir)
    (h' : t.CanSet x node') : (t.set x node).set x node' = t.set x node' := by
  apply ext_get
  intro y
  rw [get_set (h.again hnode), get_set h, get_set h']
  split_ifs <;> rfl

/-- What is put where nothing was, and taken away. -/
theorem unset_set (h : t.CanSet x node) (hnode : node ≠ .dir) (hnone : t.get x = none) :
    (t.set x node).unset x = t := by
  have hdir : (t.set x node).get x ≠ some .dir := by
    rw [get_set h, if_pos rfl]
    exact fun heq => hnode (Option.some.inj heq)
  apply ext_get
  intro y
  rw [get_unset hdir, get_set h]
  split_ifs with hy
  · rw [hy, hnone]
  · rfl

omit [Std.LawfulEqOrd N] [DecidableEq N] [DecidableEq C] in
/-- A file may be put where one is. -/
theorem canSet_of_file {c c' : C} (h : t.get x = some (.file c)) : t.CanSet x (.file c') := by
  rcases List.eq_nil_or_concat' x with rfl | ⟨y, n, rfl⟩
  · rw [get_nil] at h
    cases h
  · refine ⟨by simp, ?_, fun hdir => ?_⟩
    · rw [List.dropLast_concat]
      exact get_parent (by rw [h]; rfl)
    · rw [h] at hdir
      cases hdir

theorem set_self (hcan : t.CanSet x node) (h : t.get x = some node) : t.set x node = t := by
  apply ext_get
  intro y
  rw [get_set hcan]
  split_ifs with hy
  · rw [hy, h]
  · rfl

/-- What is put over a file, and taken away. -/
theorem unset_set_file {c c' : C} (h : t.get x = some (.file c)) :
    (t.set x (.file c')).unset x = t.unset x := by
  have hcan : t.CanSet x (.file c') := canSet_of_file h
  have hdir : t.get x ≠ some .dir := by
    rw [h]
    exact nofun
  have hdir' : (t.set x (.file c')).get x ≠ some .dir := by
    rw [get_set hcan, if_pos rfl]
    exact nofun
  apply ext_get
  intro y
  rw [get_unset hdir', get_unset hdir, get_set hcan]
  split_ifs <;> rfl

end Changes

/-! ## Directories -/

/-- The names in a directory. -/
def children (t : FileTree N C) (x : List N) : List N :=
  t.nodes.keys.filterMap fun y => if y.dropLast = x then y.getLast? else none

theorem child_eq {M : Type} [DecidableEq M] {x y : List M} {n : M}
    (h : (if y.dropLast = x then y.getLast? else none) = some n) : y = x ++ [n] := by
  split_ifs at h with hx
  obtain ⟨z, rfl⟩ := List.getLast?_eq_some_iff.1 h
  rw [← hx, List.dropLast_concat]

theorem mem_children : n ∈ t.children x ↔ (t.get (x ++ [n])).isSome := by
  rw [children, List.mem_filterMap]
  constructor
  · rintro ⟨y, hy, hn⟩
    rw [← child_eq hn]
    exact (mem_keys.1 hy).2
  · intro h
    refine ⟨x ++ [n], mem_keys.2 ⟨by simp, h⟩, ?_⟩
    rw [List.dropLast_concat, if_pos rfl, List.getLast?_concat]

omit [Std.LawfulEqOrd N] in
theorem nodup_children : (t.children x).Nodup := by
  refine t.nodes.nodup_keys.filterMap fun y z n hy hz => ?_
  rw [child_eq hy, child_eq hz]

/-- How many names lead to the deepest node. -/
def height (t : FileTree N C) : ℕ := t.nodes.keys.foldr (fun y h => max y.length h) 0

omit [DecidableEq N] in
theorem length_le_height (h : (t.get x).isSome) : x.length ≤ t.height := by
  have hmax : ∀ l : List (List N), x ∈ l → x.length ≤ l.foldr (fun y h => max y.length h) 0 := by
    intro l hl
    induction l with
    | nil => cases hl
    | cons y l ih =>
      rw [List.foldr_cons]
      rcases List.mem_cons.1 hl with rfl | hl
      · exact le_max_left _ _
      · exact (ih hl).trans (le_max_right _ _)
  by_cases hx : x = []
  · rw [hx]
    exact Nat.zero_le _
  · exact hmax _ (mem_keys.2 ⟨hx, h⟩)

end FileTree

end Bypass
