import Bypass.Core.FileNames
import Bypass.Foundations.Trie

/-!
# The tree view of the entries

`tree::render` puts the segments of each path into a trie, and prints the trie row by row: the
indentation of its directory, a connector, and its name. The connector tells whether the name is the
last of its directory; the indentation of what is below tells the same.

A name may have a line break in it. The row of such a name is more than one line.

* `renderNode_rows`: the printed text is one row for each path of the trie.
* `readListing_render`: a listing reads back when no name has a line break in it.
* `tree_faithful`: the rows, and **what they say of the entries**.
* `line_break_hides`: two stores with different entries have one listing.
-/

namespace Bypass

namespace TreeView

/-! ## Printing -/

/-- `Node`, by its children. -/
abbrev Node := Trie Str

/-- The loop of `render` that adds the segments of the entries. -/
def build (entries : List RelPath) : Node := entries.foldl (fun root e => root.insert e.segments) .nil

/-- The `connector` of a row. -/
def connector (isLast : Bool) : Str := if isLast then "└── ".toList else "├── ".toList

/-- What `child_prefix` has more than `prefix`. -/
def deeper (isLast : Bool) : Str := if isLast then "    ".toList else "│   ".toList

/-- `render_node`: the text that it adds. A child is the last when no others are left. -/
def renderNode : Node → Str → Str
  | .nil, _ => []
  | .cons name child rest, indent =>
    let isLast := decide (rest.names = [])
    indent ++ connector isLast ++ name ++ '\n' ::
      (renderNode child (indent ++ deeper isLast) ++ renderNode rest indent)

/-- `render`. -/
def render (entries : List RelPath) (header : Str) : Str :=
  header ++ '\n' :: renderNode (build entries) []

/-! ## Rows -/

/-- The row of a path, where it is known of each node on the way whether it is a last one. -/
def rowText (row : List Bool × List Str) : Str :=
  row.1.dropLast.flatMap deeper ++ connector (row.1.getLastD false) ++ row.2.getLastD []

theorem ne_nil_of_mem_rows {row : List Bool × List Str} {t : Node} (h : row ∈ t.rows) :
    row.1 ≠ [] ∧ row.2 ≠ [] := by
  induction t with
  | nil => cases h
  | cons name child rest _ ih =>
    simp only [Trie.rows, List.mem_cons, List.mem_append, List.mem_map] at h
    rcases h with rfl | ⟨row, -, rfl⟩ | h
    · simp
    · simp
    · exact ih h

/-- The text is one row for each path. -/
theorem renderNode_rows (t : Node) (indent : Str) :
    renderNode t indent = t.rows.flatMap fun row => indent ++ rowText row ++ ['\n'] := by
  induction t generalizing indent with
  | nil => rfl
  | cons name child rest ihchild ihrest =>
    have hbelow {row : List Bool × List Str} (h : row ∈ child.rows) (b : Bool) :
        rowText (b :: row.1, name :: row.2) = deeper b ++ rowText row := by
      obtain ⟨hflags, hpath⟩ := ne_nil_of_mem_rows h
      obtain ⟨flag, flags, hcons⟩ := List.exists_cons_of_ne_nil hflags
      obtain ⟨n, names, hnames⟩ := List.exists_cons_of_ne_nil hpath
      simp [rowText, hcons, hnames]
    have hchild (b : Bool) :
        child.rows.flatMap (fun row => indent ++ deeper b ++ rowText row ++ ['\n']) =
          child.rows.flatMap
            (fun row => indent ++ rowText (b :: row.1, name :: row.2) ++ ['\n']) :=
      List.flatMap_congr fun row hrow => by rw [hbelow hrow, List.append_assoc indent]
    rw [renderNode, ihchild, ihrest, hchild, Trie.rows, List.flatMap_cons, List.flatMap_append,
      List.flatMap_map]
    simp [rowText]

/-- The row of a path, among those that are listed. -/
def rowOf (listed : List (List Str)) (p : List Str) : Str :=
  rowText ((Trie.way p).map (Trie.lastOf listed), p)

theorem length_way {α : Type} (p : List α) : (Trie.way p).length = p.length := by
  simp [Trie.way]

/-! ## The entries -/

theorem foldl_insert_sorted (entries : List RelPath) {root : Node} (h : root.Sorted) :
    (entries.foldl (fun root e => root.insert e.segments) root).Sorted := by
  induction entries generalizing root with
  | nil => exact h
  | cons e entries ih => exact ih h.insert

theorem mem_paths_foldl_insert {entries : List RelPath} {root : Node} {p : List Str} :
    p ∈ (entries.foldl (fun root e => root.insert e.segments) root).paths ↔
      (p ≠ [] ∧ ∃ e ∈ entries, p <+: e.segments) ∨ p ∈ root.paths := by
  induction entries generalizing root with
  | nil => simp
  | cons e entries ih =>
    rw [List.foldl_cons, ih, Trie.mem_paths_insert]
    simp only [List.exists_mem_cons_iff]
    grind

theorem build_sorted (entries : List RelPath) : (build entries).Sorted :=
  foldl_insert_sorted entries trivial

/-- The paths of the trie are the non-empty prefixes of the entries. -/
theorem mem_build {entries : List RelPath} {p : List Str} :
    p ∈ (build entries).paths ↔ p ≠ [] ∧ ∃ e ∈ entries, p <+: e.segments := by
  rw [build, mem_paths_foldl_insert]
  simp [Trie.paths]

theorem render_rows (entries : List RelPath) (header : Str) :
    render entries header = header ++ '\n' :: (build entries).paths.flatMap
      fun p => rowOf (build entries).paths p ++ ['\n'] := by
  rw [render, renderNode_rows, Trie.rows_eq (build_sorted entries), List.flatMap_map]
  rfl

/-- Two lists of the same entries have the same paths. -/
theorem paths_build_congr {entries entries' : List RelPath} (h : ∀ e, e ∈ entries ↔ e ∈ entries') :
    (build entries).paths = (build entries').paths :=
  Trie.paths_ext (build_sorted entries) (build_sorted entries') fun p => by
    rw [mem_build, mem_build]
    simp only [h]

/-- The last paths on their way are the entries that are no directories of others. -/
theorem leaf_iff {entries : List RelPath} {p : List Str} :
    (p ∈ (build entries).paths ∧ ∀ q ∈ (build entries).paths, p <+: q → q = p) ↔
      ∃ e ∈ entries, e.segments = p ∧ ∀ e' ∈ entries, ¬ e.Below e' := by
  constructor
  · rintro ⟨hp, hlast⟩
    obtain ⟨hne, e, he, hprefix⟩ := mem_build.1 hp
    have hlisted {e' : RelPath} (he' : e' ∈ entries) (h : p <+: e'.segments) : e'.segments = p :=
      hlast _ (mem_build.2 ⟨fun hnil => hne (List.prefix_nil.1 (hnil ▸ h)), e', he',
        List.prefix_refl _⟩) h
    refine ⟨e, he, hlisted he hprefix, fun e' he' hbelow => ?_⟩
    obtain ⟨l, hl, hsegments⟩ := RelPath.below_iff_segments.1 hbelow
    rw [hlisted he hprefix] at hsegments
    have hsame := hlisted he' ⟨l, hsegments.symm⟩
    rw [hsame] at hsegments
    exact hl (by simpa using hsegments)
  · rintro ⟨e, he, rfl, hnone⟩
    refine ⟨mem_build.2 ⟨e.segments_ne_nil, e, he, List.prefix_refl _⟩, fun q hq hprefix => ?_⟩
    obtain ⟨-, e', he', hq⟩ := mem_build.1 hq
    obtain ⟨l, hl⟩ := hprefix.trans hq
    by_cases hnil : l = []
    · rw [hnil, List.append_nil] at hl
      rw [← hl] at hq
      exact (hq.eq_of_length_le hprefix.length_le)
    · exact absurd (RelPath.below_iff_segments.2 ⟨l, hnil, hl.symm⟩) (hnone e' he')

/-! ## Reading a listing -/

/-- The depth and the name of a row. -/
def readRow (depth : ℕ) : Str → Option (ℕ × Str)
  | '│' :: ' ' :: ' ' :: ' ' :: rest => readRow (depth + 1) rest
  | ' ' :: ' ' :: ' ' :: ' ' :: rest => readRow (depth + 1) rest
  | '├' :: '─' :: '─' :: ' ' :: name => some (depth, name)
  | '└' :: '─' :: '─' :: ' ' :: name => some (depth, name)
  | _ => none

/-- The paths of the lines below a header. -/
def readListing (header out : Str) : List (List Str) :=
  Trie.readBack [] (((out.drop (header.length + 1)).splitOn '\n').filterMap (readRow 0))

theorem readRow_rowText (flags : List Bool) (isLast : Bool) (p : List Str) (depth : ℕ) :
    readRow depth (rowText (flags ++ [isLast], p)) = some (depth + flags.length, p.getLastD []) := by
  induction flags generalizing depth with
  | nil => cases isLast <;> simp [rowText, connector, readRow]
  | cons flag flags ih =>
    have hrow : rowText (flag :: flags ++ [isLast], p) =
        deeper flag ++ rowText (flags ++ [isLast], p) := by
      simp only [rowText, List.dropLast_concat, List.getLastD_concat, List.flatMap_cons,
        List.append_assoc]
    rw [hrow]
    have hread : readRow depth (deeper flag ++ rowText (flags ++ [isLast], p)) =
        readRow (depth + 1) (rowText (flags ++ [isLast], p)) := by
      cases flag <;> rfl
    rw [hread, ih, List.length_cons]
    congr 2
    omega

theorem readRow_rowOf {listed : List (List Str)} {p : List Str} (hp : p ≠ []) :
    readRow 0 (rowOf listed p) = some (Trie.nodeOf [] p) := by
  have hlength : ((Trie.way p).map (Trie.lastOf listed)).length = p.length := by
    rw [List.length_map, length_way]
  rcases List.eq_nil_or_concat' ((Trie.way p).map (Trie.lastOf listed)) with hnil | ⟨flags, b, hflags⟩
  · rw [hnil] at hlength
    exact absurd (List.length_eq_zero_iff.1 hlength.symm) hp
  · rw [hflags, List.length_append, List.length_singleton] at hlength
    rw [rowOf, hflags, readRow_rowText, Trie.nodeOf, ← hlength]
    simp

theorem rowOf_no_line_break {listed : List (List Str)} {p : List Str}
    (hp : ∀ name ∈ p, '\n' ∉ name) : '\n' ∉ rowOf listed p := by
  intro hmem
  rw [rowOf, rowText] at hmem
  rcases List.mem_append.1 hmem with hmem | hmem
  · rcases List.mem_append.1 hmem with hmem | hmem
    · obtain ⟨b, -, hb⟩ := List.mem_flatMap.1 hmem
      revert hb
      cases b <;> decide
    · revert hmem
      cases List.getLastD _ false <;> decide
  · rcases List.eq_nil_or_concat' p with rfl | ⟨q, name, rfl⟩
    · cases hmem
    · rw [List.getLastD_concat] at hmem
      exact hp name (by simp) hmem

/-- **A listing reads back** when no name has a line break in it. -/
theorem readListing_render {entries : List RelPath} (header : Str)
    (h : ∀ e ∈ entries, '\n' ∉ e.str) :
    readListing header (render entries header) = (build entries).paths := by
  have hnames {p : List Str} (hp : p ∈ (build entries).paths) : ∀ name ∈ p, '\n' ∉ name := by
    intro name hname hbreak
    obtain ⟨-, e, he, hbelow⟩ := mem_build.1 hp
    refine h e he ?_
    rw [← e.join_segments]
    exact mem_intercalate_of_mem (hbelow.subset hname) hbreak
  have hdrop : (render entries header).drop (header.length + 1) =
      ((build entries).paths.map (rowOf (build entries).paths)).flatMap (· ++ ['\n']) := by
    rw [render_rows, List.flatMap_map, ← List.drop_drop, List.drop_left]
    rfl
  have hread : ((build entries).paths.map (rowOf (build entries).paths)).filterMap (readRow 0) =
      (build entries).paths.map (Trie.nodeOf []) := by
    rw [List.filterMap_map, ← List.filterMap_eq_map]
    exact List.filterMap_congr fun p hp => readRow_rowOf (Trie.ne_nil_of_mem_paths hp)
  have hlast : [([] : Str)].filterMap (readRow 0) = [] := rfl
  rw [readListing, hdrop, splitOn_lines, List.filterMap_append, hread, hlast, List.append_nil,
    Trie.readBack_paths]
  intro row hrow
  obtain ⟨p, hp, rfl⟩ := List.mem_map.1 hrow
  exact rowOf_no_line_break (hnames hp)

/-- **The listing of the entries**: the order of the list and its repetitions do not matter; below
the header is one row for each non-empty prefix of an entry, in lexicographic order, at the depth of
the prefix; the rows with nothing below them are the entries that are no directories of others. When
no name has a line break in it, all of this can be read from the text. -/
theorem tree_faithful (entries : List RelPath) (header : Str) :
    (∀ entries', (∀ e, e ∈ entries' ↔ e ∈ entries) →
      render entries' header = render entries header) ∧
    ∃ listed : List (List Str),
      (∀ p, p ∈ listed ↔ p ≠ [] ∧ ∃ e ∈ entries, p <+: e.segments) ∧
      listed.Pairwise (fun p q => compare p q = .lt) ∧ listed.Nodup ∧
      render entries header = header ++ '\n' :: listed.flatMap (fun p => rowOf listed p ++ ['\n']) ∧
      (∀ p ∈ listed, readRow 0 (rowOf listed p) = some (p.length - 1, p.getLastD [])) ∧
      (∀ p, (p ∈ listed ∧ ∀ q ∈ listed, p <+: q → q = p) ↔
        ∃ e ∈ entries, e.segments = p ∧ ∀ e' ∈ entries, ¬ e.Below e') ∧
      ((∀ e ∈ entries, '\n' ∉ e.str) → readListing header (render entries header) = listed) := by
  have hsorted := Trie.paths_sorted (build_sorted entries)
  refine ⟨fun entries' h => ?_, (build entries).paths, fun p => mem_build, hsorted, ?_,
    render_rows entries header, fun p hp => readRow_rowOf (Trie.ne_nil_of_mem_paths hp),
    fun p => leaf_iff, readListing_render header⟩
  · rw [render_rows, render_rows, paths_build_congr h]
  · refine hsorted.imp fun {p q} hlt heq => ?_
    rw [heq, Std.ReflOrd.compare_self] at hlt
    cases hlt

example : render [⟨"b".toList, by decide⟩, ⟨"a/x".toList, by decide⟩] "H".toList =
    "H\n├── a\n│   └── x\n└── b\n".toList := by decide

/-- **A line break in a name hides an entry**: the entry is no directory of another, and is listed
by the text of a store that does not have it. -/
theorem line_break_hides :
    render [⟨"a\n├── b".toList, by decide⟩, ⟨"c".toList, by decide⟩] "Password Store".toList =
        render [⟨"a".toList, by decide⟩, ⟨"b".toList, by decide⟩, ⟨"c".toList, by decide⟩]
          "Password Store".toList ∧
      (⟨"a\n├── b".toList, by decide⟩ : RelPath) ∉
        ([⟨"a".toList, by decide⟩, ⟨"b".toList, by decide⟩, ⟨"c".toList, by decide⟩] :
          List RelPath) ∧
      ¬ (⟨"a\n├── b".toList, by decide⟩ : RelPath).Below ⟨"c".toList, by decide⟩ := by
  decide

end TreeView

end Bypass
