import Bypass.Core.Path

/-!
# Paths stay inside

`RelPath` is a string in the source, and `parent` makes one without a check. Here its operations
are taken as they stand, on strings of which nothing is known, and composed in any order. That all
of them give valid paths is an induction over the chain.

* `PathOp.apply_str`: on the string of a path, an operation does what the path's own does.
* `chain_valid`: **what a chain of operations gives is a valid path**, whose documented invariants
  are those of `Documented`.
* `visited_inside`: the walk along a valid path does not leave the directory that it starts in.
* `paths_stay_inside`, `entries_and_blobs`: the results, over all chains and all paths.
-/

namespace Bypass

/-! ## Operations on strings -/

/-- `RelPath::new`, which keeps the string. -/
def checked (s : Str) : Option Str := if validate s = .ok () then some s else none

/-- An operation that leads from one path to another. -/
inductive PathOp where
  | new (s : Str)
  | parent
  | join (segment : Str)
  | entryToBlob
  | blobToEntry

/-- What it makes of a string; there is no result where it fails, or panics. -/
def PathOp.apply (s : Str) : PathOp → Option Str
  | .new t => checked t
  | .parent => (rsplitOnce '/' s).map Prod.fst
  | .join segment => if '/' ∈ segment then none else checked (s ++ '/' :: segment)
  | .entryToBlob => checked (s ++ ".gpg".toList)
  | .blobToEntry => (stripSuffix s ".gpg".toList).bind checked

/-- The same operation on paths. -/
def PathOp.onPath (p : RelPath) : PathOp → Option RelPath
  | .new t => (RelPath.new t).toOption
  | .parent => p.parent
  | .join segment => (p.join segment).toOption
  | .entryToBlob => some (Bypass.entryToBlob p)
  | .blobToEntry => Bypass.blobToEntry p

/-- A string is checked, and then the operations are applied one after the other. -/
def chain (s : Str) (ops : List PathOp) : Option Str := (checked s).bind (ops.foldlM PathOp.apply)

theorem checked_eq_some {s t : Str} : checked s = some t ↔ validate s = .ok () ∧ s = t := by
  rw [checked]
  split_ifs with h <;> simp [h]

theorem new_toOption (s : Str) : (RelPath.new s).toOption.map RelPath.str = checked s := by
  by_cases h : validate s = .ok ()
  · rw [RelPath.new_of_valid h, checked, if_pos h]
    rfl
  · cases hnew : RelPath.new s with
    | error e =>
      rw [checked, if_neg h]
      rfl
    | ok p =>
      obtain rfl := RelPath.new_eq_ok.1 hnew
      exact absurd p.valid h

/-- **On the string of a path**, an operation does what it does on the path. -/
theorem PathOp.apply_str (p : RelPath) (op : PathOp) :
    op.apply p.str = (op.onPath p).map RelPath.str := by
  cases op with
  | new t => exact (new_toOption t).symm
  | parent =>
    rw [apply, onPath]
    cases hparent : p.parent with
    | none => rw [rsplitOnce_eq_none.2 (RelPath.parent_eq_none.1 hparent), Option.map_none,
        Option.map_none]
    | some q =>
      obtain ⟨t, ht⟩ := RelPath.parent_eq_some.1 hparent
      rw [rsplitOnce_eq_some.2 ht, Option.map_some, Option.map_some]
  | join segment =>
    rw [apply, onPath, RelPath.join]
    split_ifs
    · rfl
    · exact (new_toOption _).symm
  | entryToBlob =>
    rw [apply, onPath, ← new_toOption, new_append_gpg]
    rfl
  | blobToEntry =>
    rw [apply, onPath, Bypass.blobToEntry]
    cases stripSuffix p.str ".gpg".toList with
    | none => rfl
    | some stem => exact (new_toOption stem).symm

theorem foldlM_valid {ops : List PathOp} {s t : Str} (hs : validate s = .ok ())
    (h : ops.foldlM PathOp.apply s = some t) : validate t = .ok () := by
  induction ops generalizing s with
  | nil =>
    obtain rfl : s = t := Option.some.inj h
    exact hs
  | cons op ops ih =>
    rw [List.foldlM_cons] at h
    obtain ⟨u, hu, hrest⟩ := Option.bind_eq_some_iff.1 h
    have hstep := op.apply_str ⟨s, hs⟩
    rw [hu] at hstep
    obtain ⟨q, -, rfl⟩ := Option.map_eq_some_iff.1 hstep.symm
    exact ih q.valid hrest

/-- **What a chain gives is valid.** -/
theorem chain_valid {s t : Str} {ops : List PathOp} (h : chain s ops = some t) :
    validate t = .ok () := by
  obtain ⟨u, hu, hrest⟩ := Option.bind_eq_some_iff.1 h
  obtain ⟨hvalid, rfl⟩ := checked_eq_some.1 hu
  exact foldlM_valid hvalid hrest

/-! ## The documented invariants -/

/-- The invariants that the documentation of `RelPath` lists. -/
structure Documented (s : Str) : Prop where
  nonEmpty : s ≠ []
  noLeadingSlash : s.head? ≠ some '/'
  noTrailingSlash : s.getLast? ≠ some '/'
  noEmptySegment : [] ∉ s.splitOn '/' ∧ ¬ ['/', '/'] <:+: s
  noDotSegment : ['.'] ∉ s.splitOn '/' ∧ ['.', '.'] ∉ s.splitOn '/'
  noNul : '\x00' ∉ s
  noBackslash : '\\' ∉ s

theorem documented_of_valid {s : Str} (h : validate s = .ok ()) : Documented s := by
  obtain ⟨hnul, hback, hseg⟩ := validate_eq_ok.1 h
  have hempty : [] ∉ s.splitOn '/' := fun hmem => (hseg [] hmem).1 rfl
  refine ⟨RelPath.str_ne_nil ⟨s, h⟩, fun hhead => hempty ?_, RelPath.getLast?_ne_slash ⟨s, h⟩,
    ⟨hempty, ?_⟩, ⟨fun hmem => (hseg _ hmem).2.1 rfl, fun hmem => (hseg _ hmem).2.2 rfl⟩, hnul,
    hback⟩
  · obtain ⟨t, rfl⟩ := List.head?_eq_some_iff.1 hhead
    simp [List.splitOn_cons_eq_if_modifyHead]
  · rintro ⟨a, b, rfl⟩
    refine hempty ?_
    rw [List.append_assoc, List.cons_append, mem_splitOn_append]
    exact Or.inr (by simp [List.splitOn_cons_eq_if_modifyHead])

/-! ## Walking along a path -/

/-- The directory that a segment leads to: `.` and an empty one stay, `..` goes up. -/
def resolveSegment (dir : List Str) (segment : Str) : List Str :=
  if segment = [] ∨ segment = ['.'] then dir
  else if segment = ['.', '.'] then dir.dropLast
  else dir ++ [segment]

/-- The directories that are visited on the way. -/
def visited : List Str → List Str → List (List Str)
  | dir, [] => [dir]
  | dir, segment :: rest => dir :: visited (resolveSegment dir segment) rest

/-- **The walk stays inside** where it goes along valid segments. -/
theorem visited_inside {start dir : List Str} {segments : List Str}
    (h : ∀ segment ∈ segments, ValidSegment segment) (hdir : start <+: dir) :
    ∀ d ∈ visited dir segments, start <+: d := by
  induction segments generalizing dir with
  | nil => simpa [visited] using hdir
  | cons segment rest ih =>
    obtain ⟨⟨hempty, hdot, hdots⟩, hrest⟩ := List.forall_mem_cons.1 h
    have hdown : resolveSegment dir segment = dir ++ [segment] := by
      rw [resolveSegment, if_neg (by simp [hempty, hdot]), if_neg hdots]
    rw [visited, hdown, List.forall_mem_cons]
    exact ⟨hdir, ih hrest (hdir.trans (List.prefix_append _ _))⟩

/-! ## All chains and all paths -/

/-- A path is its parent, joined with its file name. -/
theorem RelPath.join_fileName {p q : RelPath} (h : p.parent = some q) :
    q.join p.fileName = .ok p := by
  obtain ⟨t, ht⟩ := parent_eq_some.1 h
  have hname : p.fileName = t := by
    rw [fileName, rsplitOnce_eq_some.2 ht]
  rw [join, hname, if_neg ht.2]
  exact new_eq_ok.2 ht.1

/-- **Relative paths stay inside.** Whatever chain of operations a value comes from, it has the
documented invariants, and the walk along its segments does not leave the directory that it starts
in. A path is its parent, joined with its file name. -/
theorem paths_stay_inside :
    (∀ (s t : Str) (ops : List PathOp), chain s ops = some t →
      Documented t ∧ ∀ start, ∀ d ∈ visited start (t.splitOn '/'), start <+: d) ∧
    ∀ p q : RelPath, p.parent = some q → q.join p.fileName = .ok p := by
  refine ⟨fun s t ops h => ?_, fun p q => RelPath.join_fileName⟩
  have hvalid := chain_valid h
  refine ⟨documented_of_valid hvalid, fun start => ?_⟩
  exact visited_inside (validate_eq_ok.1 hvalid).2.2 (List.prefix_refl start)

example : chain "a/b".toList [.parent, .join "c".toList, .entryToBlob, .blobToEntry] =
    some "a/c".toList := by decide

/-- The blob of an entry does not have the name of a file that the store keeps for itself. -/
theorem fileName_entryToBlob (e : RelPath) : (entryToBlob e).fileName.getLast? = some 'g' := by
  have hlast : (entryToBlob e).str.getLast? = some 'g' := by simp
  rw [RelPath.fileName]
  split
  · next head tail hsplit =>
    obtain ⟨hstr, -⟩ := rsplitOnce_eq_some.1 hsplit
    have htail : tail ≠ [] := by
      rintro rfl
      exact (entryToBlob e).getLast?_ne_slash (by rw [hstr, List.getLast?_concat])
    rwa [hstr, List.getLast?_append_of_ne_nil _ (List.cons_ne_nil _ _),
      List.getLast?_cons_of_ne_nil htail] at hlast
  · exact hlast

/-- **Entries and blobs correspond one to one.** The blob of an entry is a valid path, from which
the entry is read back, and a blob is that of the entry which is read from it. No blob has the name
of a recipients file, or of the attributes file, in whatever directory it is. -/
theorem entries_and_blobs :
    (∀ e : RelPath, RelPath.new (e.str ++ ".gpg".toList) = .ok (entryToBlob e) ∧
      blobToEntry (entryToBlob e) = some e) ∧
    (∀ b e : RelPath, blobToEntry b = some e ↔ entryToBlob e = b) ∧
    ∀ e : RelPath, (entryToBlob e).fileName ≠ ".gpg-id".toList ∧
      (entryToBlob e).fileName ≠ ".gitattributes".toList := by
  refine ⟨fun e => ⟨new_append_gpg e, blobToEntry_entryToBlob e⟩,
    fun b e => blobToEntry_eq_some.trans eq_comm, fun e => ⟨fun hname => ?_, fun hname => ?_⟩⟩
  · have hlast := fileName_entryToBlob e
    rw [hname] at hlast
    exact absurd hlast (by decide)
  · have hlast := fileName_entryToBlob e
    rw [hname] at hlast
    exact absurd hlast (by decide)

end Bypass
