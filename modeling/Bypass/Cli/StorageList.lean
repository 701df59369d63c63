import Bypass.Cli.StorageWrites

/-!
# What a listing shows

`StorageFs::list` takes the names of a file for a path once what is not UTF-8 is replaced and each
backslash is a slash. So a file may be taken for another path; and a walk that starts in a directory
of git shows what a walk through the whole root leaves out.

* `lossyPath_below`: what is found below a path is shown below it.
* `listFn_isOk`: a part of the store can be listed unless a file is in its place, or on the way to
  it.
* `NamedAsPaths.below_iff`: where names are those of paths, the files below a path are those that
  the whole store has there.
* `list_sound_iff`: **when every path that is listed can be read, and a part of the store lists what
  the whole lists below it**.
-/

namespace Bypass

namespace StorageFs

variable {os : Os} {root l : List FileName} {t : FileTree FileName Bytes} {d : Disk FileName}
  {p q : RelPath}

/-! ## Files and the paths they are taken for -/

/-- The file of these names is shown as the path. -/
def TakenFor (root : List FileName) (t : FileTree FileName Bytes) (l : List FileName)
    (q : RelPath) : Prop :=
  (∃ c, t.get (root ++ l) = some (.file c)) ∧ lossyPath l = some q

/-- No name is that of a directory of git. -/
def NoGit (l : List FileName) : Prop := ∀ n ∈ l, isGitDir n = false

theorem noGit_append {l' : List FileName} : NoGit (l ++ l') ↔ NoGit l ∧ NoGit l' :=
  List.forall_mem_append

/-- What is found below a path is shown below it. -/
theorem lossyPath_below (hl : l ≠ []) (h : lossyPath (p.names ++ l) = some q) : p.Below q := by
  have hp := lossyPath_eq_some.1 (lossyPath_names p)
  rw [RelPath.joinNames_names] at hp
  rw [lossyPath_eq_some, joinNames_append p.names_ne_nil hl, RelPath.joinNames_names,
    utf8Lossy_append _ _ (by decide), utf8Lossy_cons _ (by decide), withSlashes, List.map_append,
    List.map_cons, if_neg (by decide)] at h
  rw [RelPath.Below, h, hp, withSlashes]
  exact ⟨_, List.append_assoc _ _ _⟩

/-- What is listed, where the start is no file. -/
theorem mem_listFn_iff (dir : Option RelPath) (hquiet : os.Quiet) (hroot : d.tree.NoLink [] root)
    (hstart : ∀ c, d.tree.get (startOf root dir) ≠ some (.file c)) :
    (∃ blobs, ((storageFs os root).listFn dir d).1 = .ok blobs ∧ q ∈ blobs) ↔
      ∃ l, NoGit l ∧ TakenFor root d.tree (dir.elim [] RelPath.names ++ l) q := by
  rw [mem_listFn hquiet hroot, startOf]
  constructor
  · rintro ⟨l, c, -, hgit, hfile, hshown⟩
    rw [List.append_assoc] at hfile
    exact ⟨l, hgit, ⟨c, hfile⟩, hshown⟩
  · rintro ⟨l, hgit, ⟨c, hfile⟩, hshown⟩
    refine ⟨l, c, ?_, hgit, by rwa [List.append_assoc], hshown⟩
    rintro rfl
    rw [List.append_nil] at hfile
    exact hstart c hfile

/-- Without files on the way there is nothing in the way. -/
theorem clear_below (hdir : t.get root = some .dir) (hlinkless : t.Linkless)
    (h : ∀ l, l <+: p.names → l ≠ p.names → ∀ c, t.get (root ++ l) ≠ some (.file c)) :
    t.Clear (root ++ p.names) := by
  refine ⟨hlinkless.noLink [] _, fun l hl hne c hfile => ?_⟩
  rcases List.prefix_or_prefix_of_prefix hl (List.prefix_append root p.names)
    with hbefore | ⟨l', rfl⟩
  · exact FileTree.noFile_of_dir hdir hbefore c hfile
  · exact h l' ((List.prefix_append_right_inj root).1 hl) (fun heq => hne (by rw [heq])) c hfile

/-- **What can be listed.** -/
theorem listFn_isOk (hquiet : os.Quiet) (hdir : d.tree.get root = some .dir)
    (hlinkless : d.tree.Linkless) :
    (∃ blobs, ((storageFs os root).listFn (some p) d).1 = .ok blobs) ↔
      ∀ l, l <+: p.names → ∀ c, d.tree.get (root ++ l) ≠ some (.file c) := by
  obtain ⟨-, hsound, hanswer⟩ := (list_along os (some p) (hlinkless.noLink [] root)).2
  have hstart : startOf root (some p) = root ++ p.names := rfl
  rw [hstart] at hsound hanswer
  constructor
  · rintro ⟨blobs, hok⟩ l hl c hfile
    have hclear := (hsound blobs hok).1
    by_cases hself : l = p.names
    · rw [hself] at hfile
      have herror := hanswer hquiet hclear
      rw [walkAnswer_of_file hfile] at herror
      exact nomatch hok.symm.trans herror
    · exact (hclear p rfl).noFile (root ++ l) ((List.prefix_append_right_inj root).2 hl)
        (fun heq => hself (List.append_cancel_left heq)) c hfile
  · intro hfiles
    have hclear : d.tree.Clear (root ++ p.names) :=
      clear_below hdir hlinkless fun l hl _ => hfiles l hl
    have hok := hanswer hquiet fun q hq => by rwa [← Option.some.inj hq]
    cases hget : d.tree.get (root ++ p.names) with
    | none =>
      rw [walkAnswer_of_none hget] at hok
      exact ⟨_, hok⟩
    | some node =>
      cases node with
      | dir =>
        rw [walkAnswer_of_dir hget] at hok
        exact ⟨_, hok⟩
      | file c => exact absurd hget (hfiles p.names (List.prefix_refl _) c)
      | link target => exact absurd hget (hlinkless _ target)

/-! ## Sound listings -/

/-- **A listing is sound**: what is listed, of the whole store or below `p`, can be read; and below
`p` is listed what the whole store lists there. -/
def ListsSoundly (os : Os) (root : List FileName) (d : Disk FileName) (p : RelPath) : Prop :=
  (∀ dir, dir = none ∨ dir = some p → ∀ blobs, ((storageFs os root).listFn dir d).1 = .ok blobs →
    ∀ q ∈ blobs, ∃ c, ((storageFs os root).readFn q d).1 = .ok (some c)) ∧
  ∃ part whole, ((storageFs os root).listFn (some p) d).1 = .ok part ∧
    ((storageFs os root).listFn none d).1 = .ok whole ∧ ∀ q, q ∈ part ↔ q ∈ whole ∧ p.Below q

/-- **The names in a tree are those of paths**, as far as a listing below `p` tells. -/
structure NamedAsPaths (root : List FileName) (t : FileTree FileName Bytes) (p : RelPath) :
    Prop where
  /-- No file is in the place of `p`, or on the way to it. -/
  noFile : ∀ l, l <+: p.names → ∀ c, t.get (root ++ l) ≠ some (.file c)
  /-- A file that is taken for a path stands for a file of that path. -/
  named : ∀ l q, NoGit l → TakenFor root t l q → ∃ c, t.get (root ++ q.names) = some (.file c)
  named_below : ∀ l q, NoGit l → TakenFor root t (p.names ++ l) q →
    ∃ c, t.get (root ++ q.names) = some (.file c)
  /-- One that is taken for a path below `p` while its names are others is not the only one, unless it
  is below `p` itself. -/
  beside : ∀ l q, NoGit l → TakenFor root t l q → q.names ≠ l → p.Below q →
    ∃ l', NoGit l' ∧ TakenFor root t (p.names ++ l') q
  /-- In a directory of git there is nothing that is not found outside of it as well. -/
  git : ¬ NoGit p.names → ∀ l q, NoGit l → TakenFor root t (p.names ++ l) q →
    ∃ l', NoGit l' ∧ TakenFor root t l' q

/-- The files below `p` are those that the whole store has there. -/
theorem NamedAsPaths.below_iff {t : FileTree FileName Bytes} (h : NamedAsPaths root t p)
    (q : RelPath) : (∃ l, NoGit l ∧ TakenFor root t (p.names ++ l) q) ↔
      (∃ l, NoGit l ∧ TakenFor root t l q) ∧ p.Below q := by
  constructor
  · rintro ⟨l, hgit, htaken⟩
    have hne : l ≠ [] := by
      rintro rfl
      obtain ⟨⟨c, hfile⟩, -⟩ := htaken
      rw [List.append_nil] at hfile
      exact h.noFile p.names (List.prefix_refl _) c hfile
    refine ⟨?_, lossyPath_below hne htaken.2⟩
    by_cases hp : NoGit p.names
    · exact ⟨p.names ++ l, noGit_append.2 ⟨hp, hgit⟩, htaken⟩
    · exact h.git hp l q hgit htaken
  · rintro ⟨⟨l, hgit, htaken⟩, hbelow⟩
    by_cases hself : q.names = l
    · obtain ⟨l', -, hnames⟩ := RelPath.below_iff_names.1 hbelow
      rw [← hself, hnames] at hgit htaken
      exact ⟨l', (noGit_append.1 hgit).2, htaken⟩
    · exact h.beside l q hgit htaken hself hbelow

section Lists

variable (hquiet : os.Quiet) (hdir : d.tree.get root = some .dir) (hlinkless : d.tree.Linkless)
include hquiet hdir hlinkless

/-- The list of the whole store. -/
theorem listFn_whole : ∃ whole, ((storageFs os root).listFn none d).1 = .ok whole ∧
    ∀ q, q ∈ whole ↔ ∃ l, NoGit l ∧ TakenFor root d.tree l q := by
  have hroot := hlinkless.noLink [] root
  have hsame : startOf root none = root := List.append_nil root
  have hok := (list_along os none hroot).2.2.2 hquiet nofun
  rw [hsame, walkAnswer_of_dir hdir] at hok
  obtain ⟨whole, hwhole⟩ : ∃ whole, ((storageFs os root).listFn none d).1 = .ok whole := ⟨_, hok⟩
  refine ⟨whole, hwhole, fun q => ?_⟩
  have hmem := mem_listFn_iff none hquiet hroot (q := q) fun c hfile => by
    rw [hsame, hdir] at hfile
    cases hfile
  rw [hwhole] at hmem
  simpa using hmem

/-- The list of what is below `p`, which there is if no file is in its place or on the way to it. -/
theorem listFn_part {part : List RelPath}
    (hpart : ((storageFs os root).listFn (some p) d).1 = .ok part) (q : RelPath) :
    q ∈ part ↔ ∃ l, NoGit l ∧ TakenFor root d.tree (p.names ++ l) q := by
  have hfiles := (listFn_isOk hquiet hdir hlinkless).1 ⟨part, hpart⟩
  have hmem := mem_listFn_iff (some p) hquiet (hlinkless.noLink [] root) (q := q)
    (hfiles p.names (List.prefix_refl _))
  rw [hpart] at hmem
  simpa using hmem

end Lists

/-- **When listings are sound**: on a tree without links whose names are those of paths. -/
theorem list_sound_iff (os : Os) (root : List FileName) (d : Disk FileName) (p : RelPath)
    (hquiet : os.Quiet) (hdir : d.tree.get root = some .dir) (hlinkless : d.tree.Linkless) :
    ListsSoundly os root d p ↔ NamedAsPaths root d.tree p := by
  have hread (q : RelPath) : (∃ c, ((storageFs os root).readFn q d).1 = .ok (some c)) ↔
      ∃ c, d.tree.get (root ++ q.names) = some (.file c) :=
    exists_congr fun c => read_eq_some hquiet (hlinkless.noLink [] root)
  obtain ⟨whole, hwhole, hmemWhole⟩ := listFn_whole hquiet hdir hlinkless
  constructor
  · rintro ⟨hreadable, part, whole', hpart, hwhole', hsame⟩
    obtain rfl : whole = whole' := Except.ok.inj (hwhole.symm.trans hwhole')
    have hmemPart := listFn_part hquiet hdir hlinkless hpart
    refine ⟨(listFn_isOk hquiet hdir hlinkless).1 ⟨part, hpart⟩, fun l q hgit htaken => ?_,
      fun l q hgit htaken => ?_, fun l q hgit htaken _ hbelow => ?_, fun _ l q hgit htaken => ?_⟩
    · exact (hread q).1
        (hreadable none (Or.inl rfl) whole hwhole q ((hmemWhole q).2 ⟨l, hgit, htaken⟩))
    · exact (hread q).1
        (hreadable _ (Or.inr rfl) part hpart q ((hmemPart q).2 ⟨l, hgit, htaken⟩))
    · exact (hmemPart q).1 ((hsame q).2 ⟨(hmemWhole q).2 ⟨l, hgit, htaken⟩, hbelow⟩)
    · exact (hmemWhole q).1 ((hsame q).1 ((hmemPart q).2 ⟨l, hgit, htaken⟩)).1
  · intro h
    obtain ⟨part, hpart⟩ := (listFn_isOk hquiet hdir hlinkless).2 h.noFile
    have hmemPart := listFn_part hquiet hdir hlinkless hpart
    refine ⟨?_, part, whole, hpart, hwhole, fun q => ?_⟩
    · rintro dir (rfl | rfl) blobs hok q hq
      · obtain rfl : whole = blobs := Except.ok.inj (hwhole.symm.trans hok)
        obtain ⟨l, hgit, htaken⟩ := (hmemWhole q).1 hq
        exact (hread q).2 (h.named l q hgit htaken)
      · obtain ⟨l, hgit, htaken⟩ := (listFn_part hquiet hdir hlinkless hok q).1 hq
        exact (hread q).2 (h.named_below l q hgit htaken)
    · rw [hmemPart, hmemWhole]
      exact h.below_iff q

/-! ### A backslash in a name -/

/-- The name that Windows takes for a path. -/
def backslashName : FileName := ⟨utf8Encode "a\\b".toList, by decide⟩

/-- The file of this name is in the store. -/
def backslashDisk : Disk FileName where
  tree := (FileTree.empty.set [storeName] .dir).set [storeName, backslashName] (.file [1, 2])
  clock := 0

/-- The path that it is taken for. -/
def takenPath : RelPath := ⟨"a/b".toList, validate_a_b⟩

/-- It is listed, and cannot be read. -/
theorem backslash_listed : ¬ ListsSoundly calmOs [storeName] backslashDisk aPath := by
  rintro ⟨hreadable, -⟩
  have hlisted : ((storageFs calmOs [storeName]).listFn none backslashDisk).1 = .ok [takenPath] := by
    decide +kernel
  obtain ⟨c, hc⟩ := hreadable none (Or.inl rfl) _ hlisted takenPath (List.mem_singleton_self _)
  have hnone : ((storageFs calmOs [storeName]).readFn takenPath backslashDisk).1 = .ok none := by
    decide +kernel
  rw [hnone] at hc
  cases hc

/-- Its names are not those of a path. -/
theorem list_sound_iff_backslash :
    ListsSoundly calmOs [storeName] backslashDisk aPath ↔
      NamedAsPaths [storeName] backslashDisk.tree aPath :=
  list_sound_iff calmOs [storeName] backslashDisk aPath (fun _ => rfl) (by decide +kernel)
    (FileTree.Linkless.set (FileTree.linkless_empty.set nofun) nofun)

end StorageFs

end Bypass
