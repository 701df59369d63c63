import Bypass.Cli.RenameCrash
import Bypass.Cli.StorageMap
import Bypass.Core.StoreWhile

/-!
# A store on a disk

The store of the command line, from its operations down to the tree of files: entries are files
below a root, beside the directory of git, whatever a commit does in it. Directories are never
removed, and each is told from a file by its name alone: `folder` says which names are those of
directories. Where the tree is `Tidy` and the operations keep to such directories, nothing of the
tree shows through.

* `Tidy.write`, `Tidy.remove`, `Tidy.list`, …: **one call**.
* `onMapWhile_storageFs`: the storage is a map while the tree is tidy.
* `disk_store_is_map`: **the store on the disk is a map** from entries to plaintexts.
-/

namespace Bypass

/-! ## Names -/

namespace RelPath

/-- The names of a path, by its segments. -/
theorem names_of_segments {q : RelPath} {init : List Str} {seg : Str}
    (h : q.segments = init ++ [seg]) :
    q.names.dropLast.map FileName.bytes = init.map utf8Encode ∧ q.leaf.bytes = utf8Encode seg := by
  have hparts := q.dropLast_append_fileName
  rw [h, List.dropLast_concat] at hparts
  refine ⟨?_, ?_⟩
  · rw [q.map_bytes_dropLast, h, List.dropLast_concat]
  · rw [q.leaf_bytes, List.singleton_inj.1 (List.append_cancel_left hparts)]

/-- The names of what lies in a directory. -/
theorem dropLast_names_of_parent {p q : RelPath} (h : p.parent = some q) :
    p.names.dropLast = q.names := by
  obtain ⟨t, hstr, ht⟩ := parent_eq_some.1 h
  have hsegs : p.segments = q.segments ++ [t] := by
    rw [segments, hstr, splitOn_append_last ht]
    rfl
  have hbytes := (names_of_segments hsegs).1
  rw [← q.map_bytes_names] at hbytes
  exact List.map_injective_iff.2 FileName.bytes_injective hbytes

theorem dropLast_names_of_parent_none {p : RelPath} (h : p.parent = none) :
    p.names.dropLast = [] := by
  have hbytes := p.map_bytes_dropLast
  rw [segments, List.splitOn_eq_singleton (parent_eq_none.1 h), List.dropLast_singleton,
    List.map_nil, List.map_eq_nil_iff] at hbytes
  exact hbytes

/-- The blob of an entry is beside it, -/
theorem names_entryToBlob (e : RelPath) : (entryToBlob e).names.dropLast = e.names.dropLast ∧
    (entryToBlob e).leaf.bytes = utf8Encode e.fileName ++ utf8Encode ".gpg".toList := by
  obtain ⟨hbytes, hleaf⟩ := names_of_segments e.segments_entryToBlob
  rw [← e.map_bytes_dropLast] at hbytes
  refine ⟨List.map_injective_iff.2 FileName.bytes_injective hbytes, ?_⟩
  rw [hleaf, utf8Encode_append]

/-- and a recipients file is in its directory. -/
theorem names_gpgIdIn (d : Option RelPath) : (gpgIdIn d).names.dropLast = d.elim [] names ∧
    (gpgIdIn d).leaf.bytes = utf8Encode ".gpg-id".toList := by
  cases d with
  | none => exact ⟨by decide, by decide⟩
  | some p =>
    have hparent : (gpgIdIn (some p)).parent = some p := parent_eq_some.2 ⟨_, rfl, by decide⟩
    have hsegs : (gpgIdIn (some p)).segments = p.segments ++ [".gpg-id".toList] :=
      splitOn_append_last (by decide)
    exact ⟨dropLast_names_of_parent hparent, (names_of_segments hsegs).2⟩

end RelPath

namespace StorageFs

variable {folder : FileName → Prop} {os : Os} {root l : List FileName}
  {t : FileTree FileName Bytes} {d : Disk FileName} {p q : RelPath}

/-- Names that can be those of directories: none is that of a blob, of a recipients file, of the
directory of git, or of a new file that is written beside its destination. -/
structure FolderNames (folder : FileName → Prop) : Prop where
  notBlob : ∀ n, folder n → ¬ utf8Encode ".gpg".toList <:+ n.bytes
  notGpgId : ∀ n, folder n → n.bytes ≠ utf8Encode ".gpg-id".toList
  notGit : ∀ n, folder n → isGitDir n = false
  notTmp : ∀ pid nanos dest, ¬ folder (uniqueTmpName pid nanos dest)

/-- The paths of directories. -/
def folders (folder : FileName → Prop) : Set RelPath := {p | ∀ n ∈ p.names, folder n}

/-- A path that a store uses: all but its last name are those of directories, and that is one of a
file. -/
structure Plain (folder : FileName → Prop) (p : RelPath) : Prop where
  way : ∀ n ∈ p.names.dropLast, folder n
  leaf : ¬ folder p.leaf
  notGit : isGitDir p.leaf = false
  notTmp : ∀ pid nanos dest, p.leaf ≠ uniqueTmpName pid nanos dest

/-- The name of a new file ends in a digit. -/
theorem getLast?_uniqueTmpName (pid nanos : ℕ) (n : FileName) {b : UInt8} (hb : b < 0x80)
    (hdigit : (Char.ofNat b.toNat).isDigit = false) :
    (uniqueTmpName pid nanos n).bytes.getLast? ≠ some b := by
  intro h
  obtain ⟨digits, c, hdigits⟩ :=
    (List.eq_nil_or_concat' (Nat.toDigits 10 nanos)).resolve_left Nat.toDigits_ne_nil
  have hc : c ∈ Nat.toDigits 10 nanos := by
    rw [hdigits]
    simp
  have hbytes : (uniqueTmpName pid nanos n).bytes =
      (n.bytes ++ utf8Encode (".tmp.".toList ++ Nat.toDigits 10 pid ++ '.' :: digits)) ++
        utf8Encode [c] := by
    have hsuffix : tmpSuffix pid nanos =
        (".tmp.".toList ++ Nat.toDigits 10 pid ++ '.' :: digits) ++ [c] := by
      rw [tmpSuffix, hdigits]
      simp only [List.append_assoc, List.cons_append]
    show n.bytes ++ utf8Encode (tmpSuffix pid nanos) = _
    rw [hsuffix, utf8Encode_append, ← List.append_assoc]
  have hne : utf8Encode [c] ≠ [] := fun hnil => by
    have hlen := length_le_length_utf8Encode [c]
    rw [hnil] at hlen
    simp at hlen
  rw [hbytes, List.getLast?_append_of_ne_nil _ hne] at h
  have hmem := (mem_utf8Encode hb).1 (List.mem_of_getLast? h)
  rw [List.mem_singleton.1 hmem, Nat.isDigit_of_mem_toDigits (by decide) (by decide) hc] at hdigit
  cases hdigit

/-- **What a store uses is plain.** -/
theorem plain_of_reached (hfolder : FolderNames folder) (h : Reached (.below (folders folder)) p) :
    Plain folder p := by
  have hleaf {b : UInt8} (hb : b < 0x80) (hdigit : (Char.ofNat b.toNat).isDigit = false)
      (hlast : p.leaf.bytes.getLast? = some b) (pid nanos : ℕ) (dest : FileName) :
      p.leaf ≠ uniqueTmpName pid nanos dest := fun heq =>
    getLast?_uniqueTmpName pid nanos dest hb hdigit (heq ▸ hlast)
  obtain ⟨dir, hdir, rfl⟩ | ⟨e, hdir, rfl⟩ := h
  · obtain ⟨hway, hbytes⟩ := RelPath.names_gpgIdIn dir
    refine ⟨fun n hn => ?_, fun hl => hfolder.notGpgId _ hl hbytes, ?_,
      hleaf (b := 0x64) (by decide) (by decide) (by rw [hbytes]; decide)⟩
    · rw [hway] at hn
      cases dir with
      | none => cases hn
      | some q => exact hdir q rfl n hn
    · rw [isGitDir, hbytes]
      decide
  · obtain ⟨hway, hbytes⟩ := RelPath.names_entryToBlob e
    have hlast : (entryToBlob e).leaf.bytes.getLast? = some 0x67 := by
      rw [hbytes, List.getLast?_append_of_ne_nil _ (by decide)]
      decide
    refine ⟨fun n hn => ?_, fun hl => hfolder.notBlob _ hl (hbytes ▸ List.suffix_append _ _), ?_,
      hleaf (b := 0x67) (by decide) (by decide) hlast⟩
    · rw [hway] at hn
      cases hparent : e.parent with
      | none =>
        rw [RelPath.dropLast_names_of_parent_none hparent] at hn
        cases hn
      | some q =>
        rw [RelPath.dropLast_names_of_parent hparent] at hn
        exact hdir q hparent n hn
    · rw [isGitDir, decide_eq_false_iff_not]
      intro hgit
      rw [hgit] at hlast
      revert hlast
      decide

/-! ## Tidy trees -/

instance (l : List FileName) : Decidable (NoGit l) :=
  inferInstanceAs (Decidable (∀ n ∈ l, isGitDir n = false))

/-- **The files of a store**: what is at each path, but for what is in a directory of git. -/
def visible (root : List FileName) (t : FileTree FileName Bytes) : Files := fun p =>
  if NoGit p.names then
    match t.get (root ++ p.names) with
    | some (.file c) => some c
    | _ => none
  else none

theorem visible_eq_some {c : Bytes} :
    visible root t p = some c ↔ NoGit p.names ∧ t.get (root ++ p.names) = some (.file c) := by
  rw [visible]
  split_ifs with hgit
  · cases t.get (root ++ p.names) with
    | none => simp
    | some node => cases node <;> simp [hgit]
  · simp [hgit]

/-- What is visible is a matter of the files outside the directories of git. -/
theorem visible_congr {t' : FileTree FileName Bytes} (h : NoGit q.names → ∀ c,
    t'.get (root ++ q.names) = some (.file c) ↔ t.get (root ++ q.names) = some (.file c)) :
    visible root t' q = visible root t q := by
  apply Option.ext
  intro c
  rw [visible_eq_some, visible_eq_some]
  exact and_congr_right fun hgit => h hgit c

/-- **The tree is tidy**: there are no links. Outside the directories of git, the files have the names
of paths, directories have their own names, and no write was left unfinished. -/
structure Tidy (folder : FileName → Prop) (root : List FileName) (t : FileTree FileName Bytes) :
    Prop where
  dir : t.get root = some .dir
  linkless : t.Linkless
  named : ∀ l c, NoGit l → t.get (root ++ l) = some (.file c) → ∃ p : RelPath, p.names = l ∧
    ¬ folder p.leaf ∧ ∀ pid nanos dest, p.leaf ≠ uniqueTmpName pid nanos dest
  folders : ∀ l n, NoGit (l ++ [n]) → t.get (root ++ (l ++ [n])) = some .dir → folder n

theorem Plain.noGit (hfolder : FolderNames folder) (hp : Plain folder p) : NoGit p.names := by
  rw [← p.dropLast_append_leaf]
  exact noGit_append.2 ⟨fun n hn => hfolder.notGit n (hp.way n hn),
    List.forall_mem_singleton.2 hp.notGit⟩

/-- A name of a directory is told from that of a new file, which is not that of git either. -/
theorem isGitDir_uniqueTmpName (pid nanos : ℕ) (dest : FileName) :
    isGitDir (uniqueTmpName pid nanos dest) = false := by
  rw [isGitDir, decide_eq_false_iff_not]
  intro hgit
  refine getLast?_uniqueTmpName pid nanos dest (b := 0x74) (by decide) (by decide) ?_
  rw [hgit]
  decide

namespace Tidy

section Places

variable (hfolder : FolderNames folder) (h : Tidy folder root t)
include hfolder h

/-- There is no file on a way of directories. -/
theorem noFile (hl : ∀ n ∈ l, folder n) (c : Bytes) : t.get (root ++ l) ≠ some (.file c) := by
  intro hfile
  obtain ⟨p, rfl, hleaf, -⟩ := h.named l c (fun n hn => hfolder.notGit n (hl n hn)) hfile
  exact hleaf (hl _ (List.getLast_mem _))

/-- Nothing is in the way of a path. -/
theorem pathFits (hp : Plain folder p) : PathFits root t p := by
  refine ⟨fun l hl hne c => h.noFile hfolder (fun n hn => hp.way n ?_) c, fun hdir => ?_⟩
  · -- what starts the names of the path and is not all of them starts those of its directory
    obtain ⟨rest, hrest⟩ := hl
    have hnil : rest ≠ [] := by
      rintro rfl
      exact hne (by rw [← hrest, List.append_nil])
    rw [← hrest, List.dropLast_append_of_ne_nil hnil]
    exact List.mem_append_left _ hn
  · have hgit := hp.noGit hfolder
    rw [← p.dropLast_append_leaf] at hdir hgit
    exact hp.leaf (h.folders _ _ hgit hdir)

theorem clear (hp : Plain folder p) : t.Clear (root ++ p.names) :=
  clear_below h.dir h.linkless (h.pathFits hfolder hp).noFile

/-- What is at a path. -/
theorem get_cases (hp : Plain folder p) :
    (∃ c, t.get (root ++ p.names) = some (.file c) ∧ visible root t p = some c) ∨
      t.get (root ++ p.names) = none ∧ visible root t p = none := by
  have hgit := hp.noGit hfolder
  rcases (h.clear hfolder hp).cases with hdir | ⟨c, hfile⟩ | ⟨l₁, n, l₂, hpath, -, hnone⟩
  · exact absurd hdir (h.pathFits hfolder hp).noDir
  · exact Or.inl ⟨c, hfile, visible_eq_some.2 ⟨hgit, hfile⟩⟩
  · have hmissing := FileTree.get_eq_none (y := l₂) hnone
    rw [List.append_assoc, List.singleton_append, ← hpath] at hmissing
    refine Or.inr ⟨hmissing, ?_⟩
    rw [visible, if_pos hgit, hmissing]

/-- The name of a new file is free. -/
theorem tmp_none (hp : Plain folder p) (pid nanos : ℕ) :
    t.get (parentOf root p ++ [uniqueTmpName pid nanos p.leaf]) = none := by
  rw [parentOf, List.append_assoc]
  have hgit : NoGit (p.names.dropLast ++ [uniqueTmpName pid nanos p.leaf]) :=
    noGit_append.2 ⟨fun n hn => hfolder.notGit n (hp.way n hn),
      List.forall_mem_singleton.2 (isGitDir_uniqueTmpName _ _ _)⟩
  cases hget : t.get (root ++ (p.names.dropLast ++ [uniqueTmpName pid nanos p.leaf])) with
  | none => rfl
  | some node =>
    cases node with
    | dir => exact absurd (h.folders _ _ hgit hget) (hfolder.notTmp _ _ _)
    | file c =>
      obtain ⟨q, hnames, -, htmp⟩ := h.named _ c hgit hget
      refine absurd ?_ (htmp pid nanos p.leaf)
      have hparts := q.dropLast_append_leaf
      rw [hnames] at hparts
      exact List.singleton_inj.1 (List.append_inj_right' hparts rfl)
    | link target => exact absurd hget (h.linkless _ target)

omit hfolder in
/-- The directories of an entry have names of directories. -/
theorem inside {e : RelPath} (he : (visible root t (entryToBlob e)).isSome = true) :
    ∀ q ∈ e.parent, q ∈ StorageFs.folders folder := by
  intro q hq n hn
  obtain ⟨c, hc⟩ := Option.isSome_iff_exists.1 he
  obtain ⟨hgit, hfile⟩ := visible_eq_some.1 hc
  have hway : (entryToBlob e).names.dropLast = q.names := by
    rw [(RelPath.names_entryToBlob e).1, RelPath.dropLast_names_of_parent hq]
  rw [← (entryToBlob e).dropLast_append_leaf, hway] at hfile hgit
  obtain ⟨l, l', hsplit⟩ := List.append_of_mem hn
  have hall : q.names ++ [(entryToBlob e).leaf] =
      (l ++ [n]) ++ (l' ++ [(entryToBlob e).leaf]) := by
    rw [hsplit]
    simp
  rw [hall] at hfile hgit
  have hnil : l' ++ [(entryToBlob e).leaf] ≠ [] := by simp
  refine h.folders l n (noGit_append.1 hgit).1 (FileTree.get_before ?_ hnil)
  rw [List.append_assoc, hfile]
  rfl

end Places

/-! ### One call -/

variable (hfolder : FolderNames folder) (hquiet : os.Quiet)
include hfolder hquiet

/-- **Writing** writes at the path. -/
theorem write (h : Tidy folder root d.tree) (hp : Plain folder p) (data : Bytes) :
    Tidy folder root ((storageFs os root).writeFn p data d).2.tree ∧
      visible root ((storageFs os root).writeFn p data d).2.tree =
        Function.update (visible root d.tree) p (some data) := by
  have hgit := hp.noGit hfolder
  have hclear := h.clear hfolder hp
  have hwritten := (write_along os p (os.nanos d.clock) data FileTree.get_nil
    (List.nil_append root) (h.linkless.noLink [] root)).2
  have hcan : CanSave (parentOf root p) (uniqueTmpName os.pid (os.nanos d.clock) p.leaf) p.leaf
      d.tree := by
    refine ⟨fun l hl => ?_, h.tmp_none hfolder hp _ _, ?_⟩
    · refine hclear.noFile l (hl.trans ?_) ?_
      · rw [← parentOf_append_leaf]
        exact List.prefix_append _ _
      · rintro rfl
        have hlen := hl.length_le
        rw [← parentOf_append_leaf, List.length_append, List.length_singleton] at hlen
        omega
    · rw [parentOf_append_leaf]
      exact (h.pathFits hfolder hp).noDir
  obtain ⟨-, hdata, hgone⟩ := hwritten.ok (hwritten.success hquiet hclear hcan)
  have hsaving : Saving (parentOf root p) (uniqueTmpName os.pid (os.nanos d.clock) p.leaf) p.leaf data
      d.tree ((storageFs os root).writeFn p data d).2.tree := by
    rcases hwritten.way with hsame | ⟨-, hsaving⟩
    · exact hsame ▸ .dirs (.refl _)
    · exact hsaving
  have hdata : ((storageFs os root).writeFn p data d).2.tree.get (root ++ p.names) =
    some (.file data) := hdata
  -- what is at a place: as before, a directory on the way, or the data
  have hget (l : List FileName) :
      ((storageFs os root).writeFn p data d).2.tree.get (root ++ l) = d.tree.get (root ++ l) ∨
        (d.tree.get (root ++ l) = none ∧
          ((storageFs os root).writeFn p data d).2.tree.get (root ++ l) = some .dir ∧
          l <+: p.names.dropLast) ∨ l = p.names := by
    rcases hsaving.get (root ++ l) with hsame | ⟨hnone, hdir, hpre⟩ | ⟨htmp, -, -, pre, hpre⟩ |
      ⟨hleaf, -⟩
    · exact Or.inl hsame
    · exact Or.inr (Or.inl ⟨hnone, hdir, (List.prefix_append_right_inj root).1 hpre⟩)
    · rw [htmp] at hpre
      exact nomatch hgone.symm.trans hpre
    · rw [parentOf_append_leaf] at hleaf
      exact Or.inr (Or.inr (List.append_cancel_left hleaf))
  refine ⟨⟨?_, hsaving.linkless h.linkless, fun l c hl hfile => ?_, fun l n hl hdir => ?_⟩, ?_⟩
  · exact FileTree.get_before (Option.isSome_iff_exists.2 ⟨_, hdata⟩) p.names_ne_nil
  · rcases hget l with hsame | ⟨-, hdir, -⟩ | rfl
    · exact h.named l c hl (hsame ▸ hfile)
    · cases hfile.symm.trans hdir
    · exact ⟨p, rfl, hp.leaf, hp.notTmp⟩
  · rcases hget (l ++ [n]) with hsame | ⟨-, -, hpre⟩ | hself
    · exact h.folders l n hl (hsame ▸ hdir)
    · exact hp.way n (hpre.subset (by simp))
    · rw [hself, hdata] at hdir
      cases hdir
  · funext q
    by_cases hq : q = p
    · rw [hq, Function.update_self, visible_eq_some]
      exact ⟨hgit, hdata⟩
    · rw [Function.update_of_ne hq]
      refine visible_congr fun _ c => ?_
      rcases hget q.names with hsame | ⟨hnone, hdir, -⟩ | hself
      · rw [hsame]
      · rw [hnone, hdir]
        simp
      · exact absurd (RelPath.names_injective hself) hq

/-- **Removing** removes the file at the path, and no directory. -/
theorem remove (h : Tidy folder root d.tree) (hp : Plain folder p) :
    Tidy folder root ((storageFs os root).removeFn p d).2.tree ∧
      visible root ((storageFs os root).removeFn p d).2.tree =
        Function.update (visible root d.tree) p none := by
  have hclear := h.clear hfolder hp
  obtain ⟨-, hend⟩ := remove_along os p (h.linkless.noLink [] root)
  obtain ⟨hmissing, hthere⟩ := hend hquiet hclear
  rcases h.get_cases hfolder hp with ⟨c, hfile, -⟩ | ⟨hnone, hvisible⟩
  · have htree : ((storageFs os root).removeFn p d).2.tree = d.tree.unset (root ++ p.names) :=
      (hthere c hfile).2
    have hget := FileTree.get_unset (h.pathFits hfolder hp).noDir
    have hold {y : List FileName} {node : FileNode FileName Bytes}
        (hy : (d.tree.unset (root ++ p.names)).get y = some node) : d.tree.get y = some node := by
      rw [hget] at hy
      split_ifs at hy
      exact hy
    rw [htree]
    refine ⟨⟨?_, fun x target hx => h.linkless x target (hold hx),
      fun l c hl hl' => h.named l c hl (hold hl'), fun l n hl hl' => h.folders l n hl (hold hl')⟩, ?_⟩
    · rw [hget, if_neg (Keeps.root_ne p), h.dir]
    · funext q
      by_cases hq : q = p
      · rw [hq, Function.update_self, visible, hget, if_pos rfl]
        simp
      · rw [Function.update_of_ne hq]
        refine visible_congr fun _ c => ?_
        rw [hget, if_neg fun heq => hq (RelPath.names_injective (List.append_cancel_left heq))]
  · have htree : ((storageFs os root).removeFn p d).2.tree = d.tree := (hmissing hnone).2
    rw [htree]
    refine ⟨h, ?_⟩
    funext q
    by_cases hq : q = p
    · rw [hq, hvisible, Function.update_self]
    · rw [Function.update_of_ne hq]

/-- **Looking for** a file does not find a directory. -/
theorem exists_ (h : Tidy folder root d.tree) (hp : Plain folder p) {b : Bool}
    (hb : ((storageFs os root).existsFn p d).1 = .ok b) : b = (visible root d.tree p).isSome := by
  obtain ⟨-, -, hanswer⟩ := exists_along os p (h.linkless.noLink [] root)
  have hok : ((storageFs os root).existsFn p d).1 = _ := hanswer hquiet (h.clear hfolder hp)
  rw [← Except.ok.inj (hok.symm.trans hb)]
  rcases h.get_cases hfolder hp with ⟨c, hfile, hvisible⟩ | ⟨hnone, hvisible⟩
  · rw [hfile, hvisible]
    rfl
  · rw [hnone, hvisible]
    rfl

omit hfolder hquiet in
/-- A file outside the directories of git is shown as the path of its names. -/
theorem takenFor_iff (h : Tidy folder root t) (hl : NoGit l) :
    TakenFor root t l q ↔ q.names = l ∧ (visible root t q).isSome = true := by
  constructor
  · rintro ⟨⟨c, hfile⟩, hshown⟩
    obtain ⟨p, rfl, -⟩ := h.named l c hl hfile
    obtain rfl : p = q := Option.some.inj ((lossyPath_names p).symm.trans hshown)
    exact ⟨rfl, Option.isSome_iff_exists.2 ⟨c, visible_eq_some.2 ⟨hl, hfile⟩⟩⟩
  · rintro ⟨rfl, hsome⟩
    obtain ⟨c, hc⟩ := Option.isSome_iff_exists.1 hsome
    exact ⟨⟨c, (visible_eq_some.1 hc).2⟩, lossyPath_names q⟩

/-- **Listing** shows the files, each once. -/
theorem list (h : Tidy folder root d.tree) {dir : Option RelPath}
    (hdir : ∀ p ∈ dir, p ∈ StorageFs.folders folder) {blobs : List RelPath}
    (hok : ((storageFs os root).listFn dir d).1 = .ok blobs) :
    blobs.Nodup ∧ ∀ q, q ∈ blobs ↔
      (visible root d.tree q).isSome = true ∧ ∀ p ∈ dir, p.Below q := by
  have hgit : NoGit (dir.elim [] RelPath.names) := by
    cases dir with
    | none => exact fun n hn => absurd hn List.not_mem_nil
    | some p => exact fun n hn => hfolder.notGit n (hdir p rfl n hn)
  constructor
  · obtain ⟨-, -, hsound, -⟩ := list_along os dir (h.linkless.noLink [] root)
    rcases (hsound blobs hok).2 with rfl | ⟨-, rfl⟩
    · exact List.nodup_nil
    · refine nodup_walkAt_of_skip fun l l' c c' q hl hl' hfile hfile' hshown hshown' => ?_
      rw [startOf, List.append_assoc] at hfile hfile' hshown hshown'
      rw [shown_below] at hshown hshown'
      have hnames {l : List FileName} {c : Bytes} (hl : NoGit l)
          (hfile : d.tree.get (root ++ (dir.elim [] RelPath.names ++ l)) = some (.file c))
          (hshown : lossyPath (dir.elim [] RelPath.names ++ l) = some q) :
          q.names = dir.elim [] RelPath.names ++ l :=
        ((h.takenFor_iff (noGit_append.2 ⟨hgit, hl⟩)).1 ⟨⟨c, hfile⟩, hshown⟩).1
      exact List.append_cancel_left ((hnames hl hfile hshown).symm.trans (hnames hl' hfile' hshown'))
  · intro q
    have hmem : q ∈ blobs ↔ ∃ l, NoGit l ∧ TakenFor root d.tree (dir.elim [] RelPath.names ++ l) q := by
      cases dir with
      | none =>
        obtain ⟨whole, hwhole, hmem⟩ := listFn_whole hquiet h.dir h.linkless
        obtain rfl := Except.ok.inj (hok.symm.trans hwhole)
        exact hmem q
      | some p => exact listFn_part hquiet h.dir h.linkless hok q
    have htaken : (∃ l, NoGit l ∧ TakenFor root d.tree (dir.elim [] RelPath.names ++ l) q) ↔
        (visible root d.tree q).isSome = true ∧ ∃ l, q.names = dir.elim [] RelPath.names ++ l := by
      constructor
      · rintro ⟨l, hl, htaken⟩
        obtain ⟨hnames, hsome⟩ :=
          (h.takenFor_iff (noGit_append.2 ⟨hgit, hl⟩)).1 htaken
        exact ⟨hsome, l, hnames⟩
      · rintro ⟨hsome, l, hnames⟩
        obtain ⟨c, hc⟩ := Option.isSome_iff_exists.1 hsome
        have hall := (visible_eq_some.1 hc).1
        rw [hnames] at hall
        exact ⟨l, (noGit_append.1 hall).2,
          (h.takenFor_iff hall).2 ⟨hnames, hsome⟩⟩
    rw [hmem, htaken]
    refine and_congr_right fun hsome => ?_
    cases dir with
    | none => exact ⟨fun _ p hp => absurd hp (Option.not_mem_none p), fun _ => ⟨q.names, rfl⟩⟩
    | some p =>
      constructor
      · rintro ⟨l, hnames⟩ p' hp'
        obtain rfl := Option.some.inj hp'
        refine RelPath.below_iff_names.2 ⟨l, ?_, hnames⟩
        rintro rfl
        obtain ⟨c, hc⟩ := Option.isSome_iff_exists.1 hsome
        refine h.noFile hfolder (hdir p rfl) c ?_
        have hsame : q.names = p.names := hnames.trans (List.append_nil _)
        rw [← hsame]
        exact (visible_eq_some.1 hc).2
      · intro hbelow
        obtain ⟨l, -, hnames⟩ := RelPath.below_iff_names.1 (hbelow p rfl)
        exact ⟨l, hnames⟩

end Tidy

/-! ## The store -/

section Store

variable {CE VE : Type} {store : Store (Disk FileName) CE StorageFsError VE}

/-- A commit reaches nothing of the store but the directories of git, and makes no links. -/
structure CommitsInGit (root : List FileName) (vcs : VersionControl (Disk FileName) VE) : Prop where
  linkless : ∀ ps m d, d.tree.Linkless → (vcs.commitFn ps m d).2.tree.Linkless
  outside : ∀ ps m d l, NoGit l →
    (vcs.commitFn ps m d).2.tree.get (root ++ l) = d.tree.get (root ++ l)

/-- What is in the directories of git does not matter. -/
theorem Tidy.of_outside {t' : FileTree FileName Bytes} (h : Tidy folder root t)
    (hlinkless : t'.Linkless) (hsame : ∀ l, NoGit l → t'.get (root ++ l) = t.get (root ++ l)) :
    Tidy folder root t' ∧ visible root t' = visible root t := by
  refine ⟨⟨?_, hlinkless, fun l c hl hfile => ?_, fun l n hl hdir => ?_⟩, ?_⟩
  · have hroot := hsame [] nofun
    rwa [List.append_nil, h.dir] at hroot
  · exact h.named l c hl (by rwa [hsame l hl] at hfile)
  · exact h.folders l n hl (by rwa [hsame _ hl] at hdir)
  · funext q
    exact visible_congr fun hq c => by rw [hsame _ hq]

/-- **The storage is a map while the tree is tidy.** -/
theorem onMapWhile_storageFs (hfolder : FolderNames folder) (hquiet : os.Quiet)
    (hstore : store.storage = storageFs os root) (hcrypto : LeavesFiles store.crypto)
    (hcommit : CommitsInGit root store.vcs) :
    OnMapWhile (fun d => Tidy folder root d.tree) (.below (folders folder)) store
      (fun d => visible root d.tree) := by
  have hsame {d d' : Disk FileName} (h : Tidy folder root d.tree) (htree : d'.tree = d.tree) :
      Tidy folder root d'.tree ∧ visible root d'.tree = visible root d.tree := by
    rw [htree]
    exact ⟨h, rfl⟩
  have hplain {p : RelPath} (hp : Reached (.below (folders folder)) p) : Plain folder p :=
    plain_of_reached hfolder hp
  refine ⟨fun p q hp hparent n hn => ?_, fun e he => he, fun d _ e h _ => h.inside, fun p rs d h => ?_, fun c d h => ?_,
    fun p d hp h => ?_, fun p data d hp h => ?_, fun p d hp h => ?_, fun p d hp h => ?_,
    fun dir d hdir h => ?_, fun ps m d h => ?_⟩
  · rw [← RelPath.dropLast_names_of_parent hparent] at hn
    exact hp n (List.mem_of_mem_dropLast hn)
  · exact hsame h (hcrypto.encrypt p rs d)
  · exact hsame h (hcrypto.decrypt c d)
  · rw [hstore]
    obtain ⟨-, htree, hread, -⟩ := read_along os p (h.linkless.noLink [] root)
    obtain ⟨htidy, hvisible⟩ := hsame h htree
    refine ⟨htidy, hvisible, fun v hv => Option.ext fun c => ?_⟩
    rw [hread v hv c, visible_eq_some, and_iff_right ((hplain hp).noGit hfolder)]
  · rw [hstore]
    obtain ⟨htidy, hvisible⟩ := h.write hfolder hquiet (hplain hp) data
    refine ⟨htidy, fun q hq => ?_, fun _ => hvisible⟩
    rw [hvisible, Function.update_of_ne hq]
  · rw [hstore]
    obtain ⟨htidy, hvisible⟩ := h.remove hfolder hquiet (hplain hp)
    refine ⟨htidy, fun q hq => ?_, fun _ => hvisible⟩
    rw [hvisible, Function.update_of_ne hq]
  · rw [hstore]
    obtain ⟨-, htree, -⟩ := exists_along os p (h.linkless.noLink [] root)
    obtain ⟨htidy, hvisible⟩ := hsame h htree
    exact ⟨htidy, hvisible, fun b hb => h.exists_ hfolder hquiet (hplain hp) hb⟩
  · rw [hstore]
    obtain ⟨-, htree, -⟩ := list_along os dir (h.linkless.noLink [] root)
    obtain ⟨htidy, hvisible⟩ := hsame h htree
    exact ⟨htidy, hvisible, fun blobs hok => h.list hfolder hquiet hdir hok⟩
  · exact h.of_outside (hcommit.linkless ps m d h.linkless) (hcommit.outside ps m d)

/-- **The store on the disk is a map.** From a tidy tree, in every run of operations on entries whose
directories have such names, in which no call fails: each operation returns what the map's operation
returns; the files then hold the map, and every file that is no blob of an entry is as it was; and
the tree is tidy again. -/
theorem disk_store_is_map (os : Os) (root : List FileName) (hfolder : FolderNames folder)
    (hquiet : os.Quiet) (hstore : store.storage = storageFs os root)
    (hcrypto : LeavesFiles store.crypto) (hcommit : CommitsInGit root store.vcs)
    (hrt : RoundTrip store) (ops : List Op) (hops : ∀ op ∈ ops, op.Within (.below (folders folder)))
    {d : Disk FileName} {m : EntryMap} (htidy : Tidy folder root d.tree)
    (hres : Resolvable StorageFsError (visible root d.tree))
    (hm : Holds store (visible root d.tree) m) (hnf : ¬ Faulty (store.traceOps ops d)) :
    (store.runOps ops d).1 = (m.steps ops).1.map (fun a => a.mapError MapError.toStore) ∧
      Holds store (visible root (store.runOps ops d).2.tree) (m.steps ops).2 ∧
      SameMetadata (visible root d.tree) (visible root (store.runOps ops d).2.tree) ∧
      Tidy folder root (store.runOps ops d).2.tree :=
  runOps_refines_while (onMapWhile_storageFs hfolder hquiet hstore hcrypto hcommit)
    (.outsideRoot []) hrt hops htidy hres hm hnf

/-! ### A run beside a repository -/

/-- The directory of git, and what is in it. -/
def gitHead : List FileName :=
  [storeName, nameOf ".git".toList validName_git, nameOf "HEAD".toList (by decide)]

/-- A commit is kept in the directory of git. -/
def headVcs : VersionControl (Disk FileName) Empty where
  commitFn _ m d := (.ok (), { d with tree := d.tree.set gitHead (.file (utf8Encode m)) })

theorem headVcs_commitsInGit : CommitsInGit [storeName] headVcs where
  linkless _ _ _ h := h.set nofun
  outside _ m d l hl := by
    show (d.tree.set gitHead (.file (utf8Encode m))).get ([storeName] ++ l) = _
    by_cases hcan : d.tree.CanSet gitHead (.file (utf8Encode m))
    · rw [FileTree.get_set hcan, if_neg]
      rintro heq
      have hgit := hl (nameOf ".git".toList validName_git) (by
        rw [show l = gitHead.tail from (List.cons.inj heq).2]
        exact List.mem_cons_self)
      revert hgit
      decide
    · rw [FileTree.set, dif_neg hcan]

/-- A store with a recipients file and no entries, beside its repository. -/
def freshDisk : Disk FileName where
  tree :=
    let store := [storeName]
    (((FileTree.empty.set store .dir).set (store ++ [nameOf ".gpg-id".toList validName_gpg_id])
      (.file (utf8Encode "ALICE\n".toList))).set
        (store ++ [nameOf ".git".toList validName_git]) .dir).set gitHead (.file [])
  clock := 0

/-- One name is that of a directory. -/
def webFolder (n : FileName) : Prop := n = nameOf "web".toList (by decide)

instance : DecidablePred webFolder := fun n => inferInstanceAs (Decidable (n = _))

instance (p : RelPath) : Decidable (p ∈ folders webFolder) :=
  inferInstanceAs (Decidable (∀ n ∈ p.names, webFolder n))

theorem webFolder_names : FolderNames webFolder where
  notBlob n hn := by
    rw [hn]
    decide
  notGpgId n hn := by
    rw [hn]
    decide
  notGit n hn := by
    rw [hn]
    decide
  notTmp pid nanos dest h := by
    refine getLast?_uniqueTmpName pid nanos dest (b := 0x62) (by decide) (by decide) ?_
    rw [h]
    decide

/-- What is on this disk. -/
theorem freshDisk_get {l : List FileName} {node : FileNode FileName Bytes}
    (h : freshDisk.tree.get ([storeName] ++ l) = some node) (hl : NoGit l) :
    l = [] ∧ node = .dir ∨ l = gpgIdPath.names ∧ node = .file (utf8Encode "ALICE\n".toList) := by
  have hkeys : ∀ x ∈ freshDisk.tree.nodes.keys, x = [storeName] ∨
      x = [storeName] ++ gpgIdPath.names ∨ ¬ NoGit x.tail := by
    decide +kernel
  have hmem : [storeName] ++ l ∈ freshDisk.tree.nodes.keys :=
    FileTree.mem_keys.2 ⟨by simp, by rw [h]; rfl⟩
  rcases hkeys _ hmem with hroot | hid | hgit
  · obtain rfl : l = [] := (List.cons.inj hroot).2
    refine Or.inl ⟨rfl, ?_⟩
    have hdir : freshDisk.tree.get ([storeName] ++ []) = some .dir := by decide +kernel
    exact Option.some.inj (h.symm.trans hdir)
  · obtain rfl := List.append_cancel_left hid
    refine Or.inr ⟨rfl, ?_⟩
    have hfile : freshDisk.tree.get ([storeName] ++ gpgIdPath.names) =
        some (.file (utf8Encode "ALICE\n".toList)) := by
      decide +kernel
    exact Option.some.inj (h.symm.trans hfile)
  · exact absurd hl hgit

theorem freshDisk_tidy : Tidy webFolder [storeName] freshDisk.tree where
  dir := by decide +kernel
  linkless := by
    have hdir (target : Target FileName) : (.dir : FileNode FileName Bytes) ≠ .link target := nofun
    have hfile (c : Bytes) (target : Target FileName) :
        (.file c : FileNode FileName Bytes) ≠ .link target := nofun
    exact (((FileTree.linkless_empty.set hdir).set (hfile _)).set hdir).set (hfile _)
  named l c hl hfile := by
    rcases freshDisk_get hfile hl with ⟨-, hnode⟩ | ⟨rfl, -⟩
    · cases hnode
    · have hreached : Reached (.below (folders webFolder)) (gpgIdIn none) := reached_gpgIdIn nofun
      have hplain := plain_of_reached webFolder_names hreached
      exact ⟨gpgIdPath, rfl, hplain.leaf, hplain.notTmp⟩
  folders l n hl hdir := by
    rcases freshDisk_get hdir hl with ⟨hnil, -⟩ | ⟨-, hnode⟩
    · simp at hnil
    · cases hnode

theorem freshDisk_visible {q : RelPath} {b : Bytes}
    (h : visible [storeName] freshDisk.tree q = some b) :
    q = gpgIdPath ∧ b = utf8Encode "ALICE\n".toList := by
  obtain ⟨hgit, hfile⟩ := visible_eq_some.1 h
  rcases freshDisk_get hfile hgit with ⟨-, hnode⟩ | ⟨hnames, hnode⟩
  · cases hnode
  · exact ⟨RelPath.names_injective hnames, FileNode.file.inj hnode⟩

/-- The store on this disk. -/
def headStore : Store (Disk FileName) TaggedError StorageFsError Empty where
  crypto := taggedCrypto
  storage := storageFs calmOs [storeName]
  vcs := headVcs

theorem headStore_leavesFiles : LeavesFiles headStore.crypto :=
  ⟨fun _ _ _ => rfl, fun c d => congrArg Disk.tree (taggedCrypto_keeps c d)⟩

theorem headStore_onMapWhile : OnMapWhile (fun d => Tidy webFolder [storeName] d.tree)
    (.below (folders webFolder)) headStore (fun d => visible [storeName] d.tree) :=
  onMapWhile_storageFs webFolder_names (fun _ => rfl) rfl headStore_leavesFiles
    headVcs_commitsInGit

theorem storageFsError_nonempty : Nonempty StorageFsError := ⟨.outsideRoot []⟩

/-- It has recipients, and no entries. -/
theorem freshDisk_resolvable :
    Resolvable StorageFsError (visible [storeName] freshDisk.tree) := fun e => by
  refine recipientsIn_isOk (by decide +kernel) (fun dir b hb => ?_) e.parent
  obtain ⟨-, rfl⟩ := freshDisk_visible hb
  exact ⟨[⟨"ALICE".toList⟩], by decide⟩

theorem freshDisk_holds : Holds headStore (visible [storeName] freshDisk.tree) ∅ := fun e => by
  have hnone : visible [storeName] freshDisk.tree (entryToBlob e) = none := by
    cases hb : visible [storeName] freshDisk.tree (entryToBlob e) with
    | none => rfl
    | some b => exact absurd (freshDisk_visible hb).1.symm (gpgIdIn_ne_entryToBlob none e)
  rw [hnone, Std.ExtTreeMap.getElem?_empty]
  exact .none

theorem headStore_roundTrip : RoundTrip headStore := by
  intro p rs w c hc w' q hq
  obtain rfl : tagHeader rs ++ p.map (· ^^^ 0xAA) = c := Except.ok.inj hc
  have hdec := congrArg Prod.fst (taggedCrypto_opens rs p w')
  exact Except.ok.inj (hq.symm.trans hdec)

theorem memRun_within : ∀ op ∈ memRun, op.Within (.below (folders webFolder)) := by
  have hin (e : RelPath) (he : ∀ n ∈ e.names.dropLast, webFolder n) :
      ∀ q ∈ e.parent, q ∈ folders webFolder := fun q hq => by
    rwa [RelPath.dropLast_names_of_parent hq] at he
  have ha := hin ⟨"web/a".toList, validate_web_a⟩ (by decide)
  have hb := hin ⟨"web/b".toList, validate_web_b⟩ (by decide)
  have hc := hin ⟨"c".toList, validate_c⟩ (by decide)
  have hweb : ∀ q ∈ some (⟨"web".toList, validate_web⟩ : RelPath), q ∈ folders webFolder := by
    rintro q ⟨⟩
    decide
  simp only [memRun, List.forall_mem_cons, Op.Within]
  have hnone : ∀ q ∈ (none : Option RelPath), q ∈ folders webFolder :=
    fun q hq => absurd hq (Option.not_mem_none q)
  exact ⟨ha, hb, ⟨ha, hc⟩, ⟨hc, hb⟩, hnone, hweb, hc, fun op hop => absurd hop List.not_mem_nil⟩

theorem memRun_sound : ¬ Faulty (headStore.traceOps memRun freshDisk) := by
  decide +kernel

theorem disk_store_is_map_memRun :
    (headStore.runOps memRun freshDisk).1 =
      ((∅ : EntryMap).steps memRun).1.map (fun a => a.mapError MapError.toStore) :=
  (disk_store_is_map calmOs [storeName] webFolder_names (fun _ => rfl) rfl headStore_leavesFiles
    headVcs_commitsInGit headStore_roundTrip memRun memRun_within freshDisk_tidy
    freshDisk_resolvable freshDisk_holds memRun_sound).1

end Store

end StorageFs

end Bypass
