import Bypass.Cli.StorageList
import Bypass.Foundations.Runs

/-!
# A directory as a map

`StorageFs` is held against the map in memory: the same calls are made to both, one after the other,
from an empty directory. A directory is not a map. A path may be a directory of others, or have a
file on its way; a walk leaves out what is in directories of git; and a new file needs a name of its
own for a while. `Fits` says of a call that it meets none of these.

* `Keeps`: the files are those of the map.
* `Keeps.write`, `Keeps.remove`, `Keeps.list`, …: **one call**, which answers as the map does and
  keeps the relation.
* `storage_as_map`: **whole runs**.
-/

namespace Bypass

open StorageFs

/-! ## Two storages side by side -/

/-- What a storage answers. -/
inductive BlobAnswer where
  | found (v : Option Bytes)
  | done
  | there (b : Bool)
  | paths (l : List RelPath)
  | failed
  deriving DecidableEq

/-- An error is a failure, whatever it says. -/
def BlobAnswer.of {SE α : Type} (answer : α → BlobAnswer) : Except SE α → BlobAnswer
  | .ok a => answer a
  | .error _ => .failed

/-- Answers are the same, lists up to their order. -/
def BlobAnswer.Same : BlobAnswer → BlobAnswer → Prop
  | .paths l, .paths l' => l.Perm l'
  | a, b => a = b

/-- A call of a storage. -/
def Storage.answer {W SE : Type} (storage : Storage W SE) : BlobOp → W → BlobAnswer × W
  | .read p, w => (.of .found (storage.readFn p w).1, (storage.readFn p w).2)
  | .write p data, w =>
    (.of (fun _ => .done) (storage.writeFn p data w).1, (storage.writeFn p data w).2)
  | .remove p, w => (.of (fun _ => .done) (storage.removeFn p w).1, (storage.removeFn p w).2)
  | .exists_ p, w => (.of .there (storage.existsFn p w).1, (storage.existsFn p w).2)
  | .list dir, w => (.of .paths (storage.listFn dir w).1, (storage.listFn dir w).2)

/-- **Both storages**: the same calls are made to the directory and to the map. -/
def sideBySide (os : Os) (root : List FileName) :
    Machine (Disk FileName × MemFiles) BlobOp (BlobAnswer × BlobAnswer) := fun s op =>
  some ((((storageFs os root).answer op s.1).2, (memStorage.answer op s.2).2),
    [(((storageFs os root).answer op s.1).1, (memStorage.answer op s.2).1)])

namespace StorageFs

variable {os : Os} {root : List FileName} {t : FileTree FileName Bytes} {d : Disk FileName}
  {m : MemFiles} {p : RelPath}

/-! ## Calls that fit -/

/-- The path is no directory, and no file is on the way to it. -/
structure PathFits (root : List FileName) (t : FileTree FileName Bytes) (p : RelPath) : Prop where
  noFile : ∀ l, l <+: p.names → l ≠ p.names → ∀ c, t.get (root ++ l) ≠ some (.file c)
  noDir : t.get (root ++ p.names) ≠ some .dir

/-- **The call meets nothing that a map does not know.** -/
def Fits (os : Os) (root : List FileName) (d : Disk FileName) : BlobOp → Prop
  | .read p => PathFits root d.tree p
  | .write p _ => PathFits root d.tree p ∧
      d.tree.get (parentOf root p ++ [uniqueTmpName os.pid (os.nanos d.clock) p.leaf]) = none
  | .remove p => PathFits root d.tree p
  | .exists_ p => PathFits root d.tree p
  | .list none => ∀ l c, d.tree.get (root ++ l) = some (.file c) → NoGit l
  | .list (some p) => (∀ l, l <+: p.names → ∀ c, d.tree.get (root ++ l) ≠ some (.file c)) ∧
      ∀ l c, d.tree.get (root ++ p.names ++ l) = some (.file c) → NoGit l

/-! ## The relation -/

/-- **The files below the root are those of the map.** -/
structure Keeps (root : List FileName) (t : FileTree FileName Bytes) (m : MemFiles) : Prop where
  dir : t.get root = some .dir
  linkless : t.Linkless
  file : ∀ p c, t.get (root ++ p.names) = some (.file c) ↔ memFiles m p = some c
  named : ∀ l c, t.get (root ++ l) = some (.file c) → ∃ p : RelPath, p.names = l

/-- An empty directory is an empty map. -/
theorem keeps_empty (hdir : t.get root = some .dir) (hlinkless : t.Linkless)
    (hempty : ∀ l, l ≠ [] → t.get (root ++ l) = none) : Keeps root t ∅ := by
  refine ⟨hdir, hlinkless, fun p c => ?_, fun l c hfile => ?_⟩
  · rw [hempty _ p.names_ne_nil, memFiles]
    simp
  · by_cases hl : l = []
    · rw [hl, List.append_nil, hdir] at hfile
      cases hfile
    · rw [hempty l hl] at hfile
      cases hfile

namespace Keeps

variable (h : Keeps root t m)
include h

theorem noLink : t.NoLink [] root := h.linkless.noLink [] root

theorem clear (hfits : PathFits root t p) : t.Clear (root ++ p.names) :=
  clear_below h.dir h.linkless hfits.noFile

/-- What is at a path that fits. -/
theorem get_cases (hfits : PathFits root t p) :
    (∃ c, t.get (root ++ p.names) = some (.file c) ∧ memFiles m p = some c) ∨
      t.get (root ++ p.names) = none ∧ memFiles m p = none := by
  rcases (h.clear hfits).cases with hdir | ⟨c, hfile⟩ | ⟨l₁, n, l₂, hpath, hdir, hnone⟩
  · exact absurd hdir hfits.noDir
  · exact Or.inl ⟨c, hfile, (h.file p c).1 hfile⟩
  · have hmissing := FileTree.get_eq_none (y := l₂) hnone
    rw [List.append_assoc, List.singleton_append, ← hpath] at hmissing
    refine Or.inr ⟨hmissing, Option.eq_none_iff_forall_ne_some.2 fun c hc => ?_⟩
    rw [(h.file p c).2 hc] at hmissing
    cases hmissing

/-- A change at one place, of a file. -/
theorem update {t' : FileTree FileName Bytes} {m' : MemFiles} {v : Option Bytes}
    (hdir : t'.get root = some .dir) (hlinkless : t'.Linkless)
    (hself : ∀ c, t'.get (root ++ p.names) = some (.file c) ↔ v = some c)
    (hother : ∀ l, l ≠ p.names → ∀ c,
      t'.get (root ++ l) = some (.file c) ↔ t.get (root ++ l) = some (.file c))
    (hmem : memFiles m' = Function.update (memFiles m) p v) : Keeps root t' m' := by
  refine ⟨hdir, hlinkless, fun q c => ?_, fun l c hfile => ?_⟩
  · by_cases hq : q = p
    · rw [hq, hself, hmem, Function.update_self]
    · rw [hother _ (fun hnames => hq (RelPath.names_injective hnames)), h.file, hmem,
        Function.update_of_ne hq]
  · by_cases hl : l = p.names
    · exact ⟨p, hl.symm⟩
    · exact h.named l c ((hother l hl c).1 hfile)

/-! ### One call -/

omit h

/-- The place of a path is not that of the root. -/
theorem root_ne (p : RelPath) : root ≠ root ++ p.names := fun heq =>
  p.names_ne_nil (List.self_eq_append_right.1 heq)

variable (hquiet : os.Quiet)
include hquiet

/-- **Reading** finds what the map has. -/
theorem read (h : Keeps root d.tree m) (hfits : PathFits root d.tree p) :
    ((storageFs os root).readFn p d).1 = .ok (memFiles m p) ∧
      Keeps root ((storageFs os root).readFn p d).2.tree m := by
  obtain ⟨-, hsame, -, hanswer⟩ := read_along os p h.noLink
  have hok : ((storageFs os root).readFn p d).1 = _ := hanswer hquiet (h.clear hfits)
  have htree : ((storageFs os root).readFn p d).2.tree = d.tree := hsame
  rw [hok, htree]
  refine ⟨?_, h⟩
  rcases h.get_cases hfits with ⟨c, hfile, hmem⟩ | ⟨hnone, hmem⟩
  · rw [hfile, hmem]
  · rw [hnone, hmem]

theorem exists_ (h : Keeps root d.tree m) (hfits : PathFits root d.tree p) :
    ((storageFs os root).existsFn p d).1 = .ok (memFiles m p).isSome ∧
      Keeps root ((storageFs os root).existsFn p d).2.tree m := by
  obtain ⟨-, hsame, hanswer⟩ := exists_along os p h.noLink
  have hok : ((storageFs os root).existsFn p d).1 = _ := hanswer hquiet (h.clear hfits)
  have htree : ((storageFs os root).existsFn p d).2.tree = d.tree := hsame
  rw [hok, htree]
  refine ⟨?_, h⟩
  rcases h.get_cases hfits with ⟨c, hfile, hmem⟩ | ⟨hnone, hmem⟩
  · rw [hfile, hmem]
    rfl
  · rw [hnone, hmem]
    rfl

/-- **Removing** removes from the map. -/
theorem remove (h : Keeps root d.tree m) (hfits : PathFits root d.tree p) :
    ((storageFs os root).removeFn p d).1 = .ok () ∧
      Keeps root ((storageFs os root).removeFn p d).2.tree (m.erase p) := by
  obtain ⟨-, hend⟩ := remove_along os p h.noLink
  obtain ⟨hmissing, hthere⟩ := hend hquiet (h.clear hfits)
  rcases h.get_cases hfits with ⟨c, hfile, hmem⟩ | ⟨hnone, hmem⟩
  · obtain ⟨hok, htree⟩ := hthere c hfile
    refine ⟨hok, ?_⟩
    have htree : ((storageFs os root).removeFn p d).2.tree = d.tree.unset (root ++ p.names) := htree
    have hget := FileTree.get_unset hfits.noDir
    rw [htree]
    refine h.update (v := none) ?_ (fun x target => ?_) (fun c => ?_) (fun l hl c => ?_)
      (memFiles_erase m p)
    · rw [hget, if_neg (root_ne p), h.dir]
    · rw [hget]
      split_ifs
      · exact nofun
      · exact h.linkless x target
    · rw [hget, if_pos rfl]
      simp
    · rw [hget, if_neg fun heq => hl (List.append_cancel_left heq)]
  · obtain ⟨hok, htree⟩ := hmissing hnone
    refine ⟨hok, ?_⟩
    have htree : ((storageFs os root).removeFn p d).2.tree = d.tree := htree
    rw [htree]
    refine h.update (v := none) h.dir h.linkless (fun c => ?_) (fun _ _ _ => Iff.rfl)
      (memFiles_erase m p)
    rw [hnone]
    simp

/-- **Writing** writes into the map. -/
theorem write (h : Keeps root d.tree m) {data : Bytes} (hfits : Fits os root d (.write p data)) :
    ((storageFs os root).writeFn p data d).1 = .ok () ∧
      Keeps root ((storageFs os root).writeFn p data d).2.tree (m.insert p data) := by
  obtain ⟨hpath, htmp⟩ := hfits
  have hwritten := (write_along os p (os.nanos d.clock) data
    FileTree.get_nil (List.nil_append root) h.noLink).2
  have hcan : CanSave (parentOf root p) (uniqueTmpName os.pid (os.nanos d.clock) p.leaf) p.leaf
      d.tree := by
    refine ⟨fun l hl => ?_, htmp, ?_⟩
    · refine (h.clear hpath).noFile l ?_ ?_
      · rw [← parentOf_append_leaf]
        exact hl.trans (List.prefix_append _ _)
      · rintro rfl
        have hlen := hl.length_le
        rw [← parentOf_append_leaf, List.length_append, List.length_singleton] at hlen
        omega
    · rw [parentOf_append_leaf]
      exact hpath.noDir
  have hok := hwritten.success hquiet (h.clear hpath) hcan
  obtain ⟨-, hdata, hgone⟩ := hwritten.ok hok
  have hsaving : Saving (parentOf root p) (uniqueTmpName os.pid (os.nanos d.clock) p.leaf) p.leaf data
      d.tree ((storageFs os root).writeFn p data d).2.tree := by
    rcases hwritten.way with hsame | ⟨-, hsaving⟩
    · exact hsame ▸ .dirs (.refl _)
    · exact hsaving
  refine ⟨hok, h.update (v := some data) ?_ (hsaving.linkless h.linkless) (fun c => ?_)
    (fun l hl c => ?_) (memFiles_insert m p data)⟩
  · exact FileTree.get_before (Option.isSome_iff_exists.2 ⟨_, hdata⟩) p.names_ne_nil
  · rw [show ((storageFs os root).writeFn p data d).2.tree.get (root ++ p.names) = _ from hdata]
    simp
  · rcases hsaving.get (root ++ l) with hsame | ⟨hnone, hdir, -⟩ | ⟨htmp', -, -, pre, hpre⟩ | ⟨hleaf, -⟩
    · rw [hsame]
    · rw [hnone, hdir]
      simp
    · -- the new file has been moved away
      rw [htmp'] at hpre
      exact nomatch hgone.symm.trans hpre
    · rw [parentOf_append_leaf] at hleaf
      exact absurd (List.append_cancel_left hleaf) hl

omit hquiet in
/-- A file is taken for the path that it has in the map. -/
theorem takenFor_iff (h : Keeps root t m) {l : List FileName} {q : RelPath} :
    TakenFor root t l q ↔ q.names = l ∧ (memFiles m q).isSome = true := by
  constructor
  · rintro ⟨⟨c, hfile⟩, hshown⟩
    obtain ⟨p, rfl⟩ := h.named l c hfile
    obtain rfl : p = q := Option.some.inj ((lossyPath_names p).symm.trans hshown)
    exact ⟨rfl, Option.isSome_iff_exists.2 ⟨c, (h.file p c).1 hfile⟩⟩
  · rintro ⟨rfl, hsome⟩
    obtain ⟨c, hc⟩ := Option.isSome_iff_exists.1 hsome
    exact ⟨⟨c, (h.file q c).2 hc⟩, lossyPath_names q⟩

omit hquiet in
/-- No path is listed twice. -/
theorem nodup_listed (h : Keeps root t m) (x : List FileName) : (StorageFs.listed root t x).Nodup := by
  refine nodup_walkAt fun y z c c' q hy hz hshown hshown' => ?_
  have hnames {y : List FileName} {c : Bytes} (hy : t.get y = some (.file c))
      (hshown : shown root y = some q) : y = root ++ q.names := by
    rw [shown] at hshown
    split_ifs at hshown with hpre
    obtain ⟨l, rfl⟩ := hpre
    rw [List.drop_left] at hshown
    rw [(h.takenFor_iff.1 ⟨⟨c, hy⟩, hshown⟩).1]
  rw [hnames hy hshown, hnames hz hshown']

/-- What the whole store lists: the paths of the map that do not go through a directory of git. -/
theorem list_all (h : Keeps root d.tree m) :
    ∃ blobs, ((storageFs os root).listFn none d).1 = .ok blobs ∧
      ∀ q, q ∈ blobs ↔ NoGit q.names ∧ (memFiles m q).isSome = true := by
  obtain ⟨blobs, hok, hmem⟩ := listFn_whole hquiet h.dir h.linkless
  refine ⟨blobs, hok, fun q => ?_⟩
  rw [hmem]
  simp only [h.takenFor_iff]
  constructor
  · rintro ⟨l, hgit, rfl, hsome⟩
    exact ⟨hgit, hsome⟩
  · rintro ⟨hgit, hsome⟩
    exact ⟨q.names, hgit, rfl, hsome⟩

/-- **Listing** shows the paths of the map. -/
theorem list (h : Keeps root d.tree m) {dir : Option RelPath} (hfits : Fits os root d (.list dir)) :
    (∃ blobs, ((storageFs os root).listFn dir d).1 = .ok blobs ∧ blobs.Nodup ∧
      ∀ q, q ∈ blobs ↔ (memFiles m q).isSome = true ∧ ∀ p ∈ dir, p.Below q) ∧
    Keeps root ((storageFs os root).listFn dir d).2.tree m := by
  obtain ⟨-, hsame, hsound, -⟩ := list_along os dir h.noLink
  have htree : ((storageFs os root).listFn dir d).2.tree = d.tree := hsame
  rw [htree]
  refine ⟨?_, h⟩
  have hnodup {blobs : List RelPath} (hok : ((storageFs os root).listFn dir d).1 = .ok blobs) :
      blobs.Nodup := by
    rcases (hsound blobs hok).2 with rfl | ⟨-, rfl⟩
    · exact List.nodup_nil
    · exact h.nodup_listed _
  cases dir with
  | none =>
    obtain ⟨blobs, hok, hmem⟩ := h.list_all hquiet
    refine ⟨blobs, hok, hnodup hok, fun q => ?_⟩
    rw [hmem]
    constructor
    · exact fun ⟨_, hsome⟩ => ⟨hsome, nofun⟩
    · rintro ⟨hsome, -⟩
      obtain ⟨c, hc⟩ := Option.isSome_iff_exists.1 hsome
      exact ⟨hfits q.names c ((h.file q c).2 hc), hsome⟩
  | some p =>
    obtain ⟨hfiles, hgit⟩ := hfits
    obtain ⟨blobs, hok⟩ := (listFn_isOk hquiet h.dir h.linkless).2 hfiles
    refine ⟨blobs, hok, hnodup hok, fun q => ?_⟩
    rw [listFn_part hquiet h.dir h.linkless hok]
    simp only [h.takenFor_iff]
    constructor
    · rintro ⟨l, -, hnames, hsome⟩
      refine ⟨hsome, fun p' hp' => ?_⟩
      obtain rfl := Option.some.inj hp'
      refine RelPath.below_iff_names.2 ⟨l, ?_, hnames⟩
      rintro rfl
      obtain ⟨c, hc⟩ := Option.isSome_iff_exists.1 hsome
      rw [List.append_nil] at hnames
      refine hfiles p.names (List.prefix_refl _) c ?_
      rw [← hnames]
      exact (h.file q c).2 hc
    · rintro ⟨hsome, hbelow⟩
      obtain ⟨c, hc⟩ := Option.isSome_iff_exists.1 hsome
      have hfile := (h.file q c).2 hc
      obtain ⟨l, -, hnames⟩ := RelPath.below_iff_names.1 (hbelow p rfl)
      refine ⟨l, hgit l c ?_, hnames, hsome⟩
      rwa [List.append_assoc, ← hnames]

/-- **A call that fits** is answered as by the map, and keeps the relation. -/
theorem step (h : Keeps root d.tree m) {op : BlobOp} (hfits : Fits os root d op) :
    ((storageFs os root).answer op d).1.Same (memStorage.answer op m).1 ∧
      Keeps root ((storageFs os root).answer op d).2.tree (memStorage.answer op m).2 := by
  cases op with
  | read p =>
    obtain ⟨hok, hkeeps⟩ := h.read hquiet hfits
    refine ⟨?_, hkeeps⟩
    rw [Storage.answer, hok]
    exact rfl
  | write p data =>
    obtain ⟨hok, hkeeps⟩ := h.write hquiet hfits
    refine ⟨?_, hkeeps⟩
    rw [Storage.answer, hok]
    exact rfl
  | remove p =>
    obtain ⟨hok, hkeeps⟩ := h.remove hquiet hfits
    refine ⟨?_, hkeeps⟩
    rw [Storage.answer, hok]
    exact rfl
  | exists_ p =>
    obtain ⟨hok, hkeeps⟩ := h.exists_ hquiet hfits
    refine ⟨?_, hkeeps⟩
    rw [Storage.answer, hok]
    exact congrArg BlobAnswer.there (memStore_onMap.exists_ok p m _ rfl).symm
  | list dir =>
    obtain ⟨⟨blobs, hok, hnodup, hmem⟩, hkeeps⟩ := h.list hquiet hfits
    refine ⟨?_, hkeeps⟩
    rw [Storage.answer, hok]
    have hlist := memStore_onMap.mem_list dir m _ rfl
    refine (List.perm_ext_iff_of_nodup hnodup (memStore_onMap.list_nodup dir m _ rfl)).2 fun q => ?_
    rw [hmem, hlist]

end Keeps

/-! ## Runs -/

open Machine

/-- A store with nothing in it. -/
def emptyStore : Disk FileName where
  tree := FileTree.empty.set [storeName] .dir
  clock := 0

theorem emptyStore_get {l : List FileName} (hl : l ≠ []) :
    emptyStore.tree.get ([storeName] ++ l) = none := by
  have hcan : (FileTree.empty : FileTree FileName Bytes).CanSet [storeName] .dir :=
    .of_none (by simp) FileTree.get_nil (FileTree.get_empty (by simp))
  have hne : [storeName] ++ l ≠ [storeName] := fun heq => hl (List.append_right_eq_self.1 heq)
  show (FileTree.empty.set [storeName] .dir).get ([storeName] ++ l) = none
  rw [FileTree.get_set hcan, if_neg hne]
  exact FileTree.get_empty (by simp)

/-- The move that a call makes. -/
def callOf (os : Os) (root : List FileName) (s : Disk FileName × MemFiles) (op : BlobOp) :
    Move (Disk FileName × MemFiles) BlobOp (BlobAnswer × BlobAnswer) where
  before := s
  event := op
  after := (((storageFs os root).answer op s.1).2, (memStorage.answer op s.2).2)
  outputs := [(((storageFs os root).answer op s.1).1, (memStorage.answer op s.2).1)]

/-- A blob is written, and looked for. -/
def writtenMove : Move (Disk FileName × MemFiles) BlobOp (BlobAnswer × BlobAnswer) :=
  callOf calmOs [storeName] (emptyStore, ∅) (.write aPath [1, 2])

def soughtMove : Move (Disk FileName × MemFiles) BlobOp (BlobAnswer × BlobAnswer) :=
  callOf calmOs [storeName] writtenMove.after (.exists_ aPath)

/-- A path of one name has only the root on its way. -/
theorem pathFits_aPath {t : FileTree FileName Bytes} (hdir : t.get [storeName] = some .dir)
    (hself : t.get ([storeName] ++ aPath.names) ≠ some .dir) : PathFits [storeName] t aPath := by
  refine ⟨fun l hl hne c => ?_, hself⟩
  have hone : aPath.names.length = 1 := by decide
  have hlen : l.length ≠ aPath.names.length := fun heq => hne (hl.eq_of_length heq)
  have hle := hl.length_le
  obtain rfl : l = [] := List.length_eq_zero_iff.1 (by omega)
  rw [List.append_nil, hdir]
  exact nofun

end StorageFs

end Bypass
