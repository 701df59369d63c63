import Bypass.Core.Backend
import Bypass.Core.FileNames
import Bypass.Foundations.ReplaceFile
import Bypass.Foundations.Walk

/-!
# The storage of the command line

`StorageFs` (`storage_fs.rs`): the blob of a path is the file of its names below a root. A path with
a symbolic link on its way is refused. A file is written beside its destination and moved there; it
is overwritten before it is removed. The root is a place: there is no link on its own way.

* `absolute_along`: a path is refused unless its way is clear.
* `read_along`, `write_along`, `remove_along`, `exists_along`, `list_along`: **what each call
  reaches, leaves and answers**.
-/

namespace Bypass

/-- `StorageFsError`, of the calls of a storage. -/
inductive StorageFsError where
  | io (path : List FileName) (source : Errno)
  | outsideRoot (path : List FileName)
  | symlinkInStore (path : List FileName)
  deriving DecidableEq

/-! ## Names -/

/-- What `unique_tmp_path` adds to the name of a destination. -/
def tmpSuffix (pid nanos : ℕ) : Str :=
  ".tmp.".toList ++ Nat.toDigits 10 pid ++ '.' :: Nat.toDigits 10 nanos

theorem tmpSuffix_noSeparator (pid nanos : ℕ) :
    '/' ∉ tmpSuffix pid nanos ∧ '\x00' ∉ tmpSuffix pid nanos := by
  have hdigit {c : Char} {n : ℕ} (hc : c ∈ Nat.toDigits 10 n) : c.isDigit = true :=
    Nat.isDigit_of_mem_toDigits (by decide) (by decide) hc
  constructor <;>
  · intro hmem
    simp only [tmpSuffix, List.mem_append, List.mem_cons] at hmem
    rcases hmem with (h | h) | h | h
    · revert h
      decide
    · exact absurd (hdigit h) (by decide)
    · revert h
      decide
    · exact absurd (hdigit h) (by decide)

/-- `unique_tmp_path`: the name beside a destination, by the id of the process and the time. -/
def uniqueTmpName (pid nanos : ℕ) (dest : FileName) : FileName :=
  ⟨dest.bytes ++ utf8Encode (tmpSuffix pid nanos), by
    have hsuffix := noSeparator_utf8Encode.2 (tmpSuffix_noSeparator pid nanos)
    have hlen := length_le_length_utf8Encode (tmpSuffix pid nanos)
    refine NoSeparator.validName (noSeparator_append.2 ⟨dest.valid.2.2.2, hsuffix⟩) ?_
    simp only [tmpSuffix, List.length_append, List.length_cons, String.length_toList] at hlen
    rw [List.length_append]
    have hfive : ".tmp.".length = 5 := rfl
    simp only [hfive] at hlen
    simp only [tmpSuffix]
    omega⟩

/-- `str::replace` of backslashes by slashes. -/
def withSlashes (s : Str) : Str := s.map fun c => if c = '\\' then '/' else c

/-- The path of names below the root: what is not UTF-8 is replaced, and a backslash separates. -/
def lossyPath (l : List FileName) : Option RelPath :=
  (RelPath.new (withSlashes (utf8Lossy (joinNames l)))).toOption

theorem lossyPath_eq_some {l : List FileName} {q : RelPath} :
    lossyPath l = some q ↔ q.str = withSlashes (utf8Lossy (joinNames l)) := by
  rw [lossyPath, ← RelPath.new_eq_ok]
  cases RelPath.new (withSlashes (utf8Lossy (joinNames l))) <;> simp [Except.toOption]

/-- The names of a path show the path. -/
theorem lossyPath_names (p : RelPath) : lossyPath p.names = some p := by
  have hback := (validate_eq_ok.1 p.valid).2.1
  have hsame : withSlashes p.str = p.str := by
    refine (List.map_congr_left fun c hc => ?_).trans (List.map_id p.str)
    exact if_neg fun (hc' : c = '\\') => hback (hc' ▸ hc)
  rw [lossyPath_eq_some, RelPath.joinNames_names, RelPath.bytes, utf8Lossy_encode, hsame]

/-! ## The calls -/

namespace StorageFs

variable (os : Os) (root : List FileName)

/-- The loop of `reject_symlinks_under_root`: the segments that are left, below `probe`. -/
def rejectSymlinks (probe : List FileName) : List FileName → FsM FileName StorageFsError Unit
  | [] => pure ()
  | segment :: rest => do
    match ← (stat os false (probe ++ [segment])).attempt with
    | .ok (.link _) => throw (.symlinkInStore (probe ++ [segment]))
    | .ok _ => rejectSymlinks (probe ++ [segment]) rest
    | .error .notFound => pure ()
    | .error e => throw (.io (probe ++ [segment]) e)

/-- `StorageFs::absolute`. -/
def absolute (rel : RelPath) : FsM FileName StorageFsError (List FileName) :=
  let abs := root ++ rel.names
  if root <+: abs then do
    rejectSymlinks os root rel.names
    pure abs
  else throw (.outsideRoot abs)

/-- `StorageFs::read`. -/
def read (path : RelPath) : FsM FileName StorageFsError (Option Bytes) := do
  let abs ← absolute os root path
  match ← (readFile os abs).attempt with
  | .ok b => pure (some b)
  | .error .notFound => pure none
  | .error e => throw (.io abs e)

/-- `StorageFs::write`; the time of day is an argument. -/
def write (nanos : ℕ) (path : RelPath) (data : Bytes) : FsM FileName StorageFsError Unit := do
  let abs ← absolute os root path
  (saveFile os abs.dropLast (uniqueTmpName os.pid nanos path.leaf) path.leaf data).mapErr
    fun e => .io e.1 e.2

/-- `SHRED_PASSES`. -/
def shredPasses : ℕ := 3

/-- What a file has after a write at a position. -/
def overwriteAt (pos : ℕ) (block content : Bytes) : Bytes :=
  content.take pos ++ block ++ content.drop (pos + block.length)

/-- The inner loop of `overwrite_in_place`: random blocks over what remains of the length. -/
def overwriteBlocks (file : List FileName) (pos remaining : ℕ) : FsM FileName Errno Unit :=
  if _h : remaining = 0 then pure ()
  else do
    let chunk := min remaining 4096
    let block ← ask fun d => (List.range chunk).map (os.random d.clock)
    writeTo os file (overwriteAt pos block)
    overwriteBlocks file (pos + chunk) (remaining - chunk)
termination_by remaining
decreasing_by omega

/-- The outer loop. -/
def overwritePasses (file : List FileName) (len : ℕ) : ℕ → FsM FileName Errno Unit
  | 0 => pure ()
  | passes + 1 => do
    seek os file
    overwriteBlocks os file 0 len
    syncAll os file
    overwritePasses file len passes

/-- `overwrite_in_place`. -/
def overwriteInPlace (path : List FileName) (passes : ℕ) : FsM FileName Errno Unit := do
  let metadata ← stat os true path
  let len := match metadata with
    | .file content => content.length
    | _ => 0
  let file ← openWrite os path
  if len = 0 then syncAll os file
  else overwritePasses os file len passes

/-- `overwrite_then_unlink`. -/
def overwriteThenUnlink (path : List FileName) : FsM FileName StorageFsError Unit := do
  (overwriteInPlace os path shredPasses).mapErr (.io path)
  (unlink os path).mapErr (.io path)

/-- `StorageFs::remove`. -/
def remove (path : RelPath) : FsM FileName StorageFsError Unit := do
  let abs ← absolute os root path
  if ← pathExists os abs then overwriteThenUnlink os abs
  else pure ()

/-- `StorageFs::exists`. -/
def «exists» (path : RelPath) : FsM FileName StorageFsError Bool := do
  let abs ← absolute os root path
  pathExists os abs

/-- The directory of git, which a walk leaves out. -/
def isGitDir (name : FileName) : Bool := decide (name.bytes = utf8Encode ".git".toList)

/-- What `walk` shows of a file. -/
def shown (path : List FileName) : Option RelPath :=
  if root <+: path then lossyPath (path.drop root.length) else none

/-- `StorageFs::list`. -/
def list (dir : Option RelPath) : FsM FileName StorageFsError (List RelPath) := do
  let start ← match dir with
    | some p => absolute os root p
    | none => pure root
  if ← pathExists os start then walkFrom os .io isGitDir (shown root) start
  else pure []

end StorageFs

/-- `StorageFs` as a storage on a disk. -/
def storageFs (os : Os) (root : List FileName) : Storage (Disk FileName) StorageFsError where
  readFn path d := (StorageFs.read os root path).run d
  writeFn path data d := (StorageFs.write os root (os.nanos d.clock) path data).run d
  removeFn path d := (StorageFs.remove os root path).run d
  existsFn path d := (StorageFs.exists os root path).run d
  listFn dir d := (StorageFs.list os root dir).run d

/-! ## What the calls do -/

namespace StorageFs

variable {os : Os} {root : List FileName} {d : Disk FileName} {p : RelPath}

/-- Nothing is reached but what lies below `base`, and nothing is changed. -/
def Looks (base : List FileName) (t : FileTree FileName Bytes) (places : List (List FileName))
    (t' : FileTree FileName Bytes) : Prop :=
  (∀ y ∈ places, base <+: y) ∧ t' = t

theorem looks_mono {base base' : List FileName} (h : base' <+: base) {t t' : FileTree FileName Bytes}
    {places : List (List FileName)} (hlooks : Looks base t places t') : Looks base' t places t' :=
  ⟨fun y hy => h.trans (hlooks.1 y hy), hlooks.2⟩

/-- The check of a path: it passes where the way is clear, and only there. -/
theorem rejectSymlinks_along {probe : List FileName} (rest : List FileName)
    (hprobe : d.tree.NoLink [] probe) :
    Along (Looks probe d.tree)
      (fun r t => t = d.tree ∧ (rest ≠ [] → (r = .ok () → d.tree.Clear (probe ++ rest)) ∧
        (os.Quiet → d.tree.Clear (probe ++ rest) → r = .ok ())))
      (rejectSymlinks os probe rest) d := by
  induction rest generalizing probe d with
  | nil => exact along_pure ⟨rfl, fun h => absurd rfl h⟩
  | cons n rest ih =>
    have hcons : probe ++ n :: rest = probe ++ [n] ++ rest := by simp
    refine along_try (along_look.mono (fun places t ⟨hplaces, ht⟩ => ⟨fun y hy => ?_, ht⟩)
      fun _ _ hR => hR) ?_
    · rw [FileTree.reach_last hprobe (hplaces y hy)]
      exact List.prefix_append _ _
    rintro r d' ⟨htree, hr⟩
    -- what is there and no link is gone through
    have hgo {node : FileNode FileName Bytes} (hnode : d.tree.get (probe ++ [n]) = some node)
        (hlink : ∀ target, node ≠ .link target) :
        Along (Looks probe d.tree)
          (fun r t => t = d.tree ∧ (n :: rest ≠ [] →
            (r = .ok () → d.tree.Clear (probe ++ n :: rest)) ∧
            (os.Quiet → d.tree.Clear (probe ++ n :: rest) → r = .ok ())))
          (rejectSymlinks os (probe ++ [n]) rest) d' := by
      have hclear := FileTree.clear_of_get hnode hlink
      by_cases hnil : rest = []
      · subst hnil
        exact along_pure ⟨htree, fun _ => ⟨fun _ => hclear, fun _ _ => rfl⟩⟩
      · rw [hcons, ← htree]
        rw [← htree] at hclear
        refine (ih hclear.noLink).mono (fun _ _ => looks_mono (List.prefix_append _ _)) ?_
        exact fun r t ⟨ht, hrest⟩ => ⟨ht, fun _ => hrest hnil⟩
    rcases hr with rfl | ⟨hloud, e, rfl⟩
    · rcases FileTree.nodeAt_last (n := n) hprobe with ⟨hdir, hnode⟩ | ⟨hmissing, hnone, hfiles⟩ |
        ⟨hnotdir, l, c, hl, hfile⟩
      · rw [hnode]
        cases hget : d.tree.get (probe ++ [n]) with
        | none =>
          refine along_pure ⟨htree, fun _ => ⟨fun _ => ?_, fun _ _ => rfl⟩⟩
          exact FileTree.clear_of_missing hget hprobe (fun _ => FileTree.noFile_of_dir hdir) rest
        | some node =>
          cases node with
          | link target =>
            refine along_throw ⟨htree, fun _ => ⟨nofun, fun _ hclear => ?_⟩⟩
            refine absurd hget ?_
            have hno := hclear.noLink (probe ++ [n]) (hcons ▸ List.prefix_append _ _) target
            rwa [List.nil_append] at hno
          | _ => exact hgo hget nofun
      · rw [hmissing]
        refine along_pure ⟨htree, fun _ => ⟨fun _ => ?_, fun _ _ => rfl⟩⟩
        exact FileTree.clear_of_missing hnone hprobe hfiles rest
      · rw [hnotdir]
        refine along_throw ⟨htree, fun _ => ⟨nofun, fun _ hclear => ?_⟩⟩
        refine absurd hfile (hclear.noFile l (hl.trans (List.prefix_append _ _)) ?_ c)
        rintro rfl
        have hlen := hl.length_le
        rw [List.length_append, List.length_cons] at hlen
        omega
    · exact along_throw ⟨htree, fun _ => ⟨nofun, fun hquiet => absurd hquiet hloud⟩⟩

/-- **A path is refused unless its way is clear.** -/
theorem absolute_along (hroot : d.tree.NoLink [] root) :
    Along (Looks root d.tree)
      (fun r t => t = d.tree ∧
        (∀ abs, r = .ok abs → abs = root ++ p.names ∧ d.tree.Clear (root ++ p.names)) ∧
        (os.Quiet → d.tree.Clear (root ++ p.names) → r = .ok (root ++ p.names)))
      (absolute os root p) d := by
  rw [absolute, if_pos (List.prefix_append _ _)]
  refine along_bind (rejectSymlinks_along p.names hroot) ?_ ?_
  · rintro u d' ⟨htree, hclear⟩
    refine along_pure ⟨htree, fun abs habs => ?_, fun _ _ => rfl⟩
    exact ⟨(Except.ok.inj habs).symm, (hclear p.names_ne_nil).1 rfl⟩
  · rintro e t ⟨htree, hclear⟩
    exact ⟨htree, nofun, fun hq hc => nomatch (hclear p.names_ne_nil).2 hq hc⟩

/-- **Reading** a blob. -/
theorem read_along (os : Os) (p : RelPath) (hroot : d.tree.NoLink [] root) :
    Along (Looks root d.tree)
      (fun r t => t = d.tree ∧
        (∀ v, r = .ok v → ∀ c, v = some c ↔ d.tree.get (root ++ p.names) = some (.file c)) ∧
        (os.Quiet → d.tree.Clear (root ++ p.names) → r = match d.tree.get (root ++ p.names) with
          | some (.file c) => .ok (some c)
          | some .dir => .error (.io (root ++ p.names) .isADirectory)
          | _ => .ok none))
      (read os root p) d := by
  refine along_bind (absolute_along hroot) ?_ ?_
  · rintro abs d' ⟨htree, habs, -⟩
    obtain ⟨rfl, hclear⟩ := habs abs rfl
    rw [← htree] at hclear ⊢
    refine along_try (along_look.mono (fun places t ⟨hplaces, ht⟩ => ⟨fun y hy => ?_, ht⟩)
      fun _ _ hR => hR) ?_
    · rw [FileTree.reach_noLink hclear.noLink (hplaces y hy)]
      exact List.prefix_append _ _
    rintro r d'' ⟨htree', hr⟩
    rw [FileTree.contentAt_clear hclear] at hr
    rcases hr with rfl | ⟨hloud, e, rfl⟩
    · rcases hclear.cases with hdir | ⟨c, hfile⟩ | ⟨l₁, n, l₂, hpath, hdir, hnone⟩
      · rw [hdir]
        exact along_throw ⟨htree', nofun, fun _ _ => rfl⟩
      · rw [hfile]
        refine along_pure ⟨htree', fun v hv c' => ?_, fun _ _ => rfl⟩
        rw [← Except.ok.inj hv]
        simp
      · have hmissing := FileTree.get_eq_none (y := l₂) hnone
        rw [List.append_assoc, List.singleton_append, ← hpath] at hmissing
        rw [hmissing]
        refine along_pure ⟨htree', fun v hv c => ?_, fun _ _ => rfl⟩
        rw [← Except.ok.inj hv]
        simp
    · exact along_throw ⟨htree', nofun, fun hquiet => absurd hquiet hloud⟩
  · rintro e t ⟨htree, -, hquiet⟩
    exact ⟨htree, nofun, fun hq hclear => nomatch hquiet hq hclear⟩

/-- **Whether there is a blob.** -/
theorem exists_along (os : Os) (p : RelPath) (hroot : d.tree.NoLink [] root) :
    Along (Looks root d.tree)
      (fun r t => t = d.tree ∧ (os.Quiet → d.tree.Clear (root ++ p.names) →
        r = .ok (d.tree.get (root ++ p.names)).isSome))
      («exists» os root p) d := by
  refine along_bind (absolute_along hroot) ?_ ?_
  · rintro abs d' ⟨htree, habs, -⟩
    obtain ⟨rfl, hclear⟩ := habs abs rfl
    rw [← htree] at hclear ⊢
    refine (pathExists_along hclear.noLink).mono (fun places t ⟨hplaces, ht⟩ => ⟨fun y hy => ?_, ht⟩) ?_
    · rw [hplaces y hy]
      exact List.prefix_append _ _
    · rintro r t ⟨ht, b, rfl, -, hquiet⟩
      exact ⟨ht, fun hq _ => by rw [hquiet hq]⟩
  · rintro e t ⟨htree, -, hquiet⟩
    exact ⟨htree, fun hq hclear => nomatch hquiet hq hclear⟩

/-! ### Writing -/

theorem uniqueTmpName_ne (pid nanos : ℕ) (dest : FileName) : uniqueTmpName pid nanos dest ≠ dest := by
  intro h
  have hbytes := congrArg (fun n => n.bytes.length) h
  have hlen := length_le_length_utf8Encode (tmpSuffix pid nanos)
  simp only [uniqueTmpName, List.length_append] at hbytes
  simp only [tmpSuffix, List.length_append, List.length_cons] at hlen hbytes
  omega

/-- How writing ends: in success, if no call fails, the way is clear, and the file can be saved. -/
structure Written (os : Os) (root : List FileName) (p : RelPath) (tmp : FileName) (data : Bytes)
    (t : FileTree FileName Bytes) (r : Except StorageFsError Unit) (t' : FileTree FileName Bytes) :
    Prop where
  way : t' = t ∨ t.Clear (root ++ p.names) ∧ Saving (parentOf root p) tmp p.leaf data t t'
  ok : r = .ok () → CanSave (parentOf root p) tmp p.leaf t ∧
    t'.get (root ++ p.names) = some (.file data) ∧ t'.get (parentOf root p ++ [tmp]) = none
  error : os.Quiet → r ≠ .ok () → DirsAdded [] (parentOf root p) t t'
  success : os.Quiet → t.Clear (root ++ p.names) → CanSave (parentOf root p) tmp p.leaf t → r = .ok ()

/-- **Writing** a blob. -/
theorem write_along (os : Os) (p : RelPath) (nanos : ℕ) (data : Bytes) {base l : List FileName}
    (hbase : d.tree.get base = some .dir) (hl : base ++ l = root) (hroot : d.tree.NoLink [] root) :
    Along (fun places t => (∀ y ∈ places, base <+: y) ∧ (t = d.tree ∨ d.tree.Clear (root ++ p.names) ∧
        Saving (parentOf root p) (uniqueTmpName os.pid nanos p.leaf) p.leaf data d.tree t))
      (Written os root p (uniqueTmpName os.pid nanos p.leaf) data d.tree)
      (write os root nanos p data) d := by
  refine along_bind ((absolute_along hroot).mono ?_ fun _ _ hR => hR) ?_ ?_
  · rintro places t ⟨hplaces, rfl⟩
    refine ⟨fun y hy => ?_, Or.inl rfl⟩
    rw [← hl] at hplaces
    exact (List.prefix_append _ _).trans (hplaces y hy)
  · rintro abs d' ⟨htree, habs, -⟩
    obtain ⟨rfl, hclear⟩ := habs abs rfl
    rw [← htree] at hclear hbase ⊢
    have hparent : base ++ (l ++ p.names.dropLast) = parentOf root p := by
      rw [← List.append_assoc, hl, parentOf]
    have hlink : d'.tree.NoLink base (l ++ p.names.dropLast) := by
      intro l' hl' target
      have hway : base ++ l' <+: root ++ p.names := by
        rw [← parentOf_append_leaf, ← hparent]
        exact ((List.prefix_append_right_inj base).2 hl').trans (List.prefix_append _ _)
      have hno := hclear.noLink (base ++ l') hway target
      rwa [List.nil_append] at hno
    rw [dropLast_append_names]
    refine along_mapErr ((saveFile_along hbase hparent hlink (uniqueTmpName_ne _ _ _)).mono ?_ ?_)
    · rintro places t ⟨hplaces, hway⟩
      exact ⟨hplaces, Or.inr ⟨hclear, hway⟩⟩
    · rintro r t ⟨hway, hok, herror, hsuccess⟩
      rw [parentOf_append_leaf] at hok
      refine ⟨Or.inr ⟨hclear, hway⟩, fun hr => hok ?_, fun hq hr => herror hq ?_,
        fun hq _ hcan => by rw [hsuccess hq hcan]; rfl⟩
      · cases r with
        | ok u => rfl
        | error e => cases hr
      · rintro rfl
        exact hr rfl
  · rintro e t ⟨rfl, -, hquiet⟩
    exact ⟨Or.inl rfl, by simp, fun _ _ => .refl _, fun hq hclear _ => by cases hquiet hq hclear⟩

/-! ### Listing -/

/-- What a walk from `x` through `t` shows. -/
def listed (root : List FileName) (t : FileTree FileName Bytes) (x : List FileName) : List RelPath :=
  t.walkAt isGitDir (shown root) (t.height + 1) x

theorem shown_below (l : List FileName) : shown root (root ++ l) = lossyPath l := by
  rw [shown, if_pos (List.prefix_append _ _), List.drop_left]

/-- What a walk from `root ++ x` shows. -/
theorem mem_listed {t : FileTree FileName Bytes} {x : List FileName} {q : RelPath} :
    q ∈ listed root t (root ++ x) ↔ ∃ l c, l ≠ [] ∧ (∀ n ∈ l, isGitDir n = false) ∧
      t.get (root ++ x ++ l) = some (.file c) ∧ lossyPath (x ++ l) = some q := by
  rw [listed, mem_walkAt (by omega)]
  simp only [List.append_assoc, shown_below]

/-- **Listing** blobs. -/
theorem list_along (os : Os) (dir : Option RelPath) (hroot : d.tree.NoLink [] root) :
    Along (Looks root d.tree)
      (fun r t => t = d.tree ∧
        (∀ l, r = .ok l → (∀ p ∈ dir, d.tree.Clear (root ++ p.names)) ∧
          (l = [] ∨ d.tree.get (startOf root dir) = some .dir ∧
            l = listed root d.tree (startOf root dir))) ∧
        (os.Quiet → (∀ p ∈ dir, d.tree.Clear (root ++ p.names)) →
          r = d.tree.walkAnswer .io isGitDir (shown root) (startOf root dir)))
      (list os root dir) d := by
  cases dir with
  | none =>
    have hstart : startOf root none = root := List.append_nil root
    rw [hstart]
    refine (walkIfThere_along hroot).mono (fun _ _ h => h) ?_
    rintro r t ⟨ht, hl, hquiet⟩
    exact ⟨ht, fun l hr => ⟨nofun, hl l hr⟩, fun hq _ => hquiet hq⟩
  | some p =>
    refine along_bind (absolute_along hroot) ?_ ?_
    · rintro abs d' ⟨htree, habs, -⟩
      obtain ⟨rfl, hclear⟩ := habs abs rfl
      rw [← htree] at hclear ⊢
      refine (walkIfThere_along hclear.noLink).mono
        (fun _ _ h => looks_mono (List.prefix_append _ _) h) ?_
      rintro r t ⟨ht, hl, hquiet⟩
      refine ⟨ht, fun l hr => ⟨fun q hq => ?_, hl l hr⟩, fun hq _ => hquiet hq⟩
      rwa [← Option.some.inj hq]
    · rintro e t ⟨htree, -, hquiet⟩
      exact ⟨htree, nofun, fun hq hclear => nomatch hquiet hq (hclear p rfl)⟩

/-! ### Removing -/

section Removing

variable {x : List FileName} {t : FileTree FileName Bytes} {c : Bytes}

/-- The content of the file at `x` is another. -/
def Over (x : List FileName) (t t' : FileTree FileName Bytes) : Prop := ∃ c, t' = t.set x (.file c)

/-- Calls on an open file. -/
def OnFile (x : List FileName) (t : FileTree FileName Bytes) (places : List (List FileName))
    (t' : FileTree FileName Bytes) : Prop :=
  (∀ y ∈ places, y = x) ∧ Over x t t'

/-- A call that leaves an open file as it is. -/
theorem keepFile_along (hover : Over x t d.tree) :
    Along (OnFile x t) (fun r t' => Over x t t' ∧ (os.Quiet → r = .ok ()))
      (sys os (fun _ => [x]) fun t => (.ok (), t)) d := by
  refine along_look.mono (fun places t' ⟨hplaces, ht⟩ => ⟨fun y hy => ?_, ht ▸ hover⟩) ?_
  · exact List.mem_singleton.1 (hplaces y hy)
  · rintro r t' ⟨rfl, rfl | ⟨hloud, -⟩⟩
    · exact ⟨hover, fun _ => rfl⟩
    · exact ⟨hover, fun hquiet => absurd hquiet hloud⟩

theorem overwriteBlocks_along (hfile : t.get x = some (.file c)) (hover : Over x t d.tree)
    (pos remaining : ℕ) :
    Along (OnFile x t) (fun r t' => Over x t t' ∧ (os.Quiet → r = .ok ()))
      (overwriteBlocks os x pos remaining) d := by
  induction remaining using Nat.strong_induction_on generalizing pos d with
  | _ remaining ih =>
    rw [overwriteBlocks]
    split_ifs with hzero
    · exact along_pure ⟨hover, fun _ => rfl⟩
    refine along_bind (R := fun r t' => Over x t t' ∧ ∃ block, r = .ok block)
      (along_ask ⟨nofun, hover⟩ ⟨hover, _, rfl⟩) ?_ ?_
    · rintro block d' ⟨⟨c', htree⟩, -⟩
      have hover' : Over x t (d'.tree.modify x (overwriteAt pos block)) := by
        rw [htree, FileTree.modify_set fun _ => FileTree.canSet_of_file hfile]
        exact ⟨_, rfl⟩
      refine along_bind (along_sys ⟨nofun, c', htree⟩ ⟨fun y => List.mem_singleton.1, hover'⟩) ?_ ?_
      · rintro u d'' (⟨-, htree'⟩ | ⟨-, ⟨e, he⟩, -⟩)
        · exact ih _ (by omega) (htree' ▸ hover') _
        · cases he
      · rintro e t' (⟨he, -⟩ | ⟨hloud, -, rfl⟩)
        · cases he
        · exact ⟨⟨c', htree⟩, fun hquiet => absurd hquiet hloud⟩
    · rintro e t' ⟨-, block, he⟩
      cases he

theorem overwritePasses_along (hfile : t.get x = some (.file c)) (hover : Over x t d.tree)
    (len passes : ℕ) :
    Along (OnFile x t) (fun r t' => Over x t t' ∧ (os.Quiet → r = .ok ()))
      (overwritePasses os x len passes) d := by
  induction passes generalizing d with
  | zero => exact along_pure ⟨hover, fun _ => rfl⟩
  | succ passes ih =>
    have herr (e : Errno) (t' : FileTree FileName Bytes)
        (h : Over x t t' ∧ (os.Quiet → (.error e : Except Errno Unit) = .ok ())) :
        Over x t t' ∧ (os.Quiet → (.error e : Except Errno Unit) = .ok ()) := h
    refine along_bind (keepFile_along hover) (fun u d₁ ⟨hover₁, _⟩ => ?_) herr
    refine along_bind (overwriteBlocks_along hfile hover₁ 0 len) (fun u d₂ ⟨hover₂, _⟩ => ?_) herr
    exact along_bind (keepFile_along hover₂) (fun u d₃ ⟨hover₃, _⟩ => ih hover₃) herr

/-- **Overwriting** a file changes its content only. -/
theorem overwriteInPlace_along (hfile : d.tree.get x = some (.file c)) (passes : ℕ) :
    Along (OnFile x d.tree) (fun r t => Over x d.tree t ∧ (os.Quiet → r = .ok ()))
      (overwriteInPlace os x passes) d := by
  have hsame : Over x d.tree d.tree :=
    ⟨c, (FileTree.set_self (FileTree.canSet_of_file hfile) hfile).symm⟩
  have hclear := FileTree.clear_of_get hfile nofun
  have hlook {places : List (List FileName)} {t : FileTree FileName Bytes}
      (h : (∀ y ∈ places, y ∈ d.tree.reach true x) ∧ t = d.tree) : OnFile x d.tree places t :=
    ⟨fun y hy => FileTree.reach_noLink hclear.noLink (h.1 y hy), h.2 ▸ hsame⟩
  refine along_bind (along_look.mono (fun _ _ => hlook) fun _ _ hR => hR) ?_ ?_
  · rintro metadata d₁ ⟨htree₁, -⟩
    have hopen : d.tree.openFile x = .ok x := by
      rw [FileTree.openFile, FileTree.locate_of_get hfile fun _ _ => nofun]
      dsimp only [Except.bind]
      rw [hfile]
    rw [← htree₁] at hopen hlook hsame hfile ⊢
    refine along_bind (along_look.mono (fun _ _ => hlook) fun _ _ hR => hR) ?_ ?_
    · rintro file d₂ ⟨htree₂, hfile₂ | ⟨-, e, he⟩⟩
      · obtain rfl : file = x := Except.ok.inj (hfile₂.trans hopen)
        rw [← htree₂] at hfile hsame ⊢
        split_ifs
        · exact keepFile_along hsame
        · exact overwritePasses_along hfile hsame _ _
      · cases he
    · rintro e t ⟨rfl, he | ⟨hloud, -⟩⟩
      · rw [hopen] at he
        cases he
      · exact ⟨hsame, fun hquiet => absurd hquiet hloud⟩
  · rintro e t ⟨rfl, he | ⟨hloud, -⟩⟩
    · rw [FileTree.nodeAt_clear hclear, hfile] at he
      cases he
    · exact ⟨hsame, fun hquiet => absurd hquiet hloud⟩

/-- A directory is not overwritten. -/
theorem overwriteInPlace_of_dir (hdir : d.tree.get x = some .dir) (passes : ℕ) :
    Along (Looks x d.tree) (fun r t => t = d.tree ∧ ∃ e, r = .error e)
      (overwriteInPlace os x passes) d := by
  have hclear := FileTree.clear_of_get hdir nofun
  have hlook {places : List (List FileName)} {t : FileTree FileName Bytes}
      (h : (∀ y ∈ places, y ∈ d.tree.reach true x) ∧ t = d.tree) : Looks x d.tree places t := by
    refine ⟨fun y hy => ?_, h.2⟩
    rw [FileTree.reach_noLink hclear.noLink (h.1 y hy)]
  refine along_bind (along_look.mono (fun _ _ => hlook) fun _ _ hR => hR) ?_ ?_
  · rintro metadata d₁ ⟨htree₁, -⟩
    have hopen : d.tree.openFile x = .error .isADirectory := by
      rw [FileTree.openFile, FileTree.locate_of_get hdir fun _ _ => nofun]
      dsimp only [Except.bind]
      rw [hdir]
    rw [← htree₁] at hopen hlook ⊢
    refine along_bind (along_look.mono (fun _ _ => hlook) fun _ _ hR => hR) ?_ ?_
    · rintro file d₂ ⟨-, he | ⟨-, e, he⟩⟩
      · rw [hopen] at he
        cases he
      · cases he
    · rintro e t ⟨ht, -⟩
      exact ⟨ht, e, rfl⟩
  · rintro e t ⟨ht, -⟩
    exact ⟨ht, e, rfl⟩

/-- A file is overwritten, and then it is gone. -/
theorem overwriteThenUnlink_of_file (hfile : d.tree.get x = some (.file c)) :
    Along (fun places t => (∀ y ∈ places, y = x) ∧ ∀ y, y ≠ x → t.get y = d.tree.get y)
      (fun r t => os.Quiet → r = .ok () ∧ t = d.tree.unset x) (overwriteThenUnlink os x) d := by
  obtain rfl | ⟨y, n, rfl⟩ := List.eq_nil_or_concat' x
  · rw [FileTree.get_nil] at hfile
    cases hfile
  have hdir : d.tree.get y = some .dir := FileTree.get_parent (by rw [hfile]; rfl)
  have hbeside {t : FileTree FileName Bytes} (hover : Over (y ++ [n]) d.tree t) (z : List FileName)
      (hz : z ≠ y ++ [n]) : t.get z = d.tree.get z := by
    obtain ⟨c', rfl⟩ := hover
    have hcan : d.tree.CanSet (y ++ [n]) (.file c') := FileTree.canSet_of_file hfile
    rw [FileTree.get_set hcan, if_neg hz]
  refine along_bind (R := fun r t => Over (y ++ [n]) d.tree t ∧ (os.Quiet → r = .ok ()))
    (along_mapErr ((overwriteInPlace_along hfile shredPasses).mono
      (fun _ _ h => ⟨h.1, hbeside h.2⟩) ?_)) ?_ ?_
  · exact fun r t ⟨hover, hquiet⟩ => ⟨hover, fun hq => by rw [hquiet hq]; rfl⟩
  · rintro u d' ⟨hover, -⟩
    obtain ⟨c', htree⟩ := hover
    have hcan : d.tree.CanSet (y ++ [n]) (.file c') := FileTree.canSet_of_file hfile
    have hdir' : d'.tree.get y = some .dir := by
      rw [htree, FileTree.get_set hcan, if_neg (by simp), hdir]
    have hfile' : d'.tree.get (y ++ [n]) = some (.file c') := by
      rw [htree, FileTree.get_set hcan, if_pos rfl]
    have hremove : d'.tree.removeFile (y ++ [n]) = (.ok (), d.tree.unset (y ++ [n])) := by
      rw [FileTree.removeFile_of_dir hdir' hfile' (by simp), htree, FileTree.unset_set_file hfile]
    have hnodir : d.tree.get (y ++ [n]) ≠ some .dir := by
      rw [hfile]
      simp
    have hunlinked : (∀ z ∈ d'.tree.reachEntry (y ++ [n]), z = y ++ [n]) ∧
        ∀ z, z ≠ y ++ [n] → (d'.tree.removeFile (y ++ [n])).2.get z = d.tree.get z := by
      rw [FileTree.reachEntry, FileTree.entryPlace_of_dir hdir', hremove]
      refine ⟨fun z => List.mem_singleton.1, fun z hz => ?_⟩
      rw [FileTree.get_unset hnodir, if_neg hz]
    refine along_mapErr (Along.mono (along_sys ⟨by simp, hbeside ⟨c', htree⟩⟩ hunlinked)
      (fun _ _ h => h) ?_)
    · rintro r t (⟨rfl, rfl⟩ | ⟨hloud, -⟩) hq
      · dsimp only
        rw [hremove]
        exact ⟨rfl, rfl⟩
      · exact absurd hq hloud
  · rintro e t ⟨-, hquiet⟩ hq
    cases hquiet hq

end Removing

/-- **Removing** a blob changes nothing but what is at its own place, and that only if it is a
file. -/
theorem remove_along (os : Os) (p : RelPath) (hroot : d.tree.NoLink [] root) :
    Along (fun places t => (∀ y ∈ places, root <+: y) ∧
        ∀ y, y ≠ root ++ p.names → t.get y = d.tree.get y)
      (fun r t => os.Quiet → d.tree.Clear (root ++ p.names) →
        (d.tree.get (root ++ p.names) = none → r = .ok () ∧ t = d.tree) ∧
        (∀ c, d.tree.get (root ++ p.names) = some (.file c) →
          r = .ok () ∧ t = d.tree.unset (root ++ p.names)))
      (remove os root p) d := by
  have hbelow : root <+: root ++ p.names := List.prefix_append _ _
  have hlook {base : List FileName} (hbase : root <+: base) {places : List (List FileName)}
      {t : FileTree FileName Bytes} (h : Looks base d.tree places t) :
      (∀ y ∈ places, root <+: y) ∧ ∀ y, y ≠ root ++ p.names → t.get y = d.tree.get y :=
    ⟨fun y hy => hbase.trans (h.1 y hy), fun y _ => by rw [h.2]⟩
  refine along_bind ((absolute_along hroot).mono (fun _ _ => hlook (List.prefix_refl root))
    fun _ _ hR => hR) ?_ ?_
  · rintro abs d₁ ⟨htree₁, habs, -⟩
    obtain ⟨rfl, hclear⟩ := habs abs rfl
    rw [← htree₁] at hclear hlook ⊢
    refine along_bind ((pathExists_along hclear.noLink).mono
      (fun places t h => hlook hbelow ⟨fun y hy => by rw [h.1 y hy], h.2⟩) fun _ _ hR => hR) ?_ ?_
    · rintro b d₂ ⟨htree₂, b', hb, htrue, hquiet⟩
      obtain rfl := Except.ok.inj hb
      rw [← htree₂] at htrue hquiet hlook ⊢
      cases b with
      | false =>
        rw [if_neg (by simp)]
        refine along_pure fun hq _ => ⟨fun _ => ⟨rfl, rfl⟩, fun c hfile => ?_⟩
        rw [hfile] at hquiet
        cases hquiet hq
      | true =>
        rw [if_pos rfl]
        obtain ⟨node, hnode⟩ := Option.isSome_iff_exists.1 (htrue rfl)
        cases node with
        | file c =>
          refine (overwriteThenUnlink_of_file hnode).mono (fun places t h => ⟨fun y hy => ?_, h.2⟩) ?_
          · rwa [h.1 y hy]
          · intro r t hR hq _
            refine ⟨fun hnone => ?_, fun _ _ => hR hq⟩
            rw [hnode] at hnone
            cases hnone
        | dir =>
          refine along_bind (R := fun r t => ∃ e, r = .error e)
            (along_mapErr ((overwriteInPlace_of_dir hnode shredPasses).mono
              (fun _ _ => hlook hbelow) ?_)) ?_ ?_
          · rintro r t ⟨-, e, rfl⟩
            exact ⟨_, rfl⟩
          · rintro u d₃ ⟨e, he⟩
            cases he
          · rintro e t - hq _
            refine ⟨fun hnone => ?_, fun c hfile => ?_⟩
            · rw [hnode] at hnone
              cases hnone
            · rw [hnode] at hfile
              cases hfile
        | link target =>
          have hno := hclear.noLink (root ++ p.names) (List.prefix_refl _) target
          rw [List.nil_append, ← htree₂] at hno
          exact absurd hnode hno
    · rintro e t ⟨-, b, hb, -⟩
      cases hb
  · rintro e t ⟨-, -, hquiet⟩ hq hclear
    cases hquiet hq hclear

end StorageFs

end Bypass
