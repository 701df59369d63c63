import Bypass.Core.FileNames
import Bypass.Core.Mem
import Bypass.Foundations.ReplaceFile
import Bypass.Foundations.Walk

/-!
# The storage of the app

`AppStorage` (`storage.rs` of the bindings): like the storage of the command line, but a path is not
checked for links, which nobody else can plant in the directory of an app, and a removal overwrites
nothing. The new file of a write has a name that ends as that of its destination.

* `interrupted_write_iff`: **when a write that stops leaves no phantom entry**.
* `phantom_entry`: it does where the path is that of an entry.
-/

namespace Bypass

/-- `AppStorageError`. -/
inductive AppStorageError where
  | io (path : List FileName) (source : Errno)
  | outsideRoot (path : List FileName)
  deriving DecidableEq

namespace AppStorage

/-! ## Names -/

/-- The start of the name of a new file. -/
def tmpHead : Str := ".bypass.tmp.".toList

/-- What `unique_tmp_path` puts before a name, but for the dot between them. -/
def tmpPrefix (pid nanos : ℕ) : Str :=
  tmpHead ++ Nat.toDigits 10 pid ++ '.' :: Nat.toDigits 10 nanos

theorem tmpHead_noSeparator : '/' ∉ tmpHead ∧ '\x00' ∉ tmpHead ∧ '\\' ∉ tmpHead ∧
    tmpHead.length = 12 := by
  decide +kernel

theorem tmpPrefix_noSeparator (pid nanos : ℕ) : '/' ∉ tmpPrefix pid nanos ∧
    '\x00' ∉ tmpPrefix pid nanos ∧ '\\' ∉ tmpPrefix pid nanos := by
  have hdigit {c : Char} {n : ℕ} (hc : c.isDigit = false) : c ∉ Nat.toDigits 10 n := fun hmem => by
    rw [Nat.isDigit_of_mem_toDigits (by decide) (by decide) hmem] at hc
    cases hc
  obtain ⟨hslash, hnul, hback, -⟩ := tmpHead_noSeparator
  have hno {c : Char} (hc : c.isDigit = false) (hdot : c ≠ '.') (hhead : c ∉ tmpHead) :
      c ∉ tmpPrefix pid nanos := by
    simp [tmpPrefix, hhead, hdot, hdigit hc]
  exact ⟨hno (by decide) (by decide) hslash, hno (by decide) (by decide) hnul,
    hno (by decide) (by decide) hback⟩

theorem length_tmpPrefix (pid nanos : ℕ) : 12 < (tmpPrefix pid nanos).length := by
  rw [tmpPrefix, List.length_append, List.length_append, tmpHead_noSeparator.2.2.2, List.length_cons]
  omega

/-- `unique_tmp_path`: the name beside a destination, by the id of the process and the time. -/
def uniqueTmpName (pid nanos : ℕ) (leaf : FileName) : FileName :=
  ⟨utf8Encode (tmpPrefix pid nanos ++ '.' :: utf8Lossy leaf.bytes), by
    have hlossy := leaf.valid.2.2.2.utf8Lossy
    have hlen := length_le_length_utf8Encode (tmpPrefix pid nanos ++ '.' :: utf8Lossy leaf.bytes)
    have hpre := length_tmpPrefix pid nanos
    rw [List.length_append] at hlen
    refine NoSeparator.validName (noSeparator_utf8Encode.2 ⟨?_, ?_⟩) (by omega)
    · simp [(tmpPrefix_noSeparator pid nanos).1, hlossy.1]
    · simp [(tmpPrefix_noSeparator pid nanos).2.1, hlossy.2]⟩

/-- The path of names below the root, if they are UTF-8. -/
def strictPath (l : List FileName) : Option RelPath :=
  (utf8Decode? (joinNames l)).bind fun s => (RelPath.new s).toOption

theorem strictPath_eq_some {l : List FileName} {q : RelPath} : strictPath l = some q ↔ q.names = l := by
  rw [strictPath, Option.bind_eq_some_iff, RelPath.names_eq_iff]
  constructor
  · rintro ⟨s, hs, hnew⟩
    cases h : RelPath.new s with
    | error e =>
      rw [h] at hnew
      cases hnew
    | ok q' =>
      rw [h] at hnew
      obtain rfl := Option.some.inj hnew
      rw [RelPath.bytes, RelPath.new_eq_ok.1 h]
      exact utf8Decode?_eq_some.1 hs
  · intro h
    exact ⟨q.str, utf8Decode?_eq_some.2 h, by rw [RelPath.new_of_valid q.valid]; rfl⟩

/-! ## The calls -/

variable (os : Os) (root : List FileName)

/-- `AppStorage::absolute`. -/
def absolute (rel : RelPath) : FsM FileName AppStorageError (List FileName) :=
  let abs := root ++ rel.names
  if root <+: abs then pure abs else throw (.outsideRoot abs)

/-- `AppStorage::read`. -/
def read (path : RelPath) : FsM FileName AppStorageError (Option Bytes) := do
  let abs ← absolute root path
  match ← (readFile os abs).attempt with
  | .ok b => pure (some b)
  | .error .notFound => pure none
  | .error e => throw (.io abs e)

/-- `AppStorage::write`; the time of day is an argument. -/
def write (nanos : ℕ) (path : RelPath) (data : Bytes) : FsM FileName AppStorageError Unit := do
  let abs ← absolute root path
  (saveFile os abs.dropLast (uniqueTmpName os.pid nanos path.leaf) path.leaf data).mapErr
    fun e => .io e.1 e.2

/-- `AppStorage::remove`. -/
def remove (path : RelPath) : FsM FileName AppStorageError Unit := do
  let abs ← absolute root path
  match ← (unlink os abs).attempt with
  | .ok () => pure ()
  | .error .notFound => pure ()
  | .error e => throw (.io abs e)

/-- `AppStorage::exists`. -/
def «exists» (path : RelPath) : FsM FileName AppStorageError Bool := do
  let abs ← absolute root path
  pathExists os abs

/-- What `walk` shows of a file. -/
def shown (path : List FileName) : Option RelPath :=
  if root <+: path then strictPath (path.drop root.length) else none

/-- `AppStorage::list`. -/
def list (dir : Option RelPath) : FsM FileName AppStorageError (List RelPath) := do
  let start ← match dir with
    | some p => absolute root p
    | none => pure root
  if ← pathExists os start then walkFrom os .io (fun _ => false) (shown root) start
  else pure []

end AppStorage

/-- `AppStorage` as a storage on a disk. -/
def appStorage (os : Os) (root : List FileName) : Storage (Disk FileName) AppStorageError where
  readFn path d := (AppStorage.read os root path).run d
  writeFn path data d := (AppStorage.write os root (os.nanos d.clock) path data).run d
  removeFn path d := (AppStorage.remove os root path).run d
  existsFn path d := (AppStorage.exists os root path).run d
  listFn dir d := (AppStorage.list os root dir).run d

/-! ## What the calls do -/

namespace AppStorage

variable {os os' : Os} {root : List FileName} {d u : Disk FileName} {p : RelPath}

/-- **What is listed** are the files below the start whose path is one. -/
theorem mem_listFn (hquiet : os.Quiet) (hlinkless : d.tree.Linkless) {dir : Option RelPath}
    {q : RelPath} :
    (∃ blobs, ((appStorage os root).listFn dir d).1 = .ok blobs ∧ q ∈ blobs) ↔
      (∀ p ∈ dir, p.Below q) ∧ ∃ c, d.tree.get (root ++ q.names) = some (.file c) := by
  have hstart : ((appStorage os root).listFn dir d).1 =
      d.tree.walkAnswer .io (fun _ => false) (shown root) (startOf root dir) := by
    have hwalk : ((do
        if ← pathExists os (startOf root dir) then
          walkFrom os .io (fun _ => false) (shown root) (startOf root dir)
        else pure [] : FsM FileName AppStorageError (List RelPath)).run d).1 =
        d.tree.walkAnswer .io (fun _ => false) (shown root) (startOf root dir) :=
      (walkIfThere_along (hlinkless.noLink [] (startOf root dir))).2.2.2 hquiet
    cases dir with
    | none =>
      rw [startOf, Option.elim_none, List.append_nil] at hwalk ⊢
      exact hwalk
    | some p =>
      rw [startOf, Option.elim_some] at hwalk ⊢
      rw [← hwalk]
      change ((list os root (some p)).run d).1 = _
      rw [list, absolute, if_pos (List.prefix_append _ _)]
      rfl
  have hshown (l : List FileName) (r : RelPath) : shown root (root ++ l) = some r ↔ r.names = l := by
    rw [shown, if_pos (List.prefix_append _ _), List.drop_left, strictPath_eq_some]
  -- a file below the start, by its path
  have hfile : (∃ l c, l ≠ [] ∧ (∀ n ∈ l, (fun _ => false) n = false) ∧
      d.tree.get (startOf root dir ++ l) = some (.file c) ∧
      shown root (startOf root dir ++ l) = some q) ↔
      (∀ p ∈ dir, p.Below q) ∧ ∃ c, d.tree.get (root ++ q.names) = some (.file c) := by
    simp only [startOf, List.append_assoc, hshown]
    constructor
    · rintro ⟨l, c, hne, -, hget, hnames⟩
      rw [← hnames] at hget
      refine ⟨fun p hp => RelPath.below_iff_names.2 ⟨l, hne, ?_⟩, c, hget⟩
      rw [hnames, hp]
      rfl
    · rintro ⟨hbelow, c, hget⟩
      cases dir with
      | none => exact ⟨q.names, c, q.names_ne_nil, fun _ _ => trivial, hget, rfl⟩
      | some p =>
        obtain ⟨l, hne, hnames⟩ := RelPath.below_iff_names.1 (hbelow p rfl)
        rw [hnames] at hget
        exact ⟨l, c, hne, fun _ _ => trivial, hget, hnames⟩
  rw [hstart, ← hfile]
  cases hget : d.tree.get (startOf root dir) with
  | none =>
    rw [walkAnswer_of_none hget]
    constructor
    · rintro ⟨blobs, hok, hq⟩
      cases hok
      cases hq
    · rintro ⟨l, c, -, -, hc, -⟩
      rw [FileTree.get_eq_none hget] at hc
      cases hc
  | some node =>
    cases node with
    | dir =>
      rw [walkAnswer_of_dir hget, ← mem_walkAt (show d.tree.height < _ + (d.tree.height + 1) by omega)]
      constructor
      · rintro ⟨blobs, hok, hq⟩
        rwa [Except.ok.inj hok]
      · exact fun hq => ⟨_, rfl, hq⟩
    | file c =>
      rw [walkAnswer_of_file hget]
      constructor
      · rintro ⟨blobs, hok, -⟩
        cases hok
      · rintro ⟨l, c', hne, -, hc, -⟩
        rw [FileTree.get_below_file hget hne] at hc
        cases hc
    | link target => exact absurd hget (hlinkless _ _)

/-! ## Interrupted writes -/

/-- A disk at which a write stops: before a call, or after one. -/
def Stopped (os : Os) (root : List FileName) (nanos : ℕ) (p : RelPath) (data : Bytes)
    (d u : Disk FileName) : Prop :=
  u = d ∨ ∃ call ∈ (write os root nanos p data).trace d, u = call.after

section Interrupted

variable {nanos : ℕ} {data : Bytes}

/-- Writing is saving a file. -/
theorem write_eq : write os root nanos p data =
    (saveFile os (parentOf root p) (uniqueTmpName os.pid nanos p.leaf) p.leaf data).mapErr
      fun e => .io e.1 e.2 := by
  rw [write, absolute, if_pos (List.prefix_append _ _), ← dropLast_append_names]
  rfl

/-- The name of the new file ends as that of its destination. -/
theorem bytes_uniqueTmpName (pid : ℕ) : (uniqueTmpName pid nanos p.leaf).bytes =
    utf8Encode (tmpPrefix pid nanos ++ '.' :: p.fileName) := by
  change utf8Encode (tmpPrefix pid nanos ++ '.' :: utf8Lossy p.leaf.bytes) = _
  rw [p.leaf_bytes, utf8Lossy_encode]

theorem uniqueTmpName_ne (pid : ℕ) : uniqueTmpName pid nanos p.leaf ≠ p.leaf := by
  intro h
  have hbytes := congrArg FileName.bytes h
  rw [bytes_uniqueTmpName, p.leaf_bytes] at hbytes
  have hlen := congrArg List.length (utf8Encode_injective hbytes)
  rw [List.length_append, List.length_cons] at hlen
  omega

/-- What ends as an entry after a dot. -/
theorem gpg_suffix_iff {s t : Str} :
    ".gpg".toList <:+ s ++ '.' :: t ↔ ".gpg".toList <:+ t ∨ t = "gpg".toList := by
  constructor
  · intro h
    rcases List.suffix_or_suffix_of_suffix h (List.suffix_append s ('.' :: t)) with hgpg | hdot
    · rcases List.suffix_cons_iff.1 hgpg with heq | hsuffix
      · exact Or.inr (List.cons.inj heq).2.symm
      · exact Or.inl hsuffix
    · have hdot' : '.' :: t <:+ '.' :: "gpg".toList := hdot
      rcases List.suffix_cons_iff.1 hdot' with heq | hsuffix
      · exact Or.inr (List.cons.inj heq).2
      · exact absurd (hsuffix.subset List.mem_cons_self) (by decide)
  · rintro (⟨stem, rfl⟩ | rfl)
    · exact ⟨s ++ '.' :: stem, by simp⟩
    · exact List.suffix_append s _

/-- The path of a new file is that of an entry where that of its destination ends as one. -/
theorem exists_entryToBlob_tmp {pid : ℕ} :
    (∃ e, (entryToBlob e).names = p.names.dropLast ++ [uniqueTmpName pid nanos p.leaf]) ↔
      ".gpg".toList <:+ p.fileName ∨ p.fileName = "gpg".toList := by
  have hnames (e : RelPath) :
      (entryToBlob e).names = p.names.dropLast ++ [uniqueTmpName pid nanos p.leaf] ↔
        e.segments.dropLast ++ [e.fileName ++ ".gpg".toList] =
          p.segments.dropLast ++ [tmpPrefix pid nanos ++ '.' :: p.fileName] := by
    rw [RelPath.names_sibling (bytes_uniqueTmpName pid), RelPath.segments_entryToBlob]
  simp only [hnames]
  rw [← gpg_suffix_iff]
  constructor
  · rintro ⟨e, he⟩
    exact ⟨e.fileName, List.singleton_inj.1 (List.append_inj_right' he rfl)⟩
  · rintro ⟨stem, hstem⟩
    obtain ⟨hslash, hnul, hback⟩ := tmpPrefix_noSeparator pid nanos
    obtain ⟨hslash', hnul', hback'⟩ := p.fileName_noSeparator
    have hno {c : Char} (hdot : c ≠ '.') (hpre : c ∉ tmpPrefix pid nanos) (hname : c ∉ p.fileName) :
        c ∉ stem := fun hc => by
      have hmem : c ∈ tmpPrefix pid nanos ++ '.' :: p.fileName := by
        rw [← hstem]
        exact List.mem_append_left _ hc
      simp [hdot, hpre, hname] at hmem
    have hlen : 8 < stem.length := by
      have hall := congrArg List.length hstem
      have hpre := length_tmpPrefix pid nanos
      have hgpg : ".gpg".toList.length = 4 := rfl
      rw [List.length_append, List.length_append, List.length_cons, hgpg] at hall
      omega
    have hvalid : ValidSegment stem := by
      refine ⟨?_, ?_, ?_⟩ <;>
      · rintro rfl
        simp at hlen
    obtain ⟨e, he⟩ := p.exists_sibling hvalid (hno (by decide) hslash hslash')
      (hno (by decide) hnul hnul') (hno (by decide) hback hback')
    have hlast := e.dropLast_append_fileName
    rw [he, List.dropLast_concat] at hlast
    refine ⟨e, ?_⟩
    rw [he, List.dropLast_concat, List.singleton_inj.1 (List.append_cancel_left hlast), hstem]

/-- **Saving** the file of a blob. -/
theorem save_along (os : Os) (hlinkless : d.tree.Linkless) :
    Along (fun places t => (∀ y ∈ places, [] <+: y) ∧
        Saving (parentOf root p) (uniqueTmpName os.pid nanos p.leaf) p.leaf data d.tree t)
      (Saved os (parentOf root p) (uniqueTmpName os.pid nanos p.leaf) p.leaf data d.tree)
      (saveFile os (parentOf root p) (uniqueTmpName os.pid nanos p.leaf) p.leaf data) d :=
  saveFile_along FileTree.get_nil (List.nil_append _) (hlinkless.noLink _ _) (uniqueTmpName_ne os.pid)

/-- Where a write stops, the file is being saved. -/
theorem Stopped.saving (h : Stopped os root nanos p data d u) (hlinkless : d.tree.Linkless) :
    Saving (parentOf root p) (uniqueTmpName os.pid nanos p.leaf) p.leaf data d.tree u.tree := by
  rcases h with rfl | ⟨call, hcall, rfl⟩
  · exact .dirs (.refl _)
  · rw [write_eq, Prog.trace_mapErr] at hcall
    exact ((save_along os hlinkless).1 call hcall).2

/-- What is reported on a disk without faults. -/
theorem mem_reported_iff {CE VE : Type} {store : Store (Disk FileName) CE AppStorageError VE}
    (hstore : store.storage = appStorage os root) (hquiet : os.Quiet) (hlinkless : d.tree.Linkless)
    {dir : Option RelPath} {e : RelPath} :
    e ∈ store.reported dir d ↔ (∀ p ∈ dir, p.Below (entryToBlob e)) ∧
      ∃ c, d.tree.get (root ++ (entryToBlob e).names) = some (.file c) := by
  rw [Store.mem_reported, hstore]
  exact mem_listFn hquiet hlinkless

/-- What is reported is a matter of the files at the blobs of entries. -/
theorem reported_eq {CE VE : Type} {store : Store (Disk FileName) CE AppStorageError VE}
    (hstore : store.storage = appStorage os root) (hquiet : os.Quiet) (hlinkless : d.tree.Linkless)
    (hlinkless' : u.tree.Linkless)
    (h : ∀ e, (∃ c, u.tree.get (root ++ (entryToBlob e).names) = some (.file c)) ↔
      ∃ c, d.tree.get (root ++ (entryToBlob e).names) = some (.file c)) (dir : Option RelPath) :
    store.reported dir u = store.reported dir d := by
  ext e
  rw [mem_reported_iff hstore hquiet hlinkless', mem_reported_iff hstore hquiet hlinkless, h e]

/-- **When a write that stops leaves no phantom entry**: the name of its destination is not that of
an entry, or the new file cannot be made. -/
theorem interrupted_write_iff {CE VE : Type} (os' : Os) (root : List FileName) (pid nanos : ℕ)
    (p : RelPath) (data : Bytes) (store : Store (Disk FileName) CE AppStorageError VE)
    (d : Disk FileName) (hstore : store.storage = appStorage os' root) (hquiet : os'.Quiet)
    (hlinkless : d.tree.Linkless) :
    (∀ os : Os, os.pid = pid → ∀ u, Stopped os root nanos p data d u →
      (∀ dir, store.reported dir u = store.reported dir d) ∨
        ∀ dir, store.reported dir u =
          store.reported dir ((write os.quiet root nanos p data).run d).2) ↔
      ¬(".gpg".toList <:+ p.fileName ∨ p.fileName = "gpg".toList) ∨
        (∃ l, l <+: parentOf root p ∧ ∃ c, d.tree.get l = some (.file c)) ∨
        d.tree.get (parentOf root p ++ [uniqueTmpName pid nanos p.leaf]) ≠ none := by
  -- how the write ends that is not stopped
  have hcomplete (os : Os) : Saved os.quiet (parentOf root p) (uniqueTmpName os.pid nanos p.leaf)
      p.leaf data d.tree
      ((saveFile os.quiet (parentOf root p) (uniqueTmpName os.pid nanos p.leaf) p.leaf data).run d).1
      ((write os.quiet root nanos p data).run d).2.tree := by
    rw [write_eq, Prog.run_mapErr]
    exact (save_along os.quiet hlinkless).2
  constructor
  · intro h
    by_contra hnot
    push Not at hnot
    obtain ⟨hgpg, hfiles, hnone⟩ := hnot
    obtain ⟨e, he⟩ := exists_entryToBlob_tmp.2 hgpg
    have hplace : root ++ (entryToBlob e).names =
        parentOf root p ++ [uniqueTmpName pid nanos p.leaf] := by
      rw [he, parentOf, List.append_assoc]
    -- without faults, a write can stop when the new file has been made
    let os : Os := { os' with pid := pid }
    obtain ⟨call, hcall, hfile⟩ : ∃ call ∈ (saveFile os (parentOf root p)
        (uniqueTmpName pid nanos p.leaf) p.leaf data).trace d,
        call.after.tree.get (parentOf root p ++ [uniqueTmpName pid nanos p.leaf]) = some (.file []) :=
      saveFile_creates FileTree.get_nil (List.nil_append _) (hlinkless.noLink _ _) hquiet hfiles hnone
    have hstopped : Stopped os root nanos p data d call.after :=
      Or.inr ⟨call, by rwa [write_eq, Prog.trace_mapErr], rfl⟩
    have hin : e ∈ store.reported none call.after :=
      (mem_reported_iff hstore hquiet ((hstopped.saving hlinkless).linkless hlinkless)).2
        ⟨by simp, [], by rw [hplace, hfile]⟩
    have hout {t : Disk FileName} (hlinkless' : t.tree.Linkless)
        (hmissing : t.tree.get (parentOf root p ++ [uniqueTmpName pid nanos p.leaf]) = none) :
        e ∉ store.reported none t := fun hmem => by
      obtain ⟨-, c, hc⟩ := (mem_reported_iff hstore hquiet hlinkless').1 hmem
      rw [hplace, hmissing] at hc
      cases hc
    rcases h os rfl call.after hstopped with hbefore | hafter
    · rw [hbefore none] at hin
      exact hout hlinkless hnone hin
    · rw [hafter none] at hin
      have hsaved := hcomplete os
      exact hout (hsaved.way.linkless hlinkless) (hsaved.tmp_none os.quiet_quiet hnone) hin
  · rintro hcond os rfl u hu
    have hsaving := hu.saving hlinkless
    have hsaved := hcomplete os
    -- the new file is no entry, or it is not made
    have htmp (e : RelPath) : root ++ (entryToBlob e).names =
        parentOf root p ++ [uniqueTmpName os.pid nanos p.leaf] →
        (∃ l, l <+: parentOf root p ∧ ∃ c, d.tree.get l = some (.file c)) ∨
          d.tree.get (parentOf root p ++ [uniqueTmpName os.pid nanos p.leaf]) ≠ none := by
      intro hplace
      rw [parentOf, List.append_assoc, List.append_cancel_left_eq] at hplace
      exact hcond.resolve_left fun hgpg => hgpg (exists_entryToBlob_tmp.1 ⟨e, hplace⟩)
    rcases hsaving.get_leaf (uniqueTmpName_ne os.pid) with hsame | ⟨hdata, hcan⟩
    · refine Or.inl (reported_eq hstore hquiet hlinkless (hsaving.linkless hlinkless) fun e => ?_)
      by_cases hleaf : root ++ (entryToBlob e).names = parentOf root p ++ [p.leaf]
      · rw [hleaf, hsame]
      · exact hsaving.file_iff hleaf (htmp e)
    · refine Or.inr (reported_eq hstore hquiet (hsaved.way.linkless hlinkless)
        (hsaving.linkless hlinkless) fun e => ?_)
      by_cases hleaf : root ++ (entryToBlob e).names = parentOf root p ++ [p.leaf]
      · rw [hleaf, hdata, (hsaved.ok (hsaved.success os.quiet_quiet hcan)).2.1]
      · rw [hsaving.file_iff hleaf (htmp e), hsaved.way.file_iff hleaf (htmp e)]

/-- A system without faults. -/
def phoneOs : Os where
  fault _ := none
  nanos _ := 5
  pid := 7
  random _ _ := 0

/-- The name of the directory of a store. -/
def filesName : FileName := ⟨utf8Encode "files".toList, by decide⟩

/-- A store with nothing in it. -/
def filesDisk : Disk FileName where
  tree := FileTree.empty.set [filesName] .dir
  clock := 0

theorem filesDisk_linkless : filesDisk.tree.Linkless := FileTree.linkless_empty.set nofun

/-- The store of the app on a disk. -/
def filesStore : Store (Disk FileName) TaggedError AppStorageError Empty where
  crypto := taggedCrypto
  storage := appStorage phoneOs [filesName]
  vcs := noVcs

/-- Another path leaves no phantom entry. -/
theorem interrupted_write_iff_head :
    filesDisk.tree.Linkless ∧ ∀ os : Os, os.pid = 7 → ∀ u,
      Stopped os [filesName] 5 ⟨"HEAD".toList, by decide⟩ [1] filesDisk u →
        (∀ dir, filesStore.reported dir u = filesStore.reported dir filesDisk) ∨
          ∀ dir, filesStore.reported dir u = filesStore.reported dir
            ((write os.quiet [filesName] 5 ⟨"HEAD".toList, by decide⟩ [1]).run filesDisk).2 :=
  ⟨filesDisk_linkless, (interrupted_write_iff phoneOs [filesName] 7 5 ⟨"HEAD".toList, by decide⟩ [1]
    filesStore filesDisk rfl (fun _ => rfl) filesDisk_linkless).2 (Or.inl (by decide +kernel))⟩

/-- A write of an entry that stops when the new file has been made. -/
def stoppedDisk : Disk FileName :=
  (((write phoneOs [filesName] 5 ⟨"a.gpg".toList, validate_a_gpg⟩ [1]).trace filesDisk).map
    Step.after).getD 2 filesDisk

/-- An entry is reported that nobody wrote. -/
theorem phantom_entry :
    ¬∀ (os : Os) (u : Disk FileName),
      Stopped os [filesName] 5 ⟨"a.gpg".toList, by decide⟩ [1] filesDisk u →
        (∀ dir, filesStore.reported dir u = filesStore.reported dir filesDisk) ∨
          ∀ dir, filesStore.reported dir u = filesStore.reported dir
            ((write os.quiet [filesName] 5 ⟨"a.gpg".toList, by decide⟩ [1]).run filesDisk).2 := by
  intro h
  have hlen : 2 < (((write phoneOs [filesName] 5 ⟨"a.gpg".toList, by decide⟩ [1]).trace
      filesDisk).map Step.after).length := by
    decide +kernel
  have hstopped : Stopped phoneOs [filesName] 5 ⟨"a.gpg".toList, by decide⟩ [1] filesDisk
      stoppedDisk := by
    have hmem := List.getElem_mem hlen
    rw [← List.getD_eq_getElem _ filesDisk hlen] at hmem
    obtain ⟨call, hcall, hafter⟩ := List.mem_map.1 hmem
    exact Or.inr ⟨call, hcall, hafter.symm⟩
  have hphantom : (⟨".bypass.tmp.7.5.a".toList, by decide⟩ : RelPath) ∈
      filesStore.reported none stoppedDisk := by
    have hrun : ((filesStore.list none).run stoppedDisk).1.toOption =
        some [⟨".bypass.tmp.7.5.a".toList, by decide⟩] := by
      decide +kernel
    exact (filesStore.mem_reported_of_run hrun).2 List.mem_cons_self
  rcases h phoneOs stoppedDisk hstopped with hbefore | hafter
  · have hrun : ((filesStore.list none).run filesDisk).1.toOption = some [] := by
      decide +kernel
    rw [hbefore none, filesStore.mem_reported_of_run hrun] at hphantom
    cases hphantom
  · have hrun : ((filesStore.list none).run ((write phoneOs.quiet [filesName] 5
        ⟨"a.gpg".toList, by decide⟩ [1]).run filesDisk).2).1.toOption =
        some [⟨"a".toList, by decide⟩] := by
      decide +kernel
    rw [hafter none, filesStore.mem_reported_of_run hrun, List.mem_singleton] at hphantom
    exact absurd (congrArg RelPath.str hphantom) (by decide)

end Interrupted

end AppStorage

end Bypass
