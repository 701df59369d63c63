import Bypass.Cli.StorageFs
import Bypass.Core.Mem

/-!
# Writing to a directory

What is promised of `StorageFs` on any directory, whatever call fails and wherever a run stops.

* `calls_stay_below`: **no call reaches anything outside the root**, whatever links there are.
* `write_atomic`: **a write is atomic**. Wherever it stops, the blob is the old one or the new one,
  the other blobs are as they were, and no entry is reported that is not there before the write or
  after it.
-/

namespace Bypass

namespace StorageFs

variable {os : Os} {root : List FileName} {d : Disk FileName} {p : RelPath}

/-! ## Containment -/

/-- A call of `StorageFs`. -/
inductive BlobOp where
  | read (path : RelPath)
  | write (path : RelPath) (data : Bytes)
  | remove (path : RelPath)
  | exists_ (path : RelPath)
  | list (dir : Option RelPath)

/-- The calls of the file system that it makes. -/
def BlobOp.trace (os : Os) (root : List FileName) (d : Disk FileName) :
    BlobOp → List (Step (List (List FileName)) (Disk FileName))
  | read path => (StorageFs.read os root path).trace d
  | write path data => (StorageFs.write os root (os.nanos d.clock) path data).trace d
  | remove path => (StorageFs.remove os root path).trace d
  | exists_ path => (StorageFs.exists os root path).trace d
  | list dir => (StorageFs.list os root dir).trace d

/-- There is no link on the way to what is there. -/
theorem noLink_of_dir (hroot : d.tree.get root = some .dir) : d.tree.NoLink [] root :=
  (FileTree.clear_of_get hroot nofun).noLink

/-- **No call reaches anything outside the root.** -/
theorem calls_stay_below (os : Os) (root : List FileName) (d : Disk FileName)
    (hroot : d.tree.get root = some .dir) (op : BlobOp) :
    ∀ call ∈ op.trace os root d, ∀ place ∈ call.ev, root <+: place := by
  have hlink := noLink_of_dir hroot
  cases op with
  | read path => exact fun call hcall => ((read_along os path hlink).1 call hcall).1
  | write path data =>
    exact fun call hcall =>
      ((write_along os path _ data hroot (List.append_nil root) hlink).1 call hcall).1
  | remove path => exact fun call hcall => ((remove_along os path hlink).1 call hcall).1
  | exists_ path => exact fun call hcall => ((exists_along os path hlink).1 call hcall).1
  | list dir => exact fun call hcall => ((list_along os dir hlink).1 call hcall).1

/-- A system without faults. -/
def calmOs : Os where
  fault _ := none
  nanos _ := 5
  pid := 7
  random _ _ := 0

/-- The name of the directory of a store. -/
def storeName : FileName := ⟨utf8Encode "store".toList, by decide⟩

/-- The name of a directory beside it. -/
def etcName : FileName := ⟨utf8Encode "etc".toList, by decide⟩

/-- A store with a link to the directory beside it. -/
def linkedDisk : Disk FileName where
  tree := (((FileTree.empty.set [storeName] .dir).set [etcName] .dir).set [etcName, storeName]
    (.file [1, 2])).set [storeName, etcName] (.link ⟨true, [.name etcName]⟩)
  clock := 0

/-- The link is not followed. -/
theorem calls_stay_below_linked : linkedDisk.tree.get [storeName] = some .dir ∧
    ∀ call ∈ (BlobOp.read ⟨"etc/store".toList, by decide⟩).trace calmOs [storeName] linkedDisk,
      ∀ place ∈ call.ev, [storeName] <+: place :=
  ⟨by decide +kernel, calls_stay_below calmOs [storeName] linkedDisk (by decide +kernel) _⟩

/-! ## Listing without faults -/

/-- **What is listed** are the files below the start, but for those of git. -/
theorem mem_listFn (hquiet : os.Quiet) (hroot : d.tree.NoLink [] root) {dir : Option RelPath}
    {q : RelPath} :
    (∃ blobs, ((storageFs os root).listFn dir d).1 = .ok blobs ∧ q ∈ blobs) ↔
      ∃ l c, l ≠ [] ∧ (∀ n ∈ l, isGitDir n = false) ∧
        d.tree.get (startOf root dir ++ l) = some (.file c) ∧
        lossyPath (dir.elim [] RelPath.names ++ l) = some q := by
  obtain ⟨-, hsound, hanswer⟩ := (list_along os dir hroot).2
  constructor
  · rintro ⟨blobs, hok, hq⟩
    obtain ⟨-, rfl | ⟨-, rfl⟩⟩ := hsound blobs hok
    · cases hq
    · exact mem_listed.1 hq
  · rintro ⟨l, c, hne, hgit, hfile, hshown⟩
    have hdir : d.tree.get (startOf root dir) = some .dir :=
      FileTree.get_before (by rw [hfile]; rfl) hne
    have hclear : ∀ p ∈ dir, d.tree.Clear (root ++ p.names) := by
      intro p hp
      rw [hp] at hdir
      exact FileTree.clear_of_get hdir nofun
    have hok := hanswer hquiet hclear
    rw [walkAnswer_of_dir hdir] at hok
    exact ⟨_, hok, mem_listed.2 ⟨l, c, hne, hgit, hfile, hshown⟩⟩

/-- The path of a new file is not that of an entry. -/
theorem lossyPath_tmp {x : List FileName} {pid nanos : ℕ} {dest : FileName} {e : RelPath} :
    lossyPath (x ++ [uniqueTmpName pid nanos dest]) ≠ some (entryToBlob e) := by
  intro h
  obtain ⟨pre, hpre⟩ : ∃ pre, joinNames (x ++ [uniqueTmpName pid nanos dest]) =
      pre ++ utf8Encode (tmpSuffix pid nanos) := by
    by_cases hx : x = []
    · subst hx
      exact ⟨dest.bytes, List.intercalate_singleton⟩
    · refine ⟨joinNames x ++ 0x2f :: dest.bytes, ?_⟩
      rw [joinNames_append hx (by simp), List.append_assoc, List.cons_append]
      exact congrArg _ (congrArg _ List.intercalate_singleton)
  -- the suffix starts with a dot, so it is decoded by itself, and it ends in a digit
  have hlossy : utf8Lossy (joinNames (x ++ [uniqueTmpName pid nanos dest])) =
      utf8Lossy pre ++ tmpSuffix pid nanos := by
    have happend : utf8Lossy (pre ++ utf8Encode (tmpSuffix pid nanos)) =
        utf8Lossy pre ++ utf8Lossy (utf8Encode (tmpSuffix pid nanos)) :=
      utf8Lossy_append (b := 0x2e) pre _ (by decide)
    rw [hpre, happend, utf8Lossy_encode]
  obtain ⟨digits, c, hdigits⟩ :=
    (List.eq_nil_or_concat' (Nat.toDigits 10 nanos)).resolve_left Nat.toDigits_ne_nil
  have hc : c ∈ Nat.toDigits 10 nanos := by
    rw [hdigits]
    simp
  have hdigit : c.isDigit = true := Nat.isDigit_of_mem_toDigits (by decide) (by decide) hc
  have hends : (entryToBlob e).str.getLast? = some 'g' := by simp
  have hsep : c ≠ '\\' := fun hc' => by
    rw [hc'] at hdigit
    cases hdigit
  have hlast : (withSlashes (utf8Lossy pre ++ tmpSuffix pid nanos)).getLast? = some c := by
    have hend : utf8Lossy pre ++ tmpSuffix pid nanos =
        utf8Lossy pre ++ (".tmp.".toList ++ Nat.toDigits 10 pid ++ '.' :: digits) ++ [c] := by
      rw [tmpSuffix, hdigits]
      simp only [List.append_assoc, List.cons_append]
    rw [withSlashes, List.getLast?_map, hend, List.getLast?_concat, Option.map_some, if_neg hsep]
  rw [lossyPath_eq_some.1 h, hlossy, hlast, Option.some.injEq] at hends
  rw [hends] at hdigit
  cases hdigit

/-! ## Atomicity -/

/-- A disk at which a write stops: before a call, or after one. -/
def Stopped (os : Os) (root : List FileName) (nanos : ℕ) (p : RelPath) (data : Bytes)
    (d u : Disk FileName) : Prop :=
  u = d ∨ ∃ call ∈ (write os root nanos p data).trace d, u = call.after

section Atomic

variable {nanos : ℕ} {data : Bytes} {u : Disk FileName}

/-- Where a write stops, nothing has changed, or the way was clear and the file is being saved. -/
theorem Stopped.cases (h : Stopped os root nanos p data d u) (hroot : d.tree.NoLink [] root) :
    u.tree = d.tree ∨ d.tree.Clear (root ++ p.names) ∧
      Saving (parentOf root p) (uniqueTmpName os.pid nanos p.leaf) p.leaf data d.tree u.tree := by
  rcases h with rfl | ⟨call, hcall, rfl⟩
  · exact Or.inl rfl
  · exact ((write_along os p nanos data FileTree.get_nil (List.nil_append root) hroot).1 call hcall).2

theorem Stopped.noLink (h : Stopped os root nanos p data d u) (hroot : d.tree.NoLink [] root) :
    u.tree.NoLink [] root := by
  rcases h.cases hroot with hsame | ⟨-, hsaving⟩
  · rwa [hsame]
  · exact hsaving.noLink hroot

theorem timeless_rejectSymlinks (hquiet : os.Quiet) (probe rest : List FileName) :
    Timeless (rejectSymlinks os probe rest) := by
  induction rest generalizing probe with
  | nil => exact timeless_pure ()
  | cons segment rest ih =>
    refine (timeless_sys hquiet).attempt.bind fun r => ?_
    split
    · exact timeless_throw _
    · exact ih _
    · exact timeless_pure ()
    · exact timeless_throw _

/-- Without faults, what is read is a matter of the tree. -/
theorem timeless_read (hquiet : os.Quiet) : Timeless (read os root p) := by
  refine Timeless.bind ?_ fun abs => (timeless_sys hquiet).attempt.bind fun r => ?_
  · rw [absolute, if_pos (List.prefix_append _ _)]
    exact (timeless_rejectSymlinks hquiet _ _).bind fun _ => timeless_pure _
  · split
    · exact timeless_pure _
    · exact timeless_pure _
    · exact timeless_throw _

/-- What a file holds is read, if it is there. -/
theorem read_eq_some (hquiet : os.Quiet) (hroot : d.tree.NoLink [] root) {c : Bytes} :
    ((read os root p).run d).1 = .ok (some c) ↔
      d.tree.get (root ++ p.names) = some (.file c) := by
  obtain ⟨-, hsound, hanswer⟩ := (read_along os p hroot).2
  refine ⟨fun hok => (hsound _ hok c).1 rfl, fun hfile => ?_⟩
  have hok := hanswer hquiet (FileTree.clear_of_get hfile nofun)
  rwa [hfile] at hok

/-- **A file that is being written** is the old one or the new one. -/
theorem Stopped.read_self {os' : Os} (h : Stopped os root nanos p data d u) (hquiet : os'.Quiet)
    (hroot : d.tree.NoLink [] root) :
    ((read os' root p).run u).1 = ((read os' root p).run d).1 ∨
      ((read os' root p).run u).1 = .ok (some data) := by
  rcases h.cases hroot with hsame | ⟨hclear, hsaving⟩
  · exact Or.inl (timeless_read hquiet u d hsame).1
  have hclear' : u.tree.Clear (root ++ p.names) := by
    rw [← parentOf_append_leaf] at hclear ⊢
    exact hsaving.clear hclear
  rcases hsaving.get (root ++ p.names) with hsame | ⟨-, -, hpre⟩ | ⟨htmp, -⟩ | ⟨-, hdata, -⟩
  · obtain ⟨-, -, hold⟩ := (read_along os' p hroot).2
    obtain ⟨-, -, hnew⟩ := (read_along os' p (h.noLink hroot)).2
    rw [hnew hquiet hclear', hold hquiet hclear, hsame]
    exact Or.inl rfl
  · have hlen := hpre.length_le
    rw [← parentOf_append_leaf, List.length_append, List.length_singleton] at hlen
    omega
  · rw [← parentOf_append_leaf, List.append_cancel_left_eq, List.singleton_inj] at htmp
    exact absurd htmp.symm (uniqueTmpName_ne _ _ _)
  · exact Or.inr ((read_eq_some hquiet (h.noLink hroot)).2 hdata)

/-- **The other files** are as they were. -/
theorem Stopped.read_other {os' : Os} (h : Stopped os root nanos p data d u) (hquiet : os'.Quiet)
    (hroot : d.tree.NoLink [] root) {q : RelPath} (hne : q ≠ p) {c : Bytes} :
    (((read os' root q).run d).1 = .ok (some c) → ((read os' root q).run u).1 = .ok (some c)) ∧
      (((read os' root q).run u).1 = .ok (some c) → ((read os' root q).run d).1 = .ok (some c) ∨
        q.names = p.names.dropLast ++ [uniqueTmpName os.pid nanos p.leaf]) := by
  rw [read_eq_some hquiet hroot, read_eq_some hquiet (h.noLink hroot)]
  rcases h.cases hroot with hsame | ⟨-, hsaving⟩
  · rw [hsame]
    exact ⟨id, Or.inl⟩
  rcases hsaving.get (root ++ q.names) with hsame | ⟨hnone, hdir, -⟩ | ⟨htmp, -, hnone, -⟩ |
    ⟨hpath, -⟩
  · rw [hsame]
    exact ⟨id, Or.inl⟩
  · rw [hnone, hdir]
    exact ⟨nofun, nofun⟩
  · rw [parentOf, List.append_assoc, List.append_cancel_left_eq] at htmp
    rw [hnone]
    exact ⟨nofun, fun _ => Or.inr htmp⟩
  · rw [parentOf_append_leaf, List.append_cancel_left_eq] at hpath
    exact absurd (RelPath.names_injective hpath) hne

variable {CE VE : Type} {store : Store (Disk FileName) CE StorageFsError VE}

/-- What is reported on a disk without faults. -/
theorem mem_reported_iff {os' : Os} (hstore : store.storage = storageFs os' root)
    (hquiet : os'.Quiet) (hroot : d.tree.NoLink [] root) {dir : Option RelPath} {e : RelPath} :
    e ∈ store.reported dir d ↔ ∃ l c, l ≠ [] ∧ (∀ n ∈ l, isGitDir n = false) ∧
      d.tree.get (startOf root dir ++ l) = some (.file c) ∧
      lossyPath (dir.elim [] RelPath.names ++ l) = some (entryToBlob e) := by
  rw [Store.mem_reported, hstore]
  exact mem_listFn hquiet hroot

/-- **No entry is reported** that is not there before the write or after it. -/
theorem Stopped.reported {os' : Os} (h : Stopped os root nanos p data d u)
    (hstore : store.storage = storageFs os' root) (hquiet : os'.Quiet)
    (hroot : d.tree.NoLink [] root) (dir : Option RelPath) :
    store.reported dir u ⊆ store.reported dir d ∪
      store.reported dir ((write os.quiet root nanos p data).run d).2 := by
  intro e he
  rw [mem_reported_iff hstore hquiet (h.noLink hroot)] at he
  obtain ⟨l, c, hne, hgit, hfile, hshown⟩ := he
  rcases h.cases hroot with hsame | ⟨hclear, hsaving⟩
  · rw [hsame] at hfile
    exact Or.inl ((mem_reported_iff hstore hquiet hroot).2 ⟨l, c, hne, hgit, hfile, hshown⟩)
  rcases hsaving.get (startOf root dir ++ l) with hsame | ⟨-, hdir, -⟩ | ⟨htmp, -⟩ |
    ⟨hpath, hdata, hcan⟩
  · rw [hsame] at hfile
    exact Or.inl ((mem_reported_iff hstore hquiet hroot).2 ⟨l, c, hne, hgit, hfile, hshown⟩)
  · rw [hdir] at hfile
    cases hfile
  · rw [startOf, parentOf, List.append_assoc, List.append_assoc, List.append_cancel_left_eq] at htmp
    rw [htmp] at hshown
    exact absurd hshown lossyPath_tmp
  · -- the write that is not stopped saves the file as well
    have hwritten := (write_along os.quiet p nanos data
      FileTree.get_nil (List.nil_append root) hroot).2
    have hok := hwritten.success os.quiet_quiet hclear hcan
    have hlink : ((write os.quiet root nanos p data).run d).2.tree.NoLink [] root := by
      rcases hwritten.way with hsame | ⟨-, hsaving'⟩
      · rwa [hsame]
      · exact hsaving'.noLink hroot
    refine Or.inr ((mem_reported_iff hstore hquiet hlink).2 ⟨l, data, hne, hgit, ?_, hshown⟩)
    rw [hpath, parentOf_append_leaf]
    exact (hwritten.ok hok).2.1

/-- **A write is atomic.** Wherever it stops, because a call fails or the process ends, the path
reads as before or as the new data, the other blobs are as they were, and every entry that is
reported is one before the write or after it. -/
theorem write_atomic (os os' : Os) (root : List FileName) (nanos : ℕ) (p : RelPath) (data : Bytes)
    (store : Store (Disk FileName) CE StorageFsError VE) (d u : Disk FileName)
    (hstore : store.storage = storageFs os' root) (hquiet : os'.Quiet)
    (hroot : d.tree.NoLink [] root) (h : Stopped os root nanos p data d u) :
    ((store.storage.readFn p u).1 = (store.storage.readFn p d).1 ∨
        (store.storage.readFn p u).1 = .ok (some data)) ∧
      (∀ q, q ≠ p → ∀ c,
        ((store.storage.readFn q d).1 = .ok (some c) → (store.storage.readFn q u).1 = .ok (some c)) ∧
        ((store.storage.readFn q u).1 = .ok (some c) → (store.storage.readFn q d).1 = .ok (some c) ∨
          q.names = p.names.dropLast ++ [uniqueTmpName os.pid nanos p.leaf])) ∧
      ∀ dir, store.reported dir u ⊆ store.reported dir d ∪
        store.reported dir ((write os.quiet root nanos p data).run d).2 := by
  refine ⟨?_, fun q hne c => ?_, h.reported hstore hquiet hroot⟩
  · rw [hstore]
    exact h.read_self hquiet hroot
  · rw [hstore]
    exact h.read_other hquiet hroot hne

end Atomic

/-- A path in the root. -/
def aPath : RelPath := ⟨"a.gpg".toList, validate_a_gpg⟩

/-- The store of the command line on a disk. -/
def diskStore : Store (Disk FileName) TaggedError StorageFsError Empty where
  crypto := taggedCrypto
  storage := storageFs calmOs [storeName]
  vcs := noVcs

/-- A write that stops at the first byte. -/
def halfWritten : Disk FileName :=
  (((write calmOs [storeName] 5 aPath [1, 2]).trace linkedDisk).map Step.after).getD 4 linkedDisk

theorem halfWritten_stopped : Stopped calmOs [storeName] 5 aPath [1, 2] linkedDisk halfWritten := by
  have hlen :
      4 < (((write calmOs [storeName] 5 aPath [1, 2]).trace linkedDisk).map Step.after).length := by
    decide +kernel
  have hmem :
      halfWritten ∈ ((write calmOs [storeName] 5 aPath [1, 2]).trace linkedDisk).map Step.after := by
    rw [halfWritten, List.getD_eq_getElem _ _ hlen]
    exact List.getElem_mem hlen
  obtain ⟨call, hcall, hafter⟩ := List.mem_map.1 hmem
  exact Or.inr ⟨call, hcall, hafter.symm⟩

/-- A write that stops at the first byte loses nothing. -/
theorem write_atomic_half :
    ((diskStore.storage.readFn aPath halfWritten).1 = (diskStore.storage.readFn aPath linkedDisk).1 ∨
        (diskStore.storage.readFn aPath halfWritten).1 = .ok (some [1, 2])) ∧
      (∀ q, q ≠ aPath → ∀ c,
        ((diskStore.storage.readFn q linkedDisk).1 = .ok (some c) →
          (diskStore.storage.readFn q halfWritten).1 = .ok (some c)) ∧
        ((diskStore.storage.readFn q halfWritten).1 = .ok (some c) →
          (diskStore.storage.readFn q linkedDisk).1 = .ok (some c) ∨
            q.names = aPath.names.dropLast ++ [uniqueTmpName calmOs.pid 5 aPath.leaf])) ∧
      ∀ dir, diskStore.reported dir halfWritten ⊆ diskStore.reported dir linkedDisk ∪
        diskStore.reported dir ((write calmOs.quiet [storeName] 5 aPath [1, 2]).run linkedDisk).2 :=
  write_atomic calmOs calmOs [storeName] 5 aPath [1, 2] diskStore linkedDisk halfWritten rfl
    (fun _ => rfl) (noLink_of_dir (by decide +kernel)) halfWritten_stopped

end StorageFs

end Bypass
