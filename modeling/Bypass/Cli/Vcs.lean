import Bypass.Core.FileNames
import Bypass.Core.Mem
import Bypass.Git.Plain

/-!
# A store in a git repository

The version control of the command line, `Git2Vcs` (`vcs_git2.rs`), on a repository, and the
working tree of that repository as the storage. A commit refuses while a merge or a rebase is
unfinished, stages the paths it is given as they are on disk, and makes no commit when the tree is
that of `HEAD` already.

* `commitFn_ok`: after a commit that succeeded, `HEAD` has what was on disk.
* `gitStore_onMap`: the working tree is a map, so the results about stores apply to it.
-/

namespace Bypass

/-! ## Commits -/

/-- `Git2Error`. -/
inductive Git2Error where
  | git2 (e : Str)
  | io (path : Str) (e : Str)
  | dirtyTree (state : Str)
  deriving DecidableEq

/-- `unfinished_state`. -/
def unfinishedState : RepositoryState → Option Str
  | .clean => none
  | .merge => some "merge".toList
  | .revert => some "revert".toList
  | .cherryPick => some "cherry-pick".toList
  | .bisect => some "bisect".toList
  | .rebase _ _ => some "rebase".toList
  | .am => some "am".toList

/-- One of two names is a directory of the other. -/
def Collides (a b : Bytes) : Prop := a ++ [0x2f] <+: b ∨ b ++ [0x2f] <+: a

instance (a b : Bytes) : Decidable (Collides a b) :=
  inferInstanceAs (Decidable (_ ∨ _))

/-- `Index::add_path`: the entries that the file is in the way of go. -/
def addPath (index : GitTree) (p content : Bytes) : GitTree :=
  (index.filter fun q _ => ¬ Collides p q).insert p content

/-- The loop of `commit`: each path is staged as it is on disk. -/
def stage (worktree : GitTree) : List RelPath → GitTree → GitTree
  | [], index => index
  | p :: ps, index =>
    match worktree[p.bytes]? with
    | some content => stage worktree ps (addPath index p.bytes content)
    | none => stage worktree ps (index.erase p.bytes)

/-- A commit of the index on `HEAD`. -/
def indexCommit (git : Git) (r : Repo) : Commit :=
  .node ⟨git.newSha r r.index r.head.toList, r.index⟩ r.head.toList

/-- The end of `commit`: a commit of the staged tree, unless `HEAD` has that tree. -/
def Git2Vcs.commitIndex (git : Git) (r : Repo) : Except Git2Error Unit × Repo :=
  if r.head.map Merkle.tree = some r.index then (.ok (), r)
  else
    match r.store [indexCommit git r] with
    | none => (.error (.git2 "object exists".toList), r)
    | some stored =>
      if h : indexCommit git r ∈ stored.odb.commits then
        (.ok (), stored.setHead (indexCommit git r) h)
      else (.error (.git2 "no such object".toList), r)

/-- On disk the path is a directory: `exists` finds it, and `Index::add_path` refuses it. -/
def IsDirectory (worktree : GitTree) (p : RelPath) : Prop :=
  ∃ q ∈ worktree.keys, p.bytes ++ [0x2f] <+: q

instance (worktree : GitTree) (p : RelPath) : Decidable (IsDirectory worktree p) :=
  inferInstanceAs (Decidable (∃ q ∈ worktree.keys, p.bytes ++ [0x2f] <+: q))

/-- `Git2Vcs::commit` in an initialised repository. Any of its calls of libgit2 may fail, and then
at most the index has changed. -/
def Git2Vcs.commitFn (git : Git) (paths : List RelPath) (message : Str) (r : Repo) :
    Except Git2Error Unit × Repo :=
  if paths = [] then (.ok (), r)
  else
    match unfinishedState r.state with
    | some state => (.error (.dirtyTree state), r)
    | none =>
      match git.fault (.commit (paths.map RelPath.str) message) r with
      | some (.spawn e) => (.error (.git2 e), r)
      | some (.exit e) =>
        (.error (.git2 e), { r with
          index := (git.broken (.commit (paths.map RelPath.str) message) r).index })
      | none =>
        if ∃ p ∈ paths, IsDirectory r.worktree p then (.error (.git2 "is a directory".toList), r)
        else Git2Vcs.commitIndex git { r with index := stage r.worktree paths r.index }

/-- `Git2Vcs`. -/
def git2Vcs (git : Git) : VersionControl Repo Git2Error where
  commitFn := Git2Vcs.commitFn git

theorem stage_singleton {worktree index : GitTree} {p : RelPath} {content : Bytes}
    (h : worktree[p.bytes]? = some content) : (stage worktree [p] index)[p.bytes]? = some content := by
  simp only [stage, h, addPath, Std.ExtTreeMap.getElem?_insert_self]

theorem commitIndex_spec (git : Git) (r : Repo) :
    (Git2Vcs.commitIndex git r).2.worktree = r.worktree ∧
      (∀ c ∈ r.odb.commits, c ∈ (Git2Vcs.commitIndex git r).2.odb.commits) ∧
      ((Git2Vcs.commitIndex git r).1 = .ok () →
        ∃ c ∈ (Git2Vcs.commitIndex git r).2.head, c.tree = r.index) := by
  unfold Git2Vcs.commitIndex
  split
  · next hhead =>
    obtain ⟨c, hc, htree⟩ := Option.map_eq_some_iff.1 hhead
    exact ⟨rfl, fun _ hc => hc, fun _ => ⟨c, hc, htree⟩⟩
  · split
    · exact ⟨rfl, fun _ hc => hc, fun h => by cases h⟩
    · next stored hstored =>
      obtain ⟨hmem, -, -, hwork, -⟩ := Repo.store_eq_some hstored
      split
      · exact ⟨hwork, fun c hc => (hmem c).2 (Or.inr hc), fun _ => ⟨_, rfl, rfl⟩⟩
      · exact ⟨rfl, fun _ hc => hc, fun h => by cases h⟩

/-- A commit leaves the working tree alone, and deletes no other. -/
theorem commitFn_keeps (git : Git) (paths : List RelPath) (message : Str) (r : Repo) :
    (Git2Vcs.commitFn git paths message r).2.worktree = r.worktree ∧
      ∀ c ∈ r.odb.commits, c ∈ (Git2Vcs.commitFn git paths message r).2.odb.commits := by
  unfold Git2Vcs.commitFn
  split
  · exact ⟨rfl, fun _ hc => hc⟩
  split
  · exact ⟨rfl, fun _ hc => hc⟩
  split
  · exact ⟨rfl, fun _ hc => hc⟩
  · exact ⟨rfl, fun _ hc => hc⟩
  split
  · exact ⟨rfl, fun _ hc => hc⟩
  · obtain ⟨hwork, hmem, -⟩ := commitIndex_spec git
      { r with index := stage r.worktree paths r.index }
    exact ⟨hwork, hmem⟩

/-- **A file that was committed is in `HEAD`**, by this commit or before. -/
theorem commitFn_ok (git : Git) {p : RelPath} {message : Str} {r : Repo} {content : Bytes}
    (hfile : r.worktree[p.bytes]? = some content)
    (hok : (Git2Vcs.commitFn git [p] message r).1 = .ok ()) :
    ∃ c ∈ (Git2Vcs.commitFn git [p] message r).2.head, c.tree[p.bytes]? = some content := by
  unfold Git2Vcs.commitFn at hok ⊢
  rw [if_neg (by simp)] at hok ⊢
  split at hok
  · cases hok
  split at hok
  · cases hok
  · cases hok
  by_cases hdir : ∃ q ∈ [p], IsDirectory r.worktree q
  · rw [if_pos hdir] at hok
    cases hok
  · rw [if_neg hdir] at hok ⊢
    obtain ⟨c, hc, htree⟩ := (commitIndex_spec git _).2.2 hok
    refine ⟨c, hc, ?_⟩
    rw [htree]
    exact stage_singleton hfile

/-! ## The working tree as a storage -/

/-- The files of a working tree, by their paths. -/
def worktreeFiles (r : Repo) : Files := fun p => r.worktree[p.bytes]?

/-- The working tree as a storage in which no call fails. -/
def worktreeStorage : Storage Repo Empty where
  readFn path r := (.ok r.worktree[path.bytes]?, r)
  writeFn path data r := (.ok (), { r with worktree := r.worktree.insert path.bytes data })
  removeFn path r := (.ok (), { r with worktree := r.worktree.erase path.bytes })
  existsFn path r := (.ok (r.worktree.contains path.bytes), r)
  listFn dir r := (.ok ((r.worktree.keys.filterMap RelPath.ofBytes).filter fun q =>
    dir.all fun p => decide (p.Below q)), r)

/-- The store of the tests, in a git repository. -/
def gitStore (git : Git) : Store Repo TaggedError Empty Git2Error where
  crypto := taggedCrypto
  storage := worktreeStorage
  vcs := git2Vcs git

theorem worktree_insert (t : GitTree) (p : RelPath) (d : Bytes) :
    (fun q : RelPath => (t.insert p.bytes d)[q.bytes]?) =
      Function.update (fun q : RelPath => t[q.bytes]?) p (some d) := funext fun q => by
  rw [Std.ExtTreeMap.getElem?_insert, Function.update_apply]
  simp only [Std.LawfulEqOrd.compare_eq_iff_eq, RelPath.bytes_inj, @eq_comm _ p q]

theorem worktree_erase (t : GitTree) (p : RelPath) :
    (fun q : RelPath => (t.erase p.bytes)[q.bytes]?) =
      Function.update (fun q : RelPath => t[q.bytes]?) p none := funext fun q => by
  rw [Std.ExtTreeMap.getElem?_erase, Function.update_apply]
  simp only [Std.LawfulEqOrd.compare_eq_iff_eq, RelPath.bytes_inj, @eq_comm _ p q]

/-- **The working tree is a map.** -/
theorem gitStore_onMap (git : Git) : OnMap (gitStore git) worktreeFiles where
  encrypt_files _ _ _ := rfl
  decrypt_files c r := congrArg worktreeFiles (taggedCrypto_keeps c r)
  read_files _ _ := rfl
  read_ok p r v hv := (Except.ok.inj hv).symm
  write_frame p d r q hq := by
    have h := congrFun (worktree_insert r.worktree p d) q
    rwa [Function.update_of_ne hq] at h
  write_ok p d r _ := worktree_insert r.worktree p d
  remove_frame p r q hq := by
    have h := congrFun (worktree_erase r.worktree p) q
    rwa [Function.update_of_ne hq] at h
  remove_ok p r _ := worktree_erase r.worktree p
  exists_files _ _ := rfl
  exists_ok p r b hb := by
    rw [← Except.ok.inj hb, Std.ExtTreeMap.contains_eq_isSome_getElem?]
    rfl
  list_files _ _ := rfl
  list_nodup d r l hl := by
    rw [← Except.ok.inj hl]
    apply List.Nodup.filter
    refine r.worktree.nodup_keys.filterMap fun b b' p hb hb' => ?_
    rw [Option.mem_def, RelPath.ofBytes_eq_some] at hb hb'
    rw [← hb, hb']
  mem_list d r l hl q := by
    have hkey : q ∈ r.worktree.keys.filterMap RelPath.ofBytes ↔ (worktreeFiles r q).isSome := by
      rw [List.mem_filterMap, worktreeFiles, ← Std.ExtTreeMap.contains_eq_isSome_getElem?,
        Std.ExtTreeMap.contains_iff_mem]
      constructor
      · rintro ⟨b, hb, hq⟩
        rwa [RelPath.ofBytes_eq_some.1 hq, ← Std.ExtTreeMap.mem_keys]
      · intro hq
        exact ⟨q.bytes, Std.ExtTreeMap.mem_keys.2 hq, RelPath.ofBytes_eq_some.2 rfl⟩
    rw [← Except.ok.inj hl, List.mem_filter, hkey]
    cases d <;> simp
  commit_files paths message r := by
    funext q
    show (Git2Vcs.commitFn git paths message r).2.worktree[q.bytes]? = r.worktree[q.bytes]?
    rw [(commitFn_keeps git paths message r).1]

end Bypass
