import Bypass.Foundations.Prog
import Bypass.Git.Repo
import Bypass.Git.Names

/-!
# Git, as the store's code calls it

The commands and library calls of git that the source makes, as atomic actions on a repository.
What git documents of them is computed from the repository. What it leaves open is a field of
`Git`, a parameter of all that follows: which commit a name that is not an object id stands for,
which deleted files it takes for renamed ones, what it chooses to replay in a rebase, and, above
all, when a command fails (`fault`), since any of them may.

* `mem_changedNames`: the names that `--name-only` prints.
* `Repo.checkout`: the files of a working tree moved to another commit.
* `mergeTrees_eq_some`: a merge of trees, path by path.
-/

namespace Bypass

/-! ## Commits between two others -/

namespace Merkle

/-- The tree that a commit was made on. -/
def parentTree (c : Commit) : GitTree := (c.parents.head?.map tree).getD ∅

/-- The commits of `since..tip`: those of the history of `tip` that `since` does not reach. -/
def range (since : Option Commit) (tip : Commit) : List Commit :=
  tip.history.dedup.filter fun c => c ∉ reachable since

@[simp] theorem mem_range {since : Option Commit} {tip c : Commit} :
    c ∈ range since tip ↔ c ∈ tip.history ∧ c ∉ reachable since := by
  rw [range, List.mem_filter, List.mem_dedup, decide_eq_true_iff]

end Merkle

/-! ## Working trees -/

namespace Repo

/-- Store commits in the object database, if no id is taken. -/
def store (r : Repo) (cs : List Commit) : Option Repo :=
  match h : r.odb.addAll cs with
  | none => none
  | some odb => some { r with
      odb := odb
      head_mem := fun c hc => (Odb.mem_addAll h).2 (Or.inr (r.head_mem c hc))
      orig_mem := fun c hc => (Odb.mem_addAll h).2 (Or.inr (r.orig_mem c hc)) }

theorem store_eq_some {r r' : Repo} {cs : List Commit} (h : r.store cs = some r') :
    (∀ c, c ∈ r'.odb.commits ↔ c ∈ cs ∨ c ∈ r.odb.commits) ∧ r'.head = r.head ∧
      r'.index = r.index ∧ r'.worktree = r.worktree ∧ r'.state = r.state := by
  rw [store] at h
  split at h
  · cases h
  · next odb hodb =>
    cases h
    exact ⟨fun c => Odb.mem_addAll hodb, rfl, rfl, rfl, rfl⟩

/-- Move the branch to a commit. -/
def setHead (r : Repo) (c : Commit) (hc : c ∈ r.odb.commits) : Repo :=
  { r with
    head := some c
    head_mem := fun d hd => by
      cases hd
      exact hc }

/-- The files that the index does not track. -/
def untracked (r : Repo) : GitTree := r.worktree.filter fun p _ => !r.index.contains p

/-- Move the branch, the index and the working tree to a commit: the files that the index tracked
go, those of the commit come, and untracked ones stay unless they are in the way. -/
def checkout (r : Repo) (c : Commit) (hc : c ∈ r.odb.commits) : Repo :=
  { r.setHead c hc with
    index := c.tree
    worktree := r.untracked ∪ c.tree }

/-- What `git reset` makes of an operation under way. -/
def afterReset : RepositoryState → RepositoryState
  | .merge => .clean
  | .revert => .clean
  | .cherryPick => .clean
  | s => s

theorem orig_afterReset (s : RepositoryState) : (afterReset s).orig = s.orig := by
  cases s <;> rfl

/-- The tracked files are as in the commit, on disk and in the index. -/
def Unchanged (r : Repo) (c : Commit) : Prop :=
  r.index = c.tree ∧ ∀ p ∈ r.index.keys, r.worktree[p]? = r.index[p]?

instance (r : Repo) (c : Commit) : Decidable (r.Unchanged c) :=
  inferInstanceAs (Decidable (_ ∧ ∀ p ∈ r.index.keys, r.worktree[p]? = r.index[p]?))

/-- An untracked file is where the tree has one. -/
def InTheWay (r : Repo) (t : GitTree) : Prop :=
  ∃ p ∈ t.keys, r.index.contains p = false ∧ r.worktree.contains p = true

instance (r : Repo) (t : GitTree) : Decidable (r.InTheWay t) :=
  inferInstanceAs
    (Decidable (∃ p ∈ t.keys, r.index.contains p = false ∧ r.worktree.contains p = true))

end Repo

/-! ## Git -/

/-- A command, or a call of libgit2. -/
inductive Command where
  | openRepo
  | headSha
  | indexPack (bytes : Bytes)
  | log (since : Option Str) (tip : Str)
  | show_ (rev : Str) (path : Bytes)
  | descendantOf (commit ancestor : Oid)
  | resetHard (target : Str)
  | rebase (onto : Str)
  | rebaseAbort
  | packObjects (head : Str) (seen : Option Str)
  | revParseUpstream
  | diffUpstream
  | lsFiles
  | commit (paths : List Str) (message : Str)
  deriving DecidableEq

/-- The command moves the working tree. -/
def Command.movesFiles : Command → Bool
  | .resetHard _ => true
  | .rebase _ => true
  | .rebaseAbort => true
  | _ => false

/-- How a command fails: it does not start, or it ends with a status other than 0. -/
inductive Fault where
  | spawn (e : Str)
  | exit (stderr : Str)

/-- What git decides. -/
structure Git where
  /-- The fault of a command on a repository, if it has one there. -/
  fault : Command → Repo → Option Fault
  /-- What a command that fails leaves of the repository. -/
  broken : Command → Repo → Repo
  /-- The commit of a name that is not the id of an object. -/
  revName : Repo → Str → Option Commit
  /-- The file is gone because another got its content: such a deletion is not listed. -/
  renamed : (old new : GitTree) → Bytes → Bool
  /-- What `git show` prints of a directory. -/
  listing : GitTree → Bytes → Bytes
  /-- The commits of a pack, and the pack of some commits. -/
  unpack : Bytes → Option (List Commit)
  pack : List Commit → Bytes
  /-- The id of a new commit. -/
  newSha : Repo → GitTree → List Commit → Oid
  /-- The commits that `git rebase` replays on `onto`, oldest first: neither merges, nor what
  `onto` already has. -/
  todo : (onto head : Commit) → List Commit
  todo_mem : ∀ onto head, ∀ c ∈ todo onto head, c ∈ Merkle.range (some onto) head ∧
    c.parents.length ≤ 1
  /-- The files that a rebase shows when it stops on top of a commit. -/
  conflict : Repo → Commit → GitTree
  /-- The merge of a text file that both sides changed, if there is no conflict. -/
  textMerge : (base : Option Bytes) → (ours theirs : Bytes) → Option Bytes

namespace Git

variable (git : Git)

/-! ### Names and histories -/

/-- The commit that a revision stands for: the object of that id, or else what git makes of the
name. -/
def rev (r : Repo) (s : Str) : Option Commit :=
  match (Oid.fromStr s).bind r.odb.lookup with
  | some c => some c
  | none => (git.revName r s).filter (· ∈ r.odb.commits)

theorem rev_mem {r : Repo} {s : Str} {c : Commit} (h : git.rev r s = some c) :
    c ∈ r.odb.commits := by
  rw [rev] at h
  split at h
  · next d hd =>
    cases h
    obtain ⟨o, -, ho⟩ := Option.bind_eq_some_iff.1 hd
    exact (Odb.mem_of_lookup ho).1
  · simpa using (Option.filter_eq_some_iff.1 h).2

theorem rev_fromStr {r : Repo} {s : Str} {o : Oid} {c : Commit} (hs : Oid.fromStr s = some o)
    (ho : r.odb.lookup o = some c) : git.rev r s = some c := by
  rw [rev, hs, Option.bind_some, ho]

theorem rev_mem_sha {r : Repo} {c : Commit} (hc : c ∈ r.odb.commits) :
    git.rev r c.sha.hex = some c :=
  git.rev_fromStr (Oid.fromStr_hex c.sha) (Odb.lookup_eq_some.2 ⟨hc, rfl⟩)

/-- The names that `--name-only` lists between two trees. -/
def changedNames (old new : GitTree) : List Bytes :=
  (old ∪ new).keys.filter fun p =>
    old[p]? ≠ new[p]? ∧ ¬ (new[p]? = none ∧ git.renamed old new p = true)

theorem mem_changedNames {old new : GitTree} {p d : Bytes} (hnew : new[p]? = some d) :
    p ∈ git.changedNames old new ↔ old[p]? ≠ some d := by
  have hkey : p ∈ (old ∪ new).keys := by
    rw [Std.ExtTreeMap.mem_keys, Std.ExtTreeMap.mem_union_iff]
    exact Or.inr (Std.ExtTreeMap.mem_iff_isSome_getElem?.2 (by simp [hnew]))
  simp only [changedNames, List.mem_filter, hkey, true_and, hnew, reduceCtorEq, false_and,
    not_false_eq_true, and_true, decide_eq_true_eq]

/-- The names that `git log --name-only` lists for a commit: for a merge, none. -/
def commitNames (c : Commit) : List Bytes :=
  if 2 ≤ c.parents.length then [] else git.changedNames c.parentTree c.tree

/-- What `git log --name-only --pretty=format:` prints. -/
def logOutput (cs : List Commit) : Bytes :=
  unlines (cs.flatMap fun c => [] :: (git.commitNames c).map quote)

/-! ### Merging trees -/

/-- `take_theirs`, the merge driver of `*.gpg`: it leaves in the file `ours` (`%A`) what is in the
file `theirs` (`%B`). -/
def takeTheirs (_ancestor : Option Bytes) (_ours theirs : Bytes) : Bytes := theirs

/-- The files of the attribute `*.gpg … merge=bypass-take-theirs`. -/
def isGpg (path : Bytes) : Bool := utf8Encode ".gpg".toList <:+ path

/-- The merge of one file; `none` is a conflict. -/
def mergePath (path : Bytes) (base ours theirs : Option Bytes) : Option (Option Bytes) :=
  if ours = theirs then some ours
  else if ours = base then some theirs
  else if theirs = base then some ours
  else
    match ours, theirs with
    | some a, some b =>
      if isGpg path then some (some (takeTheirs base a b)) else (git.textMerge base a b).map some
    | _, _ => none

/-- Put a file into a tree, or take it out. -/
def setPath (t : GitTree) (p : Bytes) : Option Bytes → GitTree
  | some d => t.insert p d
  | none => t.erase p

theorem getElem?_setPath (t : GitTree) (p q : Bytes) (v : Option Bytes) :
    (setPath t p v)[q]? = if q = p then v else t[q]? := by
  cases v with
  | some d =>
    rw [setPath, Std.ExtTreeMap.getElem?_insert]
    simp only [Std.LawfulEqOrd.compare_eq_iff_eq, @eq_comm _ p q]
  | none =>
    rw [setPath, Std.ExtTreeMap.getElem?_erase]
    simp only [Std.LawfulEqOrd.compare_eq_iff_eq, @eq_comm _ p q]

/-- The merge of the files at the paths of a list. -/
def mergePaths (base ours theirs : GitTree) : List Bytes → GitTree → Option GitTree
  | [], t => some t
  | p :: ps, t => (git.mergePath p base[p]? ours[p]? theirs[p]?).bind fun v =>
    mergePaths base ours theirs ps (setPath t p v)

theorem mergePaths_eq_some {base ours theirs t t' : GitTree} {ps : List Bytes}
    (h : git.mergePaths base ours theirs ps t = some t') (p : Bytes) :
    (p ∈ ps → git.mergePath p base[p]? ours[p]? theirs[p]? = some t'[p]?) ∧
      (p ∉ ps → t'[p]? = t[p]?) := by
  induction ps generalizing t with
  | nil =>
    cases h
    simp
  | cons q qs ih =>
    obtain ⟨v, hv, hrest⟩ := Option.bind_eq_some_iff.1 h
    obtain ⟨hmem, hframe⟩ := ih hrest
    rw [getElem?_setPath] at hframe
    by_cases hp : p ∈ qs
    · exact ⟨fun _ => hmem hp, fun hn => absurd (List.mem_cons_of_mem _ hp) hn⟩
    · constructor
      · intro hpq
        obtain rfl := (List.mem_cons.1 hpq).resolve_right hp
        rw [hframe hp, if_pos rfl, hv]
      · intro hpq
        have hne : p ≠ q := fun he => hpq (by simp [he])
        rw [hframe hp, if_neg hne]

/-- The merge of three trees. -/
def mergeTrees (base ours theirs : GitTree) : Option GitTree :=
  git.mergePaths base ours theirs (base ∪ ours ∪ theirs).keys ∅

/-- **A merge of trees is a merge of each of their files.** -/
theorem mergeTrees_eq_some {base ours theirs t : GitTree}
    (h : git.mergeTrees base ours theirs = some t) (p : Bytes) :
    git.mergePath p base[p]? ours[p]? theirs[p]? = some t[p]? := by
  obtain ⟨hmem, hframe⟩ := git.mergePaths_eq_some h p
  by_cases hp : p ∈ (base ∪ ours ∪ theirs).keys
  · exact hmem hp
  · have hnone : base[p]? = none ∧ ours[p]? = none ∧ theirs[p]? = none := by
      simp only [Std.ExtTreeMap.mem_keys, Std.ExtTreeMap.mem_union_iff, not_or] at hp
      exact ⟨Std.ExtTreeMap.getElem?_eq_none hp.1.1, Std.ExtTreeMap.getElem?_eq_none hp.1.2,
        Std.ExtTreeMap.getElem?_eq_none hp.2⟩
    rw [hframe hp, hnone.1, hnone.2.1, hnone.2.2, Std.ExtTreeMap.getElem?_empty]
    rfl

/-- Replay a commit on another. One that is there already is kept, and one whose change is there
already is dropped. -/
def pick (r : Repo) (cur c : Commit) : Option Commit :=
  if c.parents = [cur] then some c
  else (git.mergeTrees c.parentTree cur.tree c.tree).map fun t =>
    if t = cur.tree ∧ c.tree ≠ c.parentTree then cur else .node ⟨git.newSha r t [cur], t⟩ [cur]

/-- Replay commits in order: the last one made, or the one it stopped at. -/
def replay (r : Repo) : Commit → List Commit → Except Commit Commit
  | cur, [] => .ok cur
  | cur, c :: cs =>
    match git.pick r cur c with
    | some cur' => replay r cur' cs
    | none => .error cur

/-- A rebase stopped at a commit `cur`, with the files `shown` in the index and on disk; untracked
files stay. -/
def stopAt (r : Repo) (cur : Commit) (hc : cur ∈ r.odb.commits) (shown : GitTree)
    (orig : Commit) (horig : orig ∈ r.odb.commits) : Repo :=
  let tracked := shown.filter fun p _ => !r.untracked.contains p
  { r.setHead cur hc with
    index := tracked
    worktree := r.untracked ∪ tracked
    state := .rebase orig (decide (r.state = .bisect))
    orig_mem := fun c hc => by
      obtain rfl : orig = c := Option.some.inj hc
      exact horig }

/-- The branch `head` rebased onto a commit; or stopped, at a conflict or at a file in the way. -/
def rebased (r : Repo) (onto head : Commit) (honto : onto ∈ r.odb.commits)
    (hhead : head ∈ r.odb.commits) : Except Repo Repo :=
  match git.replay r onto (git.todo onto head) with
  | .error cur =>
    match hs : r.store cur.history with
    | some r' =>
      if h : cur ∈ r'.odb.commits then
        .error (stopAt r' cur h (git.conflict r cur) head
          (((Repo.store_eq_some hs).1 head).2 (Or.inr hhead)))
      else .error (stopAt r onto honto onto.tree head hhead)
    | none => .error (stopAt r onto honto onto.tree head hhead)
  | .ok tip =>
    match r.store tip.history with
    | some r' =>
      if h : tip ∈ r'.odb.commits ∧ ¬ r.InTheWay tip.tree then .ok (r'.checkout tip h.1)
      else .error (stopAt r onto honto onto.tree head hhead)
    | none => .error (stopAt r onto honto onto.tree head hhead)

/-! ### Calls -/

section Calls

variable {α : Type}

/-- A call of libgit2 that changes nothing. -/
def query (cmd : Command) (f : Repo → Except Str α) : Prog Command Repo Str α :=
  Prog.call (fun _ => cmd) fun r =>
    match git.fault cmd r with
    | some (.spawn e) => (.error e, r)
    | some (.exit e) => (.error e, r)
    | none => (f r, r)

/-- A command run to its end: it does not start, or answers with its output or its complaint. What
a command that fails leaves is `left`. -/
def process (cmd : Command) (left : Repo → Repo) (f : Repo → Except Str α × Repo) :
    Prog Command Repo Str (Except Str α) :=
  Prog.call (fun _ => cmd) fun r =>
    match git.fault cmd r with
    | some (.spawn e) => (.error e, r)
    | some (.exit stderr) => (.ok (.error stderr), left r)
    | none => (.ok (f r).1, (f r).2)

/-- A command that changes nothing. -/
def output (cmd : Command) (f : Repo → Except Str α) : Prog Command Repo Str (Except Str α) :=
  git.process cmd id fun r => (f r, r)

end Calls

/-- `Repository::open`. -/
def openRepo : Prog Command Repo Str Unit := git.query .openRepo fun _ => .ok ()

/-- `Repository::head`, peeled to a commit. -/
def headSha : Prog Command Repo Str (Option Str) :=
  git.query .headSha fun r => .ok (r.head.map fun c => c.sha.hex)

/-- `graph_descendant_of`: strictly. -/
def descendantOf (commit ancestor : Oid) : Prog Command Repo Str Bool :=
  git.query (.descendantOf commit ancestor) fun r =>
    match r.odb.lookup commit, r.odb.lookup ancestor with
    | some c, some d => .ok (decide (d ∈ c.history ∧ d ≠ c))
    | _, _ => .error "object not found".toList

/-- The output of `git log --name-only` for a range, where its revisions are known. -/
def logOf (since : Option Str) (tip : Str) (r : Repo) : Except Str Bytes :=
  match since.elim (some none) (fun s => (git.rev r s).map some), git.rev r tip with
  | some l, some t => .ok (git.logOutput (Merkle.range l t))
  | _, _ => .error "fatal: bad revision".toList

/-- `git log --name-only --pretty=format: since..tip`. -/
def log (since : Option Str) (tip : Str) : Prog Command Repo Str (Except Str Bytes) :=
  git.output (.log since tip) (git.logOf since tip)

/-- What `git show` prints for a path in a commit. -/
def showOf (rev : Str) (path : Bytes) (r : Repo) : Except Str Bytes :=
  match git.rev r rev with
  | none => .error "fatal: invalid object name".toList
  | some c =>
    match c.tree[path]? with
    | some d => .ok d
    | none =>
      if c.tree.keys.any fun q => path ++ [0x2f] <+: q then .ok (git.listing c.tree path)
      else .error "fatal: path does not exist".toList

/-- `git show rev:path`. -/
def showFile (rev : Str) (path : Bytes) : Prog Command Repo Str (Except Str Bytes) :=
  git.output (.show_ rev path) (git.showOf rev path)

/-- `git index-pack --stdin --fix-thin`. -/
def indexPack (bytes : Bytes) : Prog Command Repo Str (Except Str Unit) :=
  git.process (.indexPack bytes) id fun r =>
    match (git.unpack bytes).bind r.store with
    | some r' => (.ok (), r')
    | none => (.error "fatal: bad pack".toList, r)

/-- The repository after `git reset --hard`. -/
def resetTo (target : Str) (r : Repo) : Except Str Unit × Repo :=
  match h : git.rev r target with
  | some c =>
    (.ok (), { r.checkout c (git.rev_mem h) with
      state := Repo.afterReset r.state
      orig_mem := by rw [Repo.orig_afterReset]; exact r.orig_mem })
  | none => (.error "fatal: ambiguous argument".toList, r)

/-- `git reset --hard`. -/
def resetHard (target : Str) : Prog Command Repo Str (Except Str Unit) :=
  git.process (.resetHard target) (git.broken (.resetHard target)) (git.resetTo target)

/-- The repository after `git rebase`. -/
def rebaseTo (onto : Str) (r : Repo) : Except Str Unit × Repo :=
  match h : git.rev r onto, h' : r.head with
  | some base, some head =>
    if r.state.rebasing ∨ ¬ r.Unchanged head ∨ r.InTheWay base.tree then
      (.error "error: cannot rebase".toList, r)
    else
      match git.rebased r base head (git.rev_mem h) (r.head_mem head h') with
      | .ok r' => (.ok (), r')
      | .error stopped => (.error "error: could not apply".toList, stopped)
  | _, _ => (.error "fatal: invalid upstream".toList, r)

/-- `git rebase`. -/
def rebase (onto : Str) : Prog Command Repo Str (Except Str Unit) :=
  git.process (.rebase onto) (git.broken (.rebase onto)) (git.rebaseTo onto)

/-- The repository after `git rebase --abort`. -/
def abortTo (r : Repo) : Except Str Unit × Repo :=
  match h : r.state with
  | .rebase orig bisecting =>
    (.ok (), { r.checkout orig (r.orig_mem orig (by rw [h]; rfl)) with
      state := if bisecting then .bisect else .clean
      orig_mem := by cases bisecting <;> simp [RepositoryState.orig] })
  | _ => (.error "fatal: no rebase in progress".toList, r)

/-- `git rebase --abort`. -/
def rebaseAbort : Prog Command Repo Str (Except Str Unit) :=
  git.process .rebaseAbort (git.broken .rebaseAbort) abortTo

/-- The commit of an id, if it is there. -/
def findCommit (r : Repo) (s : Str) : Option Commit := (Oid.fromStr s).bind r.odb.lookup

/-- What a walk from a head meets, where the history of a commit that is there is hidden. -/
def walk (r : Repo) (head : Commit) (seen : Option Str) : List Commit :=
  Merkle.range (seen.bind (findCommit r)) head

/-- A walk, and the pack of what it met; empty if it met nothing. -/
def packObjects (head : Str) (seen : Option Str) : Prog Command Repo Str Bytes :=
  git.query (.packObjects head seen) fun r =>
    match findCommit r head with
    | none => .error "push HEAD onto revwalk".toList
    | some h => .ok (if walk r h seen = [] then [] else git.pack (walk r h seen))

/-- `git rev-parse --verify --quiet @{upstream}`. -/
def revParseUpstream : Prog Command Repo Str (Except Str Str) :=
  git.output .revParseUpstream fun r =>
    match r.upstream with
    | some u => .ok u.sha.hex
    | none => .error []

/-- `git diff --name-only @{upstream}..HEAD`. -/
def diffUpstream : Prog Command Repo Str (Except Str Bytes) :=
  git.output .diffUpstream fun r =>
    match r.upstream, r.head with
    | some u, some h => .ok (unlines ((git.changedNames u.tree h.tree).map quote))
    | _, _ => .error "fatal: bad revision".toList

/-- `git ls-files`. -/
def lsFiles : Prog Command Repo Str (Except Str Bytes) :=
  git.output .lsFiles fun r => .ok (unlines (r.index.keys.map quote))

/-! ### Calls run alone -/

section Alone

variable {git} {α : Type} {cmd : Command} {r : Repo}

/-- A command that started printed its output, or failed. -/
theorem run_output_ok {f : Repo → Except Str α} {a : Except Str α} {r' : Repo}
    (h : (git.output cmd f).run r = (.ok a, r')) :
    r' = r ∧ ((∃ e, git.fault cmd r = some (.exit e) ∧ a = .error e) ∨
      git.fault cmd r = none ∧ a = f r) := by
  simp only [output, process, Prog.run_call, id_eq] at h
  split at h <;> cases h
  · next e he => exact ⟨rfl, Or.inl ⟨_, he, rfl⟩⟩
  · next he => exact ⟨rfl, Or.inr ⟨he, rfl⟩⟩

end Alone

/-! ### Calls beside other processes -/

section Beside

open Prog

variable {git} {α κ m : Type} {E : Env κ m Repo} {k k' : κ} {cmd : Command} {s t : Repo}
  {tr : List (Step (Command ⊕ m) Repo)} {a : α}

/-- A library call that answers reads the last state. -/
theorem exec_query_ok {f : Repo → Except Str α} (h : Exec E k (git.query cmd f) s tr (.ok a) k' t) :
    ∃ pre, tr = pre ++ [⟨.inl cmd, t, t⟩] ∧ Idle E s pre t ∧ f t = .ok a := by
  obtain ⟨pre, u, htr, hpre, hu⟩ := h.call_inv
  split at hu
  · cases hu
  · cases hu
  · obtain ⟨hf, rfl⟩ := Prod.mk.inj hu
    exact ⟨pre, htr, hpre, hf⟩

/-- A command that succeeds does what it is for. -/
theorem exec_process_ok {left : Repo → Repo} {f : Repo → Except Str α × Repo}
    (h : Exec E k (git.process cmd left f) s tr (.ok (.ok a)) k' t) :
    ∃ pre u, tr = pre ++ [⟨.inl cmd, u, t⟩] ∧ Idle E s pre u ∧ f u = (.ok a, t) := by
  obtain ⟨pre, u, htr, hpre, hu⟩ := h.call_inv
  split at hu
  · cases hu
  · cases hu
  · obtain ⟨hf, rfl⟩ := Prod.mk.inj hu
    exact ⟨pre, u, htr, hpre, Prod.ext (Except.ok.inj hf) rfl⟩

end Beside

end Git

end Bypass
