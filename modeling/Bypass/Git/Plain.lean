import Bypass.Git.Commands

/-!
# A git without faults

An instance of `Git`, to run the programs on small repositories: no command fails but for a reason
in the repository, new commits get the next free ids, and the packs in circulation are listed.
-/

namespace Bypass

/-! ## Ids -/

/-- The digits of a number, in base 16, from the one of weight `16 ^ n` down. -/
def hexDigits : ℕ → ℕ → Str
  | 0, _ => []
  | n + 1, k => Nat.digitChar (k / 16 ^ n % 16) :: hexDigits n k

theorem isHexLower_digitChar {d : ℕ} (h : d < 16) : isHexLower (Nat.digitChar d) = true := by
  revert d
  decide

theorem hexDigits_valid (n k : ℕ) :
    (hexDigits n k).length = n ∧ (hexDigits n k).all isHexLower = true := by
  induction n with
  | zero => exact ⟨rfl, rfl⟩
  | succ n ih =>
    have hd := isHexLower_digitChar (Nat.mod_lt (k / 16 ^ n) (by omega : 0 < 16))
    simp only [hexDigits, List.length_cons, List.all_cons, ih.1, ih.2, hd, Bool.and_self, and_self]

/-- The id of a number. -/
def Oid.ofNat (k : ℕ) : Oid := ⟨hexDigits 40 k, hexDigits_valid 40 k⟩

/-! ## Commits and trees -/

/-- A tree with the files of a list. -/
def treeOf (files : List (Str × Str)) : GitTree :=
  files.foldl (fun t f => t.insert (utf8Encode f.1) (utf8Encode f.2)) ∅

/-- A commit of a number, with the files of a list. -/
def commitOf (k : ℕ) (files : List (Str × Str)) (parents : List Commit) : Commit :=
  .node ⟨Oid.ofNat k, treeOf files⟩ parents

/-- A repository at a commit, with nothing under way and the files of the commit checked out. -/
def repoAt (head : Commit) (known : List Commit) (hids : (known.map Merkle.sha).Nodup)
    (hmem : head ∈ known) : Repo where
  odb := ⟨known, hids⟩
  head := some head
  head_mem c hc := by
    cases hc
    exact hmem
  upstream := none
  index := head.tree
  worktree := head.tree
  state := .clean
  orig_mem := by simp [RepositoryState.orig]

/-! ## Git -/

/-- The commits to replay: all that are missing, but for merges. -/
def plainTodo (onto head : Commit) : List Commit :=
  ((Merkle.range (some onto) head).filter fun c => c.parents.length ≤ 1).reverse

/-- Git without faults; `packs` are the packs in circulation, each with its commits. -/
def plainGit (packs : List (Bytes × List Commit)) : Git where
  fault _ _ := none
  broken _ r := r
  revName _ _ := none
  renamed _ _ _ := false
  listing _ _ := utf8Encode "tree\n".toList
  unpack bytes := (packs.find? fun p => p.1 = bytes).map Prod.snd
  pack cs := ((packs.find? fun p => p.2 = cs).map Prod.fst).getD []
  newSha r _ parents := Oid.ofNat (r.odb.commits.length + (parents.flatMap Merkle.history).length)
  todo := plainTodo
  todo_mem onto head c hc := by
    have hmem := List.mem_filter.1 (List.mem_reverse.1 hc)
    exact ⟨hmem.1, by simpa using hmem.2⟩
  conflict _ c := c.tree
  textMerge _ _ _ := none

end Bypass
