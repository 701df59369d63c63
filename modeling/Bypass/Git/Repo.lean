import Bypass.Foundations.Merkle
import Bypass.Core.Path

/-!
# Repositories

A git repository as the store's code sees it: an object database of commits, a branch tip, an
index, a working tree, and an operation that may be under way. A commit is a node of a history
whose payload is its object id and its tree; so a commit determines its ancestors, as a hash does.
No two commits of a repository have one id, and its tip is one of them, as is the commit that a
rebase under way started from: these are fields of `Repo`.
-/

namespace Bypass

/-! ## Object ids -/

/-- A hexadecimal digit, as git prints it. -/
def isHexLower (c : Char) : Bool := c.isDigit || ('a' ≤ c && c ≤ 'f')

/-- An object id, as its 40 digits. -/
structure Oid where
  hex : Str
  valid : hex.length = 40 ∧ hex.all isHexLower = true

namespace Oid

theorem hex_injective : Function.Injective hex := fun a b h => by
  cases a
  cases b
  cases h
  rfl

instance : DecidableEq Oid := fun a b => decidable_of_iff (a.hex = b.hex) hex_injective.eq_iff

/-- The digits that `Oid::from_str` reads: in either case, and padded with zeros on the right. -/
def readHex (s : Str) : Str := s.map Char.toLower ++ List.replicate (40 - s.length) '0'

/-- `Oid::from_str`: at most 40 hexadecimal digits, at least one. -/
def fromStr (s : Str) : Option Oid :=
  if h : s ≠ [] ∧ s.length ≤ 40 ∧ (readHex s).all isHexLower = true then
    some ⟨readHex s, by simp only [readHex, List.length_append, List.length_map,
      List.length_replicate]; omega, h.2.2⟩
  else none

theorem toLower_of_isHexLower {c : Char} (h : isHexLower c = true) : c.toLower = c := by
  refine Char.toLower_eq_of_not_isUpper ?_
  simp only [isHexLower, Char.isDigit, Char.isUpper, Bool.or_eq_true, Bool.and_eq_true,
    decide_eq_true_eq, Char.le_def] at h ⊢
  grind

/-- **An object id reads back from its digits.** -/
theorem fromStr_hex (o : Oid) : fromStr o.hex = some o := by
  have hmap : o.hex.map Char.toLower = o.hex := by
    have hall := List.all_eq_true.1 o.valid.2
    calc o.hex.map Char.toLower = o.hex.map id :=
          List.map_congr_left fun c hc => toLower_of_isHexLower (hall c hc)
      _ = o.hex := List.map_id _
  have hread : readHex o.hex = o.hex := by
    rw [readHex, hmap, o.valid.1]
    simp
  have hne : o.hex ≠ [] := fun h => by simpa [h] using o.valid.1
  rw [fromStr, dif_pos ⟨hne, o.valid.1.le, by rw [hread]; exact o.valid.2⟩]
  exact congrArg some (hex_injective hread)

end Oid

/-! ## Commits -/

/-- A tree with its subtrees, flat: the content of each file, by its path. -/
abbrev GitTree := Std.ExtTreeMap Bytes Bytes compare

/-- What the object of a commit holds, besides its parents. -/
structure CommitData where
  sha : Oid
  tree : GitTree
  deriving DecidableEq

/-- A commit with all its ancestors. -/
abbrev Commit := Merkle CommitData

instance lawfulBEq_commit : LawfulBEq Commit := inferInstance

namespace Merkle

def sha (c : Commit) : Oid := c.payload.sha

def tree (c : Commit) : GitTree := c.payload.tree

@[simp] theorem sha_node (x : CommitData) (ps : List Commit) : sha (node x ps) = x.sha := rfl

@[simp] theorem tree_node (x : CommitData) (ps : List Commit) : tree (node x ps) = x.tree := rfl

end Merkle

/-! ## Object databases -/

/-- An object database: its commits, no two of one id. -/
structure Odb where
  commits : List Commit
  ids : (commits.map Merkle.sha).Nodup

namespace Odb

/-- The commit of an id. -/
def lookup (odb : Odb) (o : Oid) : Option Commit := odb.commits.find? fun c => c.sha = o

theorem mem_of_lookup {odb : Odb} {o : Oid} {c : Commit} (h : odb.lookup o = some c) :
    c ∈ odb.commits ∧ c.sha = o :=
  ⟨List.mem_of_find?_eq_some h, by simpa using List.find?_some h⟩

theorem lookup_eq_some {odb : Odb} {o : Oid} {c : Commit} :
    odb.lookup o = some c ↔ c ∈ odb.commits ∧ c.sha = o := by
  constructor
  · exact mem_of_lookup
  · rintro ⟨hc, rfl⟩
    obtain ⟨d, hd⟩ : ∃ d, odb.lookup c.sha = some d := by
      rw [← Option.isSome_iff_exists, lookup, List.find?_isSome]
      exact ⟨c, hc, by simp⟩
    obtain ⟨hmem, hsha⟩ := mem_of_lookup hd
    rw [hd, List.inj_on_of_nodup_map odb.ids hmem hc hsha]

/-- Store a commit; `none` when another one has its id. -/
def add (odb : Odb) (c : Commit) : Option Odb :=
  if c ∈ odb.commits then some odb
  else if h : c.sha ∈ odb.commits.map Merkle.sha then none
  else some ⟨c :: odb.commits, by
    rw [List.map_cons, List.nodup_cons]
    exact ⟨h, odb.ids⟩⟩

theorem mem_add {odb odb' : Odb} {c d : Commit} (h : odb.add c = some odb') :
    d ∈ odb'.commits ↔ d = c ∨ d ∈ odb.commits := by
  rw [add] at h
  split_ifs at h with h₁ h₂
  · cases h
    simp only [iff_or_self]
    rintro rfl
    exact h₁
  · cases h
    exact List.mem_cons

/-- Store the commits of a list. -/
def addAll (odb : Odb) : List Commit → Option Odb
  | [] => some odb
  | c :: cs => (odb.add c).bind fun odb' => odb'.addAll cs

theorem mem_addAll {odb odb' : Odb} {cs : List Commit} {d : Commit}
    (h : odb.addAll cs = some odb') : d ∈ odb'.commits ↔ d ∈ cs ∨ d ∈ odb.commits := by
  induction cs generalizing odb with
  | nil =>
    cases h
    simp
  | cons c cs ih =>
    obtain ⟨odb₁, h₁, h₂⟩ := Option.bind_eq_some_iff.1 h
    rw [ih h₂, mem_add h₁, List.mem_cons]
    tauto

end Odb

/-! ## Repositories -/

/-- `git2::RepositoryState`, as the source tells its values apart. A rebase under way remembers the
commit it started from, and whether it started during a bisection. -/
inductive RepositoryState where
  | clean
  | merge
  | revert
  | cherryPick
  | bisect
  | rebase (orig : Commit) (bisecting : Bool)
  | am
  deriving DecidableEq

/-- The commit that a rebase under way started from. -/
def RepositoryState.orig : RepositoryState → Option Commit
  | .rebase orig _ => some orig
  | _ => none

/-- `git rebase` refuses to start. -/
def RepositoryState.rebasing : RepositoryState → Bool
  | .rebase _ _ => true
  | .am => true
  | _ => false

/-- A repository with a working tree. `upstream` is the commit of `@{upstream}`, if it is set. -/
structure Repo where
  odb : Odb
  head : Option Commit
  head_mem : ∀ c ∈ head, c ∈ odb.commits
  upstream : Option Commit
  index : GitTree
  worktree : GitTree
  state : RepositoryState
  orig_mem : ∀ c ∈ state.orig, c ∈ odb.commits

/-- The commits reachable from a branch tip. -/
def reachable (head : Option Commit) : List Commit := head.elim [] Merkle.history

@[simp] theorem reachable_none : reachable none = [] := rfl

@[simp] theorem reachable_some (c : Commit) : reachable (some c) = c.history := rfl

end Bypass
