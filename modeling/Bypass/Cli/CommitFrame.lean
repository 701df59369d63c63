import Bypass.Cli.Checkout

/-!
# What a commit changes in `HEAD`

`Git2Vcs::commit` is asked for a commit of the paths it is given. It stages these, and then commits
the whole index: with them goes whatever was staged before.

* `commitFn_error`: a commit that fails moves no branch.
* `stage_listed`: the paths given are staged as they are on disk.
* `commit_touches_only_iff`: **when a commit changes its paths alone**.
-/

namespace Bypass

/-! ## A commit and its paths -/

/-- A commit that fails leaves `HEAD` where it was. -/
theorem commitFn_error {git : Git} {paths : List RelPath} {message : Str} {r r' : Repo}
    {e : Git2Error} (h : Git2Vcs.commitFn git paths message r = (.error e, r')) :
    r'.head = r.head := by
  unfold Git2Vcs.commitFn at h
  split at h
  · cases h
  split at h
  · rw [← (Prod.mk.inj h).2]
  split at h
  · rw [← (Prod.mk.inj h).2]
  · rw [← (Prod.mk.inj h).2]
  split at h
  · rw [← (Prod.mk.inj h).2]
  unfold Git2Vcs.commitIndex at h
  split at h
  · cases h
  split at h
  · rw [← (Prod.mk.inj h).2]
  split at h
  · cases h
  · rw [← (Prod.mk.inj h).2]

/-- **The paths given are staged as they are on disk**, where none of them is a directory. -/
theorem stage_listed {worktree index : GitTree} {paths : List RelPath}
    (hdir : ∀ p ∈ paths, ¬ IsDirectory worktree p) {p : RelPath} (hp : p ∈ paths) :
    (stage worktree paths index)[p.bytes]? = worktree[p.bytes]? := by
  have hkey {q : RelPath} (hq : (worktree[q.bytes]?).isSome) : q.bytes ∈ worktree.keys := by
    rwa [Std.ExtTreeMap.mem_keys, ← Std.ExtTreeMap.contains_iff_mem,
      Std.ExtTreeMap.contains_eq_isSome_getElem?]
  apply stage_agrees (Or.inl ⟨p, hp, rfl⟩)
  intro q hq hqdisk hpdisk hcollides
  rcases hcollides with hbelow | habove
  · exact hdir q hq ⟨p.bytes, hkey hpdisk, hbelow⟩
  · exact hdir p hp ⟨q.bytes, hkey hqdisk, habove⟩

/-! ## The frame -/

/-- What is asked of a commit of `paths` that leads from `r` to `r'`. If `HEAD` has them as they are
on disk, it stays. Else there is one commit more, on `HEAD`, which differs from it at `paths` alone:
there it is what is on disk. -/
def TouchesOnly (paths : List RelPath) (r r' : Repo) : Prop :=
  if ∀ p ∈ paths, (headTree r)[p.bytes]? = r.worktree[p.bytes]? then r'.head = r.head
  else ∃ c, r'.head = some c ∧ c.parents = r.head.toList ∧
    (∀ d, d ∈ r'.odb.commits ↔ d = c ∨ d ∈ r.odb.commits) ∧
    ∀ b, c.tree[b]? = if ∃ p ∈ paths, p.bytes = b then r.worktree[b]? else (headTree r)[b]?

/-- Beside the paths that are given, the index has what `HEAD` has, once the entries are gone that
one of these paths replaces on disk. -/
def IndexAtHead (paths : List RelPath) (r : Repo) : Prop :=
  ∀ b, (∀ p ∈ paths, p.bytes ≠ b) →
    (if ∃ p ∈ paths, (r.worktree[p.bytes]?).isSome ∧ Collides p.bytes b then none
      else r.index[b]?) = (headTree r)[b]?

theorem headTree_of_some {r : Repo} {tree : GitTree} (h : r.head.map Merkle.tree = some tree) :
    headTree r = tree := by
  rw [headTree, h, Option.getD_some]

theorem headTree_of_none {r : Repo} (h : r.head = none) : headTree r = ∅ := by
  rw [headTree, h]
  rfl

/-- **When a commit changes its paths alone**: if nothing else was staged before, and not if it is
the first commit and there is nothing of its paths on disk. -/
theorem commit_touches_only_iff {git : Git} {paths : List RelPath} {message : Str} {r r' : Repo}
    (hrun : Git2Vcs.commitFn git paths message r = (.ok (), r')) :
    TouchesOnly paths r r' ↔ paths = [] ∨ IndexAtHead paths r ∧
      (r.head.isSome ∨ ∃ p ∈ paths, (r.worktree[p.bytes]?).isSome) := by
  by_cases hpaths : paths = []
  · subst hpaths
    obtain ⟨-, rfl⟩ := Prod.mk.inj hrun
    exact iff_of_true (by rw [TouchesOnly, if_pos (by simp)]) (Or.inl rfl)
  rw [or_iff_right hpaths]
  obtain ⟨hdir, -, -, hcases⟩ := commitFn_done hpaths hrun
  have hlisted : ∀ p ∈ paths, (stage r.worktree paths r.index)[p.bytes]? = r.worktree[p.bytes]? :=
    fun p hp => stage_listed hdir hp
  have hatHead : IndexAtHead paths r ↔ ∀ b, (∀ p ∈ paths, p.bytes ≠ b) →
      (stage r.worktree paths r.index)[b]? = (headTree r)[b]? :=
    forall_congr' fun b => imp_congr_right fun hb => by rw [stage_other hb]
  rcases hcases with ⟨hhead, hsame⟩ | ⟨hhead, c, hc, htree, hparents, hcommits⟩
  · -- the staged tree is that of `HEAD`
    have hstaged := headTree_of_some hhead
    refine iff_of_true ?_ ⟨hatHead.2 fun b _ => by rw [hstaged], Or.inl ?_⟩
    · rw [TouchesOnly, if_pos fun p hp => by rw [hstaged, hlisted p hp]]
      exact hsame
    · obtain ⟨d, hd, -⟩ := Option.map_eq_some_iff.1 hhead
      rw [hd]
      rfl
  · constructor
    · intro htouches
      rw [TouchesOnly] at htouches
      split_ifs at htouches with hclean
      · rw [← htouches, hc] at hhead
        exact absurd (congrArg some htree) hhead
      · obtain ⟨d, hd, -, -, hframe⟩ := htouches
        obtain rfl := Option.some.inj (hc.symm.trans hd)
        refine ⟨hatHead.2 fun b hb => ?_, ?_⟩
        · rw [← htree, hframe b, if_neg]
          rintro ⟨p, hp, hpb⟩
          exact hb p hp hpb
        · rw [or_iff_not_imp_left, Option.not_isSome_iff_eq_none]
          intro hnone
          push Not at hclean
          obtain ⟨p, hp, hne⟩ := hclean
          rw [headTree_of_none hnone, Std.ExtTreeMap.getElem?_empty] at hne
          exact ⟨p, hp, Option.isSome_iff_ne_none.2 hne.symm⟩
    · rintro ⟨hindex, hborn⟩
      rw [TouchesOnly, if_neg]
      · refine ⟨c, hc, hparents, hcommits, fun b => ?_⟩
        rw [htree]
        split_ifs with hb
        · obtain ⟨p, hp, rfl⟩ := hb
          exact hlisted p hp
        · push Not at hb
          exact hatHead.1 hindex b hb
      · -- had nothing changed, the staged tree would be that of `HEAD`
        intro hclean
        have hstaged : stage r.worktree paths r.index = headTree r := by
          apply Std.ExtTreeMap.ext_getElem?
          intro b
          by_cases hb : ∀ p ∈ paths, p.bytes ≠ b
          · exact hatHead.1 hindex b hb
          · push Not at hb
            obtain ⟨p, hp, rfl⟩ := hb
            rw [hlisted p hp, hclean p hp]
        cases hnone : r.head with
        | some d =>
          apply hhead
          rw [hstaged, headTree, hnone]
          rfl
        | none =>
          obtain ⟨p, hp, hdisk⟩ := hborn.resolve_left (by simp [hnone])
          rw [← hclean p hp, headTree_of_none hnone, Std.ExtTreeMap.getElem?_empty] at hdisk
          cases hdisk

/-! ## What was staged before -/

/-- An entry on disk, not yet committed. -/
def newEntry : RelPath := ⟨"a.gpg".toList, validate_a_gpg⟩

/-- A new repository with a new entry. -/
def entryRepo : Repo := Repo.fresh ((∅ : GitTree).insert newEntry.bytes [0x85])

/-- The user has staged a file of his own, `b`. -/
def notesRepo : Repo := { entryRepo with index := (∅ : GitTree).insert [0x62] [0x2A] }

theorem entryRepo_commits :
    ((Git2Vcs.commitFn (plainGit []) [newEntry] [] entryRepo).1,
      (Git2Vcs.commitFn (plainGit []) [newEntry] [] notesRepo).1,
      (Git2Vcs.commitFn (plainGit []) [newEntry] [] notesRepo).2.head.map fun c =>
        c.tree[([0x62] : Bytes)]?) = (.ok (), .ok (), some (some [0x2A])) := by
  decide +kernel

theorem newEntry_missing :
    (headTree notesRepo)[newEntry.bytes]? ≠ notesRepo.worktree[newEntry.bytes]? := by
  decide +kernel

/-- What the user has staged goes with the entry. -/
theorem staged_file_committed :
    ∃ r', Git2Vcs.commitFn (plainGit []) [newEntry] [] notesRepo = (.ok (), r') ∧
      notesRepo.state = .clean ∧ ¬ TouchesOnly [newEntry] notesRepo r' := by
  obtain ⟨-, hrest⟩ := Prod.mk.inj entryRepo_commits
  obtain ⟨hok, hnotes⟩ := Prod.mk.inj hrest
  refine ⟨_, Prod.ext hok rfl, rfl, fun htouches => ?_⟩
  rw [TouchesOnly, if_neg fun hclean => newEntry_missing (hclean newEntry List.mem_cons_self)]
    at htouches
  obtain ⟨c, hc, -, -, hframe⟩ := htouches
  rw [hc, Option.map_some, Option.some_inj, hframe, if_neg (by decide)] at hnotes
  cases hnotes

theorem entry_committed_alone :
    ∃ r', Git2Vcs.commitFn (plainGit []) [newEntry] [] entryRepo = (.ok (), r') ∧
      (TouchesOnly [newEntry] entryRepo r' ↔ [newEntry] = [] ∨ IndexAtHead [newEntry] entryRepo ∧
        (entryRepo.head.isSome ∨ ∃ p ∈ [newEntry], (entryRepo.worktree[p.bytes]?).isSome)) :=
  ⟨_, Prod.ext (Prod.mk.inj entryRepo_commits).1 rfl, commit_touches_only_iff
    (Prod.ext (Prod.mk.inj entryRepo_commits).1 rfl)⟩

end Bypass
