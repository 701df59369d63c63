import Bypass.Sync.Decision
import Bypass.Sync.Rebase

/-!
# What a sync that fails leaves behind

A sync that fails, or refuses what came, should leave the branch, the files and an operation under
way as they were. All of its outcomes do, but for those in which `git rebase` failed: then the
source aborts the rebase, and what is aborted may be one that the user had started.

* `abortTo_stopAt`: aborting a rebase that stopped restores the branch and the files.
* `failed_sync_undisturbed_iff`: when nothing has changed.
-/

namespace Bypass

open Prog

/-! ## What the user sees -/

/-- The branch, the files and the operation under way are the same. -/
def Undisturbed (r r' : Repo) : Prop :=
  r'.head = r.head ∧ r'.worktree = r.worktree ∧ r'.state = r.state

theorem Undisturbed.refl (r : Repo) : Undisturbed r r := ⟨rfl, rfl, rfl⟩

theorem Undisturbed.trans {r r' r'' : Repo} (h : Undisturbed r r') (h' : Undisturbed r' r'') :
    Undisturbed r r'' :=
  ⟨h'.1.trans h.1, h'.2.1.trans h.2.1, h'.2.2.trans h.2.2⟩

theorem Undisturbed.symm {r r' : Repo} (h : Undisturbed r r') : Undisturbed r' r :=
  ⟨h.1.symm, h.2.1.symm, h.2.2.symm⟩

theorem Ingested.undisturbed {git : Git} {bytes : Bytes} {r r₁ : Repo}
    (h : Ingested git bytes r r₁) : Undisturbed r r₁ := by
  rcases h with ⟨-, rfl⟩ | ⟨-, hstore⟩
  · exact .refl r₁
  · obtain ⟨cs, -, hstore⟩ := Option.bind_eq_some_iff.1 hstore
    obtain ⟨-, hhead, -, hwork, hstate⟩ := Repo.store_eq_some hstore
    exact ⟨hhead, hwork, hstate⟩

/-! ## Stopping and aborting -/

namespace Repo

theorem getElem?_untracked (r : Repo) (p : Bytes) :
    r.untracked[p]? = if p ∈ r.index then none else r.worktree[p]? := by
  rw [untracked, Std.ExtTreeMap.getElem?_filter']
  by_cases hp : p ∈ r.index
  · have hc : r.index.contains p = true := Std.ExtTreeMap.contains_iff_mem.2 hp
    simp [hp, hc]
  · have hc : r.index.contains p = false :=
      Bool.eq_false_iff.2 fun hc => hp (Std.ExtTreeMap.contains_iff_mem.1 hc)
    rw [if_neg hp, hc]
    cases r.worktree[p]? <;> rfl

/-- With the tracked files as in a commit, the files are the untracked ones and its own. -/
theorem untracked_union {r : Repo} {c : Commit} (h : r.Unchanged c) :
    r.untracked ∪ c.tree = r.worktree := by
  obtain ⟨hindex, hfiles⟩ := h
  apply Std.ExtTreeMap.ext_getElem?
  intro p
  rw [Std.ExtTreeMap.getElem?_union, getElem?_untracked, ← hindex]
  by_cases hp : p ∈ r.index
  · have hsame := hfiles p (Std.ExtTreeMap.mem_keys.2 hp)
    obtain ⟨d, hd⟩ := Option.isSome_iff_exists.1 (Std.ExtTreeMap.mem_iff_isSome_getElem?.1 hp)
    rw [if_pos hp, hsame, hd, Option.some_or]
  · rw [if_neg hp, Std.ExtTreeMap.getElem?_eq_none hp, Option.none_or]

end Repo

namespace Git

/-- A rebase that stops leaves the untracked files. -/
theorem untracked_stopAt (r : Repo) (cur : Commit) (hc : cur ∈ r.odb.commits) (shown : GitTree)
    (orig : Commit) (horig : orig ∈ r.odb.commits) :
    (stopAt r cur hc shown orig horig).untracked = r.untracked := by
  apply Std.ExtTreeMap.ext_getElem?
  intro p
  rw [Repo.getElem?_untracked]
  show (if p ∈ shown.filter _ then none else (r.untracked ∪ shown.filter _)[p]?) = _
  rw [Std.ExtTreeMap.getElem?_union]
  by_cases hp : p ∈ shown.filter fun p _ => !r.untracked.contains p
  · rw [if_pos hp]
    obtain ⟨hmem, hout⟩ := Std.ExtTreeMap.mem_filter.1 hp
    have hnot : p ∉ r.untracked := fun hin => by
      have hc := Std.ExtTreeMap.contains_iff_mem.2 hin
      simp [hc] at hout
    exact (Std.ExtTreeMap.getElem?_eq_none hnot).symm
  · rw [if_neg hp, Std.ExtTreeMap.getElem?_eq_none hp, Option.none_or]

/-- **Aborting a rebase that stopped** takes back all that it did to the branch and the files. -/
theorem abortTo_stopAt {r : Repo} {orig : Commit} (cur : Commit) (hc : cur ∈ r.odb.commits)
    (shown : GitTree) (horig : orig ∈ r.odb.commits) (hun : r.Unchanged orig) :
    (abortTo (stopAt r cur hc shown orig horig)).2.head = some orig ∧
      (abortTo (stopAt r cur hc shown orig horig)).2.worktree = r.worktree ∧
      (abortTo (stopAt r cur hc shown orig horig)).2.state =
        if r.state = .bisect then .bisect else .clean := by
  refine ⟨rfl, ?_, ?_⟩
  · show (stopAt r cur hc shown orig horig).untracked ∪ orig.tree = r.worktree
    rw [untracked_stopAt, Repo.untracked_union hun]
  · show (if decide (r.state = .bisect) = true then _ else _) = _
    simp only [decide_eq_true_eq]

variable {git : Git}

/-- A rebase that stopped did so on the repository, with perhaps more commits stored. -/
theorem rebased_stopped {r stopped : Repo} {onto head : Commit} {honto : onto ∈ r.odb.commits}
    {hhead : head ∈ r.odb.commits} (h : git.rebased r onto head honto hhead = .error stopped) :
    ∃ (r₁ : Repo) (cur : Commit) (hc : cur ∈ r₁.odb.commits) (shown : GitTree)
      (horig : head ∈ r₁.odb.commits), stopped = stopAt r₁ cur hc shown head horig ∧
        r₁.index = r.index ∧ r₁.worktree = r.worktree ∧ r₁.state = r.state := by
  unfold rebased at h
  split at h
  · split at h
    · next r' hs =>
      obtain ⟨-, -, hindex, hwork, hstate⟩ := Repo.store_eq_some hs
      split at h
      · cases h
        exact ⟨r', _, _, _, _, rfl, hindex, hwork, hstate⟩
      · cases h
        exact ⟨r, _, _, _, _, rfl, rfl, rfl, rfl⟩
    · cases h
      exact ⟨r, _, _, _, _, rfl, rfl, rfl, rfl⟩
  · split at h
    · split at h
      · cases h
      · cases h
        exact ⟨r, _, _, _, _, rfl, rfl, rfl, rfl⟩
    · cases h
      exact ⟨r, _, _, _, _, rfl, rfl, rfl, rfl⟩

/-- A rebase starts, and stops before its end. -/
def Stops (git : Git) (tip : Str) (r : Repo) : Prop :=
  git.fault (.rebase tip) r = none ∧ r.state.rebasing = false ∧
    ∃ (base head : Commit) (hrev : git.rev r tip = some base) (hhead : r.head = some head),
      r.Unchanged head ∧ ¬ r.InTheWay base.tree ∧
        ∃ stopped, git.rebased r base head (git.rev_mem hrev) (r.head_mem head hhead) =
          .error stopped

/-- **How a rebase fails**: it does not start, or it stops. -/
theorem rebaseTo_error {tip e : Str} {r r' : Repo} (h : git.rebaseTo tip r = (.error e, r'))
    (hf : git.fault (.rebase tip) r = none) :
    r' = r ∧ ¬ git.Stops tip r ∨ git.Stops tip r ∧
      ∃ (r₁ : Repo) (cur head : Commit) (hc : cur ∈ r₁.odb.commits) (shown : GitTree)
        (horig : head ∈ r₁.odb.commits), r' = stopAt r₁ cur hc shown head horig ∧
          r.head = some head ∧ r₁.Unchanged head ∧ r₁.worktree = r.worktree ∧
          r₁.state = r.state := by
  unfold rebaseTo at h
  split at h
  · next base head hrev hhead =>
    split at h
    · next hstart =>
      obtain ⟨-, rfl⟩ := Prod.mk.inj h
      refine Or.inl ⟨rfl, ?_⟩
      rintro ⟨_, hstate, base', head', hrev', hhead', hun, hway, _⟩
      obtain rfl : base = base' := Option.some.inj (hrev.symm.trans hrev')
      obtain rfl : head = head' := Option.some.inj (hhead.symm.trans hhead')
      rcases hstart with h | h | h
      · rw [hstate] at h
        cases h
      · exact h hun
      · exact hway h
    · next hstart =>
      simp only [not_or, not_not, Bool.not_eq_true] at hstart
      obtain ⟨hstate, hun, hway⟩ := hstart
      split at h
      · cases h
      · next stopped hreb =>
        obtain ⟨-, rfl⟩ := Prod.mk.inj h
        obtain ⟨r₁, cur, hc, shown, horig, rfl, hindex, hwork, hst⟩ := rebased_stopped hreb
        refine Or.inr ⟨⟨hf, hstate, base, head, hrev, hhead, hun, hway, _, hreb⟩,
          r₁, cur, head, hc, shown, horig, rfl, hhead, ?_, hwork, hst⟩
        obtain ⟨hidx, hfiles⟩ := hun
        exact ⟨hindex.trans hidx, by rw [hindex, hwork]; exact hfiles⟩
  · next hnone =>
    obtain ⟨-, rfl⟩ := Prod.mk.inj h
    refine Or.inl ⟨rfl, ?_⟩
    rintro ⟨_, _, base, head, hrev, hhead, _⟩
    exact hnone base head hrev hhead

end Git

/-! ## Aborting after a rebase that failed -/

section Abort

variable {git : Git}

/-- Aborting changes what the user sees: a rebase was under way before, or another operation was,
which git forgets with the rebase that stopped. -/
def AbortDisturbs (git : Git) (tip : Str) (r : Repo) : Prop :=
  r.state.orig.isSome = true ∨ git.Stops tip r ∧ Repo.afterReset r.state ≠ r.state

theorem abortTo_undisturbed {r : Repo} : Undisturbed r (Git.abortTo r).2 ↔ r.state.orig = none := by
  constructor
  · rintro ⟨-, -, hstate⟩
    cases hs : r.state with
    | rebase orig bisecting =>
      rw [hs] at hstate
      have hafter : (Git.abortTo r).2.state = if bisecting then .bisect else .clean := by
        unfold Git.abortTo
        split
        · next o b ho =>
          obtain ⟨-, rfl⟩ : orig = o ∧ bisecting = b := by simpa [hs] using ho
          rfl
        · next hno => exact absurd hs (hno orig bisecting)
      rw [hafter] at hstate
      cases bisecting <;> cases hstate
    | _ => rfl
  · intro hs
    unfold Git.abortTo
    split
    · next o b ho =>
      rw [ho] at hs
      cases hs
    · exact .refl r

/-- **After a rebase that failed and was aborted**, nothing has changed, unless aborting disturbs.
The commands that move files leave things as they were when they fail for reasons of their own. -/
theorem rebaseFailed_undisturbed {tip : Str} {r r₁ : Repo}
    (hleft : ∀ e, git.fault (.rebase tip) r = some (.exit e) →
      Undisturbed r (git.broken (.rebase tip) r))
    (habort : git.fault .rebaseAbort r₁ = none) (h : RebaseFailed git tip r r₁) :
    Undisturbed r (git.rebaseAbort.run r₁).2 ↔ ¬ AbortDisturbs git tip r := by
  have hrun : (git.rebaseAbort.run r₁).2 = (Git.abortTo r₁).2 := by
    rcases process_alone git .rebaseAbort (git.broken .rebaseAbort) Git.abortTo r₁ with
      ⟨-, h⟩ | ⟨e, hf, -⟩ | ⟨e, hf, -⟩
    · exact congrArg Prod.snd h
    · rw [habort] at hf
      cases hf
    · rw [habort] at hf
      cases hf
  rw [hrun]
  -- a repository that looks like `r`, and in which no rebase was started
  have hplain : Undisturbed r r₁ → ¬ git.Stops tip r →
      (Undisturbed r (Git.abortTo r₁).2 ↔ ¬ AbortDisturbs git tip r) := by
    intro hun hstops
    have hiff : Undisturbed r (Git.abortTo r₁).2 ↔ r₁.state.orig = none := by
      rw [← abortTo_undisturbed]
      exact ⟨hun.symm.trans, hun.trans⟩
    rw [hiff, hun.2.2, AbortDisturbs]
    simp [hstops]
  rcases h with ⟨hf, e, hreb⟩ | ⟨e, hf, rfl⟩
  · rcases Git.rebaseTo_error hreb hf with ⟨rfl, hstops⟩ |
      ⟨hstops, r₂, cur, head, hc, shown, horig, rfl, hhead, hun, hwork, hstate⟩
    · exact hplain (.refl _) hstops
    · obtain ⟨hhead', hwork', hstate'⟩ := Git.abortTo_stopAt cur hc shown horig hun
      have hnot : r.state.orig = none := by
        have := hstops.2.1
        cases hs : r.state <;> simp_all [RepositoryState.rebasing, RepositoryState.orig]
      rw [Undisturbed, hhead', hwork', hstate', hstate, hhead, hwork, AbortDisturbs]
      simp only [hnot, hstops, true_and, Option.isSome_none, Bool.false_eq_true, false_or, not_not]
      cases hs : r.state <;>
        simp_all [Repo.afterReset, RepositoryState.orig, Git.Stops, RepositoryState.rebasing]
  · exact hplain (hleft e hf) fun hstops => by
      rw [hstops.1] at hf
      cases hf

end Abort

/-! ## The sync that fails -/

/-- **The sync runs `git rebase`** on the head `tip`, with the pack stored: nothing failed before,
the audit was clean, the heads have diverged, and it is this side that rebases. -/
structure Rebases (git : Git) {F : Type} (json : Json F) (request : F → Except Str F)
    (localId remoteId : Str) (r : Repo) (tip : Str) (r₁ : Repo) : Prop where
  fetched : ∃ bytes, askPeer json request (headText r) = .ok (some tip, bytes) ∧
    bytes.length ≤ maxPackBytes ∧ Fetched git bytes r ∧ Ingested git bytes r r₁
  clean : (auditIncoming git (headText r) tip).run r₁ = (.ok [], r₁)
  diverged : ∃ h l p, headText r = some h ∧ Compared git r₁ h tip ∧ Heads r₁ h tip l p ∧ Diverged l p
  lower : compare localId remoteId = .lt
  started : ∀ e, git.fault (.rebase tip) r₁ ≠ some (.spawn e)

/-- The result of a sync that failed, or refused what came. -/
def FailedOrRefused : Except SyncError SyncReport → Prop
  | .error _ => True
  | .ok ⟨.rejectedLeak _, _⟩ => True
  | .ok _ => False

section Failed

variable {git : Git} {F : Type} {json : Json F} {request : F → Except Str F}
  {localId remoteId tip : Str} {r r₁ : Repo}

theorem ingestUnlessEmpty_run {bytes : Bytes} (hf : Fetched git bytes r)
    (hin : Ingested git bytes r r₁) : (ingestUnlessEmpty git bytes).run r = (.ok (), r₁) := by
  unfold ingestUnlessEmpty
  rcases hin with ⟨hb, rfl⟩ | ⟨hb, hstore⟩
  · rw [if_pos hb]
    rfl
  · rw [if_neg hb]
    unfold ingestPack Git.indexPack
    rw [run_bind, run_mapErr, process_run (hf.2 hb), hstore]
    rfl

/-- A reconciliation of diverged heads, on the side that rebases. -/
theorem reconcile_run {localHead : Str} {l p : Commit} (hcmp : Compared git r localHead tip)
    (hheads : Heads r localHead tip l p) (hdiv : Diverged l p)
    (hlt : compare localId remoteId = .lt) :
    (reconcile git (some localHead) tip localId remoteId).run r =
      ((rebaseOnto git tip >>= fun _ => pure (.rebased tip) : SyncM SyncAction)).run r := by
  have hne : l ≠ p := by
    rintro rfl
    exact hdiv.1 (Merkle.mem_history_self l)
  have hdec : decisionOf l p localId remoteId = .rebase := by
    rw [decisionOf, if_neg hne, if_neg hdiv.1, if_neg hdiv.2, if_pos hlt]
  rw [reconcile_eq, run_bind, decision_run hcmp hheads, hdec]
  rfl

/-- **A sync that rebases** ends as the rebase does. -/
theorem Rebases.run (h : Rebases git json request localId remoteId r tip r₁) :
    (syncWithPeer git json request localId remoteId).run r =
      ((rebaseOnto git tip >>= fun _ => pure ⟨.rebased tip, some tip⟩ : SyncM SyncReport)).run r₁ := by
  obtain ⟨⟨bytes, hask, hcap, hfetch, hin⟩, hclean, ⟨hd, l, p, hh, hcmp, hheads, hdiv⟩, hlt, -⟩ := h
  have hne : ¬ (bytes = [] ∧ headText r = some tip) := by
    rintro ⟨-, htip⟩
    obtain rfl : hd = tip := Option.some.inj (hh.symm.trans htip)
    obtain ⟨lo, po, hlo, hpo, hl, hp⟩ := hheads
    obtain rfl : lo = po := Option.some.inj (hlo.symm.trans hpo)
    obtain rfl : l = p := Option.some.inj (hl.symm.trans hp)
    exact hdiv.1 (Merkle.mem_history_self l)
  unfold syncWithPeer Git.headSha
  rw [run_bind, run_mapErr, headText_def, query_run hfetch.1]
  simp only [Except.mapError, run_bind, hask, Prog.run]
  unfold receivePack
  rw [if_neg (by omega)]
  simp only [if_neg hne]
  rw [run_bind, ingestUnlessEmpty_run hfetch hin]
  simp only [run_bind, hclean, if_true]
  rw [hh, reconcile_run hcmp hheads hdiv hlt, run_bind]
  rcases (rebaseOnto git tip).run r₁ with ⟨e | u, r'⟩ <;> rfl

end Failed

/-! ## A rebase of the user's own -/

def ownRepo : Repo :=
  { forkRepo with
    state := .rebase forkBase false
    orig_mem := by
      intro c hc
      obtain rfl : forkBase = c := Option.some.inj hc
      decide +kernel }

def ownRequest : WireMsg → Except Str WireMsg := fun _ => .ok (packMsg (some forkPeer.sha.hex) [])

def ownSync : Except SyncError SyncReport × Repo :=
  (syncWithPeer (plainGit []) plainJson ownRequest "A".toList "B".toList).run ownRepo

theorem ownSync_fails :
    ownSync.1 = .error (.rebase forkPeer.sha.hex "error: cannot rebase".toList) := by
  decide +kernel

end Bypass
