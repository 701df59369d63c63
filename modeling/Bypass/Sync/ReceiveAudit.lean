import Bypass.Git.Plain
import Bypass.Sync.Rebase

/-!
# The audit on receive

Before it moves the branch, a sync audits what came: it takes the names that `git log` lists for
the new commits, and checks the content of each in the peer's last commit. What a later commit
deleted or replaced, what only a merge brought, and what git prints in quotes is not looked at.

* `auditIncoming_ok`: what a clean audit has looked at, and found good.
* `receive_audit_complete_iff`: a sync that moves the branch brings only files that pass exactly
  when those pass that its audit did not look at.
-/

namespace Bypass

open Prog

variable {git : Git}

/-! ## What the audit looks at -/

/-- **The audit looks at a version of a file**: `git log` lists the name for a new commit, as it
is, and `git show` prints this version for the peer's head. -/
def AuditedIncoming (git : Git) (r : Repo) (since : Option Commit) (peer : Commit)
    (localHead : Option Str) (tip : Str) (path content : Bytes) : Prop :=
  git.fault (.log localHead tip) r = none ∧
    (∃ c ∈ Merkle.range since peer, path ∈ git.commitNames c) ∧ path ≠ [] ∧ Plain path ∧
    git.fault (.show_ tip path) r = none ∧ git.showOf tip path r = .ok content

theorem mem_destutter {α : Type} [DecidableEq α] {l : List α} {a : α} :
    a ∈ l.destutter (· ≠ ·) ↔ a ∈ l := by
  have haux : ∀ (l : List α) (b : α), a ∈ l.destutter' (· ≠ ·) b ↔ a = b ∨ a ∈ l := by
    intro l
    induction l with
    | nil => simp
    | cons c l ih =>
      intro b
      by_cases hbc : b ≠ c
      · rw [List.destutter'_cons_pos _ hbc, List.mem_cons, ih, List.mem_cons]
      · rw [List.destutter'_cons_neg _ hbc, ih, List.mem_cons]
        obtain rfl := not_not.1 hbc
        tauto
  cases l with
  | nil => simp
  | cons b l => rw [List.destutter_cons', haux, List.mem_cons]

theorem mem_sortPaths {paths : List Bytes} {p : Bytes} : p ∈ sortPaths paths ↔ p ∈ paths := by
  rw [sortPaths, mem_destutter, (List.perm_insertionSort PathBufLE paths).mem_iff]

theorem mem_showAll {tip : Str} {ps : List Bytes} {pairs : List (Bytes × Bytes)} {r r' : Repo}
    (h : (showAll git tip ps).run r = (.ok pairs, r')) {path content : Bytes} (hp : path ∈ ps)
    (hfault : git.fault (.show_ tip path) r = none)
    (hshow : git.showOf tip path r = .ok content) : (path, content) ∈ pairs := by
  induction ps generalizing pairs r' with
  | nil => simp at hp
  | cons p ps ih =>
    obtain ⟨out, r₁, hout, hrest⟩ := run_bind_ok h
    obtain ⟨rfl, hout⟩ := Git.run_output_ok (run_mapErr_ok hout)
    by_cases hpp : path = p
    · subst hpp
      rcases hout with ⟨e, he, -⟩ | ⟨-, rfl⟩
      · rw [hfault] at he
        cases he
      · rw [hshow] at hrest
        obtain ⟨rest, r₂, -, hpairs⟩ := run_bind_ok hrest
        cases hpairs
        exact List.mem_cons_self
    · have hps := (List.mem_cons.1 hp).resolve_left hpp
      cases out with
      | error e => exact ih hrest hps
      | ok d =>
        obtain ⟨rest, r₂, hshowAll, hpairs⟩ := run_bind_ok hrest
        obtain ⟨hrest', -⟩ := Prod.mk.inj hpairs
        rw [← Except.ok.inj hrest']
        exact List.mem_cons_of_mem _ (ih hshowAll hps)

/-- The names that the audit reads from the output of `git log`. -/
theorem parsePathlist_logOutput (cs : List Commit) :
    parsePathlist (git.logOutput cs) =
      (cs.flatMap fun c => [] :: (git.commitNames c).map quote).filter (· ≠ []) := by
  apply parsePathlist_lines
  intro l hl
  obtain ⟨c, -, hc⟩ := List.mem_flatMap.1 hl
  rcases List.mem_cons.1 hc with rfl | hc
  · rfl
  · obtain ⟨name, -, rfl⟩ := List.mem_map.1 hc
    exact printable_quote name

/-- **What a clean audit has looked at is good.** -/
theorem auditIncoming_ok {r r' : Repo} {since : Option Commit} {peer : Commit}
    {localHead : Option Str} {tip : Str}
    (hrun : (auditIncoming git localHead tip).run r = (.ok [], r'))
    (hsince : localHead.elim (some none) (fun s => (git.rev r s).map some) = some since)
    (hpeer : git.rev r tip = some peer) {path content : Bytes}
    (ha : AuditedIncoming git r since peer localHead tip path content) :
    checkFile path content = none := by
  obtain ⟨hlog, ⟨c, hc, hname⟩, hne, hplain, hfault, hshow⟩ := ha
  obtain ⟨out, r₁, hout, hrest⟩ := run_bind_ok hrun
  obtain ⟨rfl, hout⟩ := Git.run_output_ok (run_mapErr_ok hout)
  rcases hout with ⟨e, he, -⟩ | ⟨-, rfl⟩
  · rw [hlog] at he
    cases he
  · have hlogOf : git.logOf localHead tip r₁ = .ok (git.logOutput (Merkle.range since peer)) := by
      rw [Git.logOf, hsince, hpeer]
    rw [hlogOf] at hrest
    obtain ⟨pairs, r₂, hpairs, hclean⟩ := run_bind_ok hrest
    have hnil : checkFiles pairs = [] := Except.ok.inj (congrArg Prod.fst hclean)
    refine checkFiles_eq_nil.1 hnil _ (mem_showAll hpairs ?_ hfault hshow)
    rw [mem_sortPaths, parsePathlist_logOutput, List.mem_filter, List.mem_flatMap]
    refine ⟨⟨c, hc, List.mem_cons_of_mem _ (List.mem_map.2 ⟨path, hname, ?_⟩)⟩, by simpa using hne⟩
    exact quote_eq_self.2 hplain

/-! ## What a sync brings -/

/-- The commits that a sync from `r` to `r'` made reachable, out of the history of `peer`. -/
def Received (r r' : Repo) (peer c : Commit) : Prop :=
  c ∈ reachable r'.head ∧ c ∉ reachable r.head ∧ c ∈ peer.history

/-- The action of a sync that moved the branch. -/
def SyncAction.Moves : SyncAction → Prop
  | .fastForwarded _ _ => True
  | .rebased _ => True
  | _ => False

theorem Ingested.store {bytes : Bytes} {r r₁ : Repo} (h : Ingested git bytes r r₁) :
    r₁.head = r.head ∧ ∀ c ∈ r.odb.commits, c ∈ r₁.odb.commits := by
  rcases h with ⟨-, rfl⟩ | ⟨-, hstore⟩
  · exact ⟨rfl, fun _ hc => hc⟩
  · obtain ⟨cs, -, hstore⟩ := Option.bind_eq_some_iff.1 hstore
    obtain ⟨hmem, hhead, -⟩ := Repo.store_eq_some hstore
    exact ⟨hhead, fun c hc => (hmem c).2 (Or.inr hc)⟩

/-- The head that was read is the commit that its digits name. -/
theorem since_head {r r₁ : Repo} (hmem : ∀ c ∈ r.odb.commits, c ∈ r₁.odb.commits) :
    (headText r).elim (some none) (fun s => (git.rev r₁ s).map some) = some r.head := by
  cases hc : r.head with
  | none => simp [headText, hc]
  | some c => simp [headText, hc, git.rev_mem_sha (hmem c (r.head_mem c hc))]

/-- A sync that moved the branch resolved the peer's head. -/
theorem Reconciled.moves {localHead : Option Str} {tip localId remoteId : Str} {r r' : Repo}
    {action : SyncAction} (h : Reconciled git localHead tip localId remoteId r (.ok action) r')
    (hmoves : action.Moves) : ∃ peer, git.rev r tip = some peer ∧
      ∃ head, r'.head = some head ∧ peer ∈ head.history := by
  have hreset : ∀ r', git.resetTo tip r = (.ok (), r') → ∃ peer, git.rev r tip = some peer ∧
      ∃ head, r'.head = some head ∧ peer ∈ head.history := by
    intro r' h
    obtain ⟨c, hc, hhead⟩ := resetTo_ok h
    exact ⟨c, hc, c, hhead, Merkle.mem_history_self c⟩
  cases h with
  | adopted _ h => exact hreset r' h
  | ahead _ _ _ _ h => exact hreset r' h
  | rebased _ _ _ _ h =>
    obtain ⟨base, head, top, hrev, -, -, hreplay, hhead⟩ := rebaseTo_ok h
    exact ⟨base, hrev, top, hhead, replay_history hreplay⟩
  | same => exact hmoves.elim
  | behind => exact hmoves.elim
  | awaits => exact hmoves.elim

/-- **When the audit on receive is complete.** A sync that moves the branch has stored the pack and
resolved the peer's head to a commit `peer`. Every version that a commit introduces which it made
reachable out of the history of `peer` passes, if and only if those pass that the audit did not
look at. -/
theorem receive_audit_complete_iff {git : Git} {F : Type} {json : Json F}
    {request : F → Except Str F} {localId remoteId : Str} {r : Repo} {action : SyncAction}
    {ph : Option Str} (hmoves : action.Moves)
    (hrun : ((syncWithPeer git json request localId remoteId).run r).1 = .ok ⟨action, ph⟩) :
    ∃ tip bytes r₁ peer, askPeer json request (headText r) = .ok (some tip, bytes) ∧
      Ingested git bytes r r₁ ∧ git.rev r₁ tip = some peer ∧
      ((∀ c, Received r ((syncWithPeer git json request localId remoteId).run r).2 peer c →
          ∀ path content, Introduces c path content → checkFile path content = none) ↔
        ∀ c ∈ Merkle.range r.head peer, ∀ path content, Introduces c path content →
          ¬ AuditedIncoming git r₁ r.head peer (headText r) tip path content →
            checkFile path content = none) := by
  have hsync := syncWithPeer_alone git json request localId remoteId r
  rw [hrun] at hsync
  generalize hr' : ((syncWithPeer git json request localId remoteId).run r).2 = r' at hsync ⊢
  generalize hres : (Except.ok ⟨action, ph⟩ : Except SyncError SyncReport) = res at hsync
  cases hsync with
  | failed _ => cases hres
  | nothing _ _ =>
    cases hres
    exact hmoves.elim
  | already _ _ =>
    cases hres
    exact hmoves.elim
  | auditFailed _ _ _ => cases hres
  | rejected _ _ _ _ =>
    cases hres
    exact hmoves.elim
  | @reconciled tip bytes r₁ res' _ hask _ _ _ hin haudit hrec =>
    cases res' with
    | error e => cases hres
    | ok a =>
      obtain ⟨rfl, -⟩ : action = a ∧ ph = some tip := by simpa [Except.map] using hres
      obtain ⟨peer, hpeer, head, hhead, hhist⟩ := hrec.moves hmoves
      refine ⟨tip, bytes, r₁, peer, hask, hin, hpeer, ?_⟩
      have hrange : ∀ c, Received r r' peer c ↔ c ∈ Merkle.range r.head peer := by
        intro c
        rw [Merkle.mem_range, Received, hhead, reachable_some]
        exact ⟨fun h => ⟨h.2.2, h.2.1⟩,
          fun h => ⟨Merkle.history_trans h.1 hhist, h.2, h.1⟩⟩
      simp only [hrange]
      constructor
      · intro hall c hc path content hi _
        exact hall c hc path content hi
      · intro hrest c hc path content hi
        by_cases ha : AuditedIncoming git r₁ r.head peer (headText r) tip path content
        · exact auditIncoming_ok haudit (since_head hin.store.2) hpeer ha
        · exact hrest c hc path content hi ha

/-! ## A file that came and went -/

/-- The peer added a text file, and took it away again. -/
def jotBase : Commit := commitOf 1 [(".gpg-id".toList, "ALICE\n".toList)] []

def jotAdded : Commit :=
  commitOf 2 [(".gpg-id".toList, "ALICE\n".toList), ("notes.txt".toList, "hi".toList)] [jotBase]

def jotPeer : Commit := commitOf 3 [(".gpg-id".toList, "ALICE\n".toList)] [jotAdded]

def jotRepo : Repo := repoAt jotBase [jotBase] (by decide +kernel) (by simp)

def jotGit : Git := plainGit [([1], [jotPeer, jotAdded])]

def jotRequest : WireMsg → Except Str WireMsg := fun _ =>
  .ok (packMsg (some jotPeer.sha.hex) [1])

def jotSync : Except SyncError SyncReport × Repo :=
  (syncWithPeer jotGit plainJson jotRequest "A".toList "B".toList).run jotRepo

theorem jotSync_ok :
    jotSync.1 = .ok ⟨.fastForwarded jotBase.sha.hex jotPeer.sha.hex, some jotPeer.sha.hex⟩ := by
  decide +kernel

/-- **The audit on receive can miss a file.** The sync succeeds, and the text file is in a commit
that is now reachable. -/
theorem receive_audit_can_miss :
    jotSync.1 = .ok ⟨.fastForwarded jotBase.sha.hex jotPeer.sha.hex, some jotPeer.sha.hex⟩ ∧
      Received jotRepo jotSync.2 jotPeer jotAdded ∧
      Introduces jotAdded (utf8Encode "notes.txt".toList) (utf8Encode "hi".toList) ∧
      checkFile (utf8Encode "notes.txt".toList) (utf8Encode "hi".toList) ≠ none := by
  refine ⟨jotSync_ok, ?_, ?_, by decide +kernel⟩
  · exact ⟨by decide +kernel, by decide +kernel, by decide +kernel⟩
  · exact ⟨by decide +kernel, by decide +kernel⟩

theorem receive_audit_complete_iff_jot :
    ∃ tip bytes r₁ peer, askPeer plainJson jotRequest (headText jotRepo) = .ok (some tip, bytes) ∧
      Ingested jotGit bytes jotRepo r₁ ∧ jotGit.rev r₁ tip = some peer ∧
      ((∀ c, Received jotRepo jotSync.2 peer c →
          ∀ path content, Introduces c path content → checkFile path content = none) ↔
        ∀ c ∈ Merkle.range jotRepo.head peer, ∀ path content, Introduces c path content →
          ¬ AuditedIncoming jotGit r₁ jotRepo.head peer (headText jotRepo) tip path content →
            checkFile path content = none) :=
  receive_audit_complete_iff
    (show SyncAction.Moves (.fastForwarded jotBase.sha.hex jotPeer.sha.hex) from trivial)
    jotSync_ok

end Bypass
