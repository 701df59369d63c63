import Bypass.Git.Plain
import Bypass.Sync.Alone

/-!
# The decision of a reconciliation

A reconciliation first decides, by library calls that change nothing, and then acts. What it
decides is a function of the two heads and the two ids (`decisionOf`), so the two sides of a sync,
each with the other's head, decide what goes together.

* `reconcile_eq`: a reconciliation is a decision, and then what was decided.
* `decisions_compatible`: the decisions of the two sides go together.
-/

namespace Bypass

open Prog

/-- What a reconciliation decides to do. -/
inductive Decision where
  | upToDate
  | fastForward (from_ to_ : Str)
  | peerBehind
  | rebase
  | awaitPeer
  deriving DecidableEq

section Program

variable (git : Git)

/-- The part of `reconcile` that decides. -/
def decision (localHead : Option Str) (peerHead localId remoteId : Str) : SyncM Decision := do
  git.openRepo.mapErr .openRepo
  match Oid.fromStr peerHead with
  | none => throw (.parsePeerHead peerHead)
  | some peerOid =>
    match localHead with
    | none => pure (.fastForward [] peerHead)
    | some h =>
      match Oid.fromStr h with
      | none => throw (.parseLocalHead h)
      | some localOid =>
        if localOid = peerOid then pure .upToDate
        else do
          let ahead ← (git.descendantOf peerOid localOid).mapErr .descendantOfPeer
          if ahead then pure (.fastForward localOid.hex peerOid.hex)
          else do
            let behind ← (git.descendantOf localOid peerOid).mapErr .descendantOfLocal
            if behind then pure .peerBehind
            else if compare localId remoteId = .lt then pure .rebase
            else pure .awaitPeer

/-- The part of `reconcile` that acts. -/
def perform (peerHead : Str) : Decision → SyncM SyncAction
  | .upToDate => pure .upToDate
  | .fastForward a b => do
    fastForward git peerHead
    pure (.fastForwarded a b)
  | .peerBehind => pure .peerBehind
  | .rebase => do
    rebaseOnto git peerHead
    pure (.rebased peerHead)
  | .awaitPeer => pure .awaitingPeerRebase

/-- **A reconciliation decides, and acts.** -/
theorem reconcile_eq (localHead : Option Str) (peerHead localId remoteId : Str) :
    reconcile git localHead peerHead localId remoteId =
      decision git localHead peerHead localId remoteId >>= perform git peerHead := by
  unfold reconcile decision
  rw [bind_assoc]
  apply bind_congr
  intro _
  cases Oid.fromStr peerHead with
  | none => rfl
  | some peerOid =>
    cases localHead with
    | none => rfl
    | some h =>
      cases hlocal : Oid.fromStr h with
      | none =>
        simp only [hlocal]
        rfl
      | some localOid =>
        simp only [hlocal]
        by_cases heq : localOid = peerOid
        · simp only [if_pos heq]
          rfl
        simp only [if_neg heq]
        rw [bind_assoc]
        apply bind_congr
        intro ahead
        cases ahead with
        | true => rfl
        | false =>
          simp only [Bool.false_eq_true, if_false]
          rw [bind_assoc]
          apply bind_congr
          intro behind
          cases behind with
          | true => rfl
          | false =>
            by_cases hlt : compare localId remoteId = .lt
            · simp only [Bool.false_eq_true, if_false, if_pos hlt]
              rfl
            · simp only [Bool.false_eq_true, if_false, if_neg hlt]
              rfl

end Program

/-! ## What is decided -/

/-- The decision, from the two heads and the two ids. -/
def decisionOf (l p : Commit) (localId remoteId : Str) : Decision :=
  if l = p then .upToDate
  else if l ∈ p.history then .fastForward l.sha.hex p.sha.hex
  else if p ∈ l.history then .peerBehind
  else if compare localId remoteId = .lt then .rebase
  else .awaitPeer

variable {git : Git} {r : Repo}

theorem descendantOf_run {a b : Oid} {c d : Commit} (hf : git.fault (.descendantOf a b) r = none)
    (hc : r.odb.lookup a = some c) (hd : r.odb.lookup b = some d) :
    (git.descendantOf a b).run r = (.ok (decide (d ∈ c.history ∧ d ≠ c)), r) := by
  unfold Git.descendantOf
  rw [query_run hf, hc, hd]

/-- **A decision run alone**, where no library call fails. -/
theorem decision_run {localHead tip localId remoteId : Str} {l p : Commit}
    (hcmp : Compared git r localHead tip) (hheads : Heads r localHead tip l p) :
    (decision git (some localHead) tip localId remoteId).run r =
      (.ok (decisionOf l p localId remoteId), r) := by
  obtain ⟨lo, po, hlo, hpo, hl, hp⟩ := hheads
  obtain ⟨hopen, hdesc⟩ := hcmp
  obtain ⟨hq, hq'⟩ := hdesc lo po hlo hpo
  have hsame : lo = po ↔ l = p := by
    constructor
    · rintro rfl
      exact Option.some.inj (hl.symm.trans hp)
    · rintro rfl
      exact (sha_of_lookup hl).symm.trans (sha_of_lookup hp)
  unfold decision decisionOf Git.openRepo
  rw [run_bind, run_mapErr, query_run hopen]
  simp only [Except.mapError, hpo, hlo, hsame]
  by_cases heq : l = p
  · rw [if_pos heq, if_pos heq]
    rfl
  rw [if_neg heq, if_neg heq, run_bind, run_mapErr, descendantOf_run hq hp hl]
  by_cases hahead : l ∈ p.history
  · simp only [Except.mapError, hahead, heq, ne_eq, not_false_eq_true, and_self, decide_true,
      if_true, sha_of_lookup hl, sha_of_lookup hp]
    rfl
  simp only [Except.mapError, hahead, false_and, decide_false, Bool.false_eq_true, if_false]
  rw [run_bind, run_mapErr, descendantOf_run hq' hl hp]
  by_cases hbehind : p ∈ l.history
  · have hne : p ≠ l := fun h => heq h.symm
    simp only [Except.mapError, hbehind, hne, ne_eq, not_false_eq_true, and_self, decide_true,
      if_true]
    rfl
  simp only [Except.mapError, hbehind, false_and, decide_false, Bool.false_eq_true, if_false]
  split <;> rfl

/-! ## The two sides -/

/-- The decision is to fast-forward. -/
def Decision.FastForwards : Decision → Prop
  | .fastForward _ _ => True
  | _ => False

/-- The decisions of two sides that go together, the first side first. -/
def Fits (d d' : Decision) : Prop :=
  d = .upToDate ∧ d' = .upToDate ∨ d.FastForwards ∧ d' = .peerBehind ∨ d = .rebase ∧ d' = .awaitPeer

theorem decisionOf_fits (a b : Commit) {idA idB : Str} (hid : idA ≠ idB) :
    Fits (decisionOf a b idA idB) (decisionOf b a idB idA) ∨
      Fits (decisionOf b a idB idA) (decisionOf a b idA idB) := by
  by_cases heq : a = b
  · subst heq
    exact Or.inl (Or.inl ⟨if_pos rfl, if_pos rfl⟩)
  have hne : b ≠ a := fun h => heq h.symm
  by_cases hab : a ∈ b.history
  · -- not both are in the history of the other
    have hba : b ∉ a.history := fun h => heq (Merkle.history_antisymm hab h)
    refine Or.inl (Or.inr (Or.inl ⟨?_, ?_⟩))
    · rw [decisionOf, if_neg heq, if_pos hab]
      trivial
    · rw [decisionOf, if_neg hne, if_neg hba, if_pos hab]
  by_cases hba : b ∈ a.history
  · refine Or.inr (Or.inr (Or.inl ⟨?_, ?_⟩))
    · rw [decisionOf, if_neg hne, if_pos hba]
      trivial
    · rw [decisionOf, if_neg heq, if_neg hab, if_pos hba]
  have hA : decisionOf a b idA idB = if compare idA idB = .lt then .rebase else .awaitPeer := by
    rw [decisionOf, if_neg heq, if_neg hab, if_neg hba]
  have hB : decisionOf b a idB idA = if compare idB idA = .lt then .rebase else .awaitPeer := by
    rw [decisionOf, if_neg hne, if_neg hba, if_neg hab]
  have hswap : compare idB idA = (compare idA idB).swap := Std.OrientedCmp.eq_swap
  rw [hA, hB, hswap]
  cases hcmp : compare idA idB with
  | lt => exact Or.inl (Or.inr (Or.inr ⟨rfl, rfl⟩))
  | gt => exact Or.inr (Or.inr (Or.inr ⟨rfl, rfl⟩))
  | eq => exact absurd (Std.LawfulEqCmp.eq_of_compare hcmp) hid

theorem decisionOf_upToDate {l p : Commit} {localId remoteId : Str} :
    decisionOf l p localId remoteId = .upToDate ↔ l = p := by
  rw [decisionOf]
  split_ifs <;> simp_all

theorem heads_of_mem {l p : Commit} (hl : l ∈ r.odb.commits) (hp : p ∈ r.odb.commits) :
    Heads r l.sha.hex p.sha.hex l p :=
  ⟨l.sha, p.sha, Oid.fromStr_hex l.sha, Oid.fromStr_hex p.sha, Odb.lookup_eq_some.2 ⟨hl, rfl⟩,
    Odb.lookup_eq_some.2 ⟨hp, rfl⟩⟩

/-- **The two sides decide what goes together.** Both have both heads, their ids differ, and no
library call fails: each reconciliation is what its decision makes it do, the decisions fit, one
way round or the other, and a side is up to date exactly when the heads are the same. -/
theorem decisions_compatible {gitA gitB : Git} {rA rB : Repo} {a b : Commit} {idA idB : Str}
    (haA : a ∈ rA.odb.commits) (hbA : b ∈ rA.odb.commits) (haB : a ∈ rB.odb.commits)
    (hbB : b ∈ rB.odb.commits) (hid : idA ≠ idB) (hA : Compared gitA rA a.sha.hex b.sha.hex)
    (hB : Compared gitB rB b.sha.hex a.sha.hex) :
    ∃ dA dB, (reconcile gitA (some a.sha.hex) b.sha.hex idA idB).run rA =
          (perform gitA b.sha.hex dA).run rA ∧
        (reconcile gitB (some b.sha.hex) a.sha.hex idB idA).run rB =
          (perform gitB a.sha.hex dB).run rB ∧
        (Fits dA dB ∨ Fits dB dA) ∧ (dA = .upToDate ↔ a = b) ∧ (dB = .upToDate ↔ a = b) := by
  refine ⟨decisionOf a b idA idB, decisionOf b a idB idA, ?_, ?_, decisionOf_fits a b hid,
    decisionOf_upToDate, decisionOf_upToDate.trans eq_comm⟩
  · rw [reconcile_eq, run_bind, decision_run hA (heads_of_mem haA hbA)]
  · rw [reconcile_eq, run_bind, decision_run hB (heads_of_mem hbB haB)]

/-! ## Two heads on one commit -/

def sideBase : Commit := commitOf 1 [] []

def sideA : Commit := commitOf 2 [("a.gpg".toList, "é".toList)] [sideBase]

def sideB : Commit := commitOf 3 [("b.gpg".toList, "é".toList)] [sideBase]

def sideRepo : Repo := repoAt sideA [sideA, sideB, sideBase] (by decide +kernel) (by simp)

theorem decisions_compatible_side :
    ∃ dA dB, (reconcile (plainGit []) (some sideA.sha.hex) sideB.sha.hex "A".toList "B".toList).run
          sideRepo = (perform (plainGit []) sideB.sha.hex dA).run sideRepo ∧
        (reconcile (plainGit []) (some sideB.sha.hex) sideA.sha.hex "B".toList "A".toList).run
          sideRepo = (perform (plainGit []) sideA.sha.hex dB).run sideRepo ∧
        (Fits dA dB ∨ Fits dB dA) ∧ (dA = .upToDate ↔ sideA = sideB) ∧
          (dB = .upToDate ↔ sideA = sideB) :=
  decisions_compatible (by decide +kernel) (by decide +kernel) (by decide +kernel)
    (by decide +kernel) (by decide) ⟨rfl, fun _ _ _ _ => ⟨rfl, rfl⟩⟩
    ⟨rfl, fun _ _ _ _ => ⟨rfl, rfl⟩⟩

end Bypass
