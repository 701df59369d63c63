import Bypass.Sync.Syncing

/-!
# The steps of a sync

A relation that holds of every call of git in a sync holds of every step of it, beside whatever
other processes do. `Stores` is what it takes for the stages up to the audit, and `Moves` what it
takes for all of them.

* `steps_auditIncoming`, `steps_syncWithPeer`: the stages, and the whole.
-/

namespace Bypass

open Prog

/-- The relation allows the steps that move no branch: those that change nothing, and those that
store a pack. -/
structure Stores (git : Git) (Q : Command → Repo → Repo → Prop) : Prop where
  refl : ∀ cmd r, Q cmd r r
  indexPack : ∀ bytes r r', (git.unpack bytes).bind r.store = some r' → Q (.indexPack bytes) r r'

/-- It allows all of them. -/
structure Moves (git : Git) (Q : Command → Repo → Repo → Prop) : Prop extends Stores git Q where
  reset : ∀ target r, Q (.resetHard target) r (git.resetTo target r).2
  resetBroken : ∀ target r, Q (.resetHard target) r (git.broken (.resetHard target) r)
  rebase : ∀ onto r, Q (.rebase onto) r (git.rebaseTo onto r).2
  rebaseBroken : ∀ onto r, Q (.rebase onto) r (git.broken (.rebase onto) r)
  abort : ∀ r, Q .rebaseAbort r (Git.abortTo r).2
  abortBroken : ∀ r, Q .rebaseAbort r (git.broken .rebaseAbort r)

section Steps

variable {git : Git} {Q : Command → Repo → Repo → Prop} {α : Type}

/-! ## Single calls -/

theorem steps_query (hQ : ∀ cmd r, Q cmd r r) (cmd : Command) (f : Repo → Except Str α) :
    Steps Q (git.query cmd f) := by
  refine steps_call fun r => ?_
  cases git.fault cmd r with
  | none => exact hQ cmd r
  | some fault => cases fault <;> exact hQ cmd r

theorem steps_process (hQ : ∀ cmd r, Q cmd r r) {cmd : Command} {left : Repo → Repo}
    {f : Repo → Except Str α × Repo} (hleft : ∀ r, Q cmd r (left r))
    (hf : ∀ r, Q cmd r (f r).2) : Steps Q (git.process cmd left f) := by
  refine steps_call fun r => ?_
  cases git.fault cmd r with
  | none => exact hf r
  | some fault =>
    cases fault with
    | spawn e => exact hQ cmd r
    | exit e => exact hleft r

theorem steps_output (hQ : ∀ cmd r, Q cmd r r) (cmd : Command) (f : Repo → Except Str α) :
    Steps Q (git.output cmd f) :=
  steps_process hQ (hQ cmd) (hQ cmd)

/-! ## The stages that move no branch -/

theorem steps_showAll (hQ : ∀ cmd r, Q cmd r r) (tip : Str) (ps : List Bytes) :
    Steps Q (showAll git tip ps) := by
  induction ps with
  | nil => exact steps_pure _
  | cons p ps ih =>
    refine (steps_output hQ _ _).mapErr.bind fun r => ?_
    cases r with
    | error e => exact ih
    | ok content => exact ih.bind fun rest => steps_pure _

theorem steps_auditIncoming (hQ : ∀ cmd r, Q cmd r r) (localHead : Option Str) (peerHead : Str) :
    Steps Q (auditIncoming git localHead peerHead) := by
  refine (steps_output hQ _ _).mapErr.bind fun r => ?_
  cases r with
  | error e => exact steps_pure _
  | ok out => exact (steps_showAll hQ _ _).bind fun pairs => steps_pure _

theorem steps_indexPack (hQ : Stores git Q) (bytes : Bytes) : Steps Q (git.indexPack bytes) := by
  refine steps_process hQ.refl (hQ.refl _) fun r => ?_
  split
  · next r' hr' => exact hQ.indexPack bytes r r' hr'
  · exact hQ.refl _ r

theorem steps_ingestUnlessEmpty (hQ : Stores git Q) (bytes : Bytes) :
    Steps Q (ingestUnlessEmpty git bytes) := by
  unfold ingestUnlessEmpty
  split_ifs
  · exact steps_pure _
  · refine (steps_indexPack hQ bytes).mapErr.bind fun r => ?_
    cases r with
    | error e => exact steps_throw _
    | ok u => exact steps_pure _

/-! ## The stages that move it -/

theorem steps_fastForward (hQ : Moves git Q) (target : Str) :
    Steps Q (fastForward git target) := by
  have hreset : Steps Q (git.resetHard target) :=
    steps_process hQ.refl (hQ.resetBroken target) (hQ.reset target)
  refine hreset.mapErr.bind fun r => ?_
  cases r with
  | error e => exact steps_throw _
  | ok u => exact steps_pure _

theorem steps_rebaseOnto (hQ : Moves git Q) (peerHead : Str) :
    Steps Q (rebaseOnto git peerHead) := by
  have hrebase : Steps Q (git.rebase peerHead) :=
    steps_process hQ.refl (hQ.rebaseBroken peerHead) (hQ.rebase peerHead)
  have habort : Steps Q git.rebaseAbort := steps_process hQ.refl hQ.abortBroken hQ.abort
  refine hrebase.mapErr.bind fun r => ?_
  cases r with
  | error e => exact habort.ignore.bind fun _ => steps_throw _
  | ok u => exact steps_pure _

theorem steps_reconcile (hQ : Moves git Q) (localHead : Option Str)
    (peerHead localId remoteId : Str) :
    Steps Q (reconcile git localHead peerHead localId remoteId) := by
  refine (steps_query hQ.refl _ _).mapErr.bind fun _ => ?_
  split
  · exact steps_throw _
  split
  · exact (steps_fastForward hQ _).bind fun _ => steps_pure _
  split
  · exact steps_throw _
  split
  · exact steps_pure _
  refine (steps_query hQ.refl _ _).mapErr.bind fun ahead => ?_
  cases ahead with
  | true => exact (steps_fastForward hQ _).bind fun _ => steps_pure _
  | false =>
    refine (steps_query hQ.refl _ _).mapErr.bind fun behind => ?_
    cases behind with
    | true => exact steps_pure _
    | false =>
      by_cases hlt : compare localId remoteId = .lt
      · simp only [if_pos hlt]
        exact (steps_rebaseOnto hQ _).bind fun _ => steps_pure _
      · simp only [if_neg hlt]
        exact steps_pure _

/-! ## The whole sync -/

/-- **A relation that allows the calls of a sync** holds of each of its steps. -/
theorem steps_syncWithPeer (hQ : Moves git Q) {F : Type} (json : Json F)
    (request : F → Except Str F) (localId remoteId : Str) :
    Steps Q (syncWithPeer git json request localId remoteId) := by
  refine (steps_query hQ.refl _ _).mapErr.bind fun localHead => ?_
  have hask : Steps Q (Prog.done (askPeer json request localHead) : SyncM _) := trivial
  refine hask.bind fun ⟨peerHead, bytes⟩ => ?_
  show Steps Q (receivePack git localHead peerHead bytes localId remoteId)
  unfold receivePack
  split
  · exact steps_throw _
  split
  · exact steps_pure _
  split
  · exact steps_pure _
  refine (steps_ingestUnlessEmpty hQ.toStores _).bind fun _ => ?_
  refine (steps_auditIncoming hQ.refl _ _).bind fun issues => ?_
  split
  · exact (steps_reconcile hQ _ _ _ _).bind fun _ => steps_pure _
  · exact steps_pure _

end Steps

end Bypass
