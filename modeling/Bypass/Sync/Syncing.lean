import Bypass.Cli.Audit
import Bypass.Sync.Wire

/-!
# Pack exchange with a peer

The initiator of a sync (`syncing.rs`): read the local head, ask the peer for its history, store
the pack, audit what came, and move the branch to the peer's head, or rebase it there. Each call of
git is an action of the program, so that other processes may act between any two of them.

* `syncWithPeer`: the whole of a sync; `auditIncoming`, `reconcile`: its two last stages.
-/

namespace Bypass

/-! ## Results and errors -/

/-- `SyncAction`. -/
inductive SyncAction where
  | upToDate
  | fastForwarded (from_ to_ : Str)
  | peerBehind
  | rebased (onto : Str)
  | awaitingPeerRebase
  | rejectedLeak (issues : List LeakIssue)
  deriving DecidableEq

/-- `SyncReport`. -/
structure SyncReport where
  action : SyncAction
  peerHead : Option Str
  deriving DecidableEq

/-- How a sync fails: the step, and what git or the library said. -/
inductive SyncError where
  | headLookup (e : Str)
  | transport (e : Str)
  | decodeReply (e : WireError)
  | refused (reason : Str)
  | unexpectedReply (body : WireBody)
  | packTooLarge (size : ℕ)
  | spawnIndexPack (e : Str)
  | indexPack (stderr : Str)
  | spawnLog (e : Str)
  | spawnShow (path : Bytes) (e : Str)
  | openRepo (e : Str)
  | parsePeerHead (head : Str)
  | parseLocalHead (head : Str)
  | descendantOfPeer (e : Str)
  | descendantOfLocal (e : Str)
  | spawnReset (e : Str)
  | reset (target stderr : Str)
  | spawnRebase (e : Str)
  | rebase (onto stderr : Str)
  deriving DecidableEq

/-- A program of a sync. -/
abbrev SyncM := Prog Command Repo SyncError

/-- `MAX_PACK_BYTES`. -/
def maxPackBytes : ℕ := 50 * 1024 * 1024

section Stages

variable (git : Git)

/-! ## Storing the pack -/

/-- `ingest_pack`. -/
def ingestPack (bytes : Bytes) : SyncM Unit := do
  match ← (git.indexPack bytes).mapErr .spawnIndexPack with
  | .error stderr => throw (.indexPack stderr)
  | .ok () => pure ()

/-- The call of `ingest_pack` in `sync_with_peer`. -/
def ingestUnlessEmpty (bytes : Bytes) : SyncM Unit :=
  if bytes = [] then pure () else ingestPack git bytes

/-! ## The audit of what came -/

/-- The order of `PathBuf`s: by their components. -/
def PathBufLE (a b : Bytes) : Prop := (compare (a.splitOn 0x2f) (b.splitOn 0x2f)).isLE = true

instance : DecidableRel PathBufLE := fun a b =>
  inferInstanceAs (Decidable ((compare (a.splitOn 0x2f) (b.splitOn 0x2f)).isLE = true))

/-- `paths.sort(); paths.dedup();`. No name that git prints has an empty or `.` component, so two
are equal as paths when they are equal. -/
def sortPaths (paths : List Bytes) : List Bytes :=
  (paths.insertionSort PathBufLE).destutter (· ≠ ·)

/-- The loop of `audit_incoming`: the content of each path in the peer's commit. A path that
`git show` does not print is passed over. -/
def showAll (tip : Str) : List Bytes → SyncM (List (Bytes × Bytes))
  | [] => pure []
  | p :: ps => do
    match ← (git.showFile tip p).mapErr (.spawnShow p) with
    | .error _ => showAll tip ps
    | .ok content => do
      let rest ← showAll tip ps
      pure ((p, content) :: rest)

/-- `audit_incoming`. -/
def auditIncoming (localHead : Option Str) (peerHead : Str) : SyncM (List LeakIssue) := do
  match ← (git.log localHead peerHead).mapErr .spawnLog with
  | .error _ => pure []
  | .ok out => do
    let pairs ← showAll git peerHead (sortPaths (parsePathlist out))
    pure (checkFiles pairs)

/-! ## Moving the branch -/

/-- `fast_forward`. -/
def fastForward (target : Str) : SyncM Unit := do
  match ← (git.resetHard target).mapErr .spawnReset with
  | .error stderr => throw (.reset target stderr)
  | .ok () => pure ()

/-- `rebase_onto`. -/
def rebaseOnto (peerHead : Str) : SyncM Unit := do
  match ← (git.rebase peerHead).mapErr .spawnRebase with
  | .error stderr =>
    -- whether the abort succeeds is not looked at
    (git.rebaseAbort).ignore
    throw (.rebase peerHead stderr)
  | .ok () => pure ()

/-- `reconcile`; the two last arguments are the peer ids in base 58. -/
def reconcile (localHead : Option Str) (peerHead localId remoteId : Str) : SyncM SyncAction := do
  git.openRepo.mapErr .openRepo
  match Oid.fromStr peerHead with
  | none => throw (.parsePeerHead peerHead)
  | some peerOid =>
    match localHead with
    | none => do
      fastForward git peerHead
      pure (.fastForwarded [] peerHead)
    | some h =>
      match Oid.fromStr h with
      | none => throw (.parseLocalHead h)
      | some localOid =>
        if localOid = peerOid then pure .upToDate
        else do
          let ahead ← (git.descendantOf peerOid localOid).mapErr .descendantOfPeer
          if ahead then do
            fastForward git peerHead
            pure (.fastForwarded localOid.hex peerOid.hex)
          else do
            let behind ← (git.descendantOf localOid peerOid).mapErr .descendantOfLocal
            if behind then pure .peerBehind
            -- diverged: the lower peer id rebases
            else if compare localId remoteId = .lt then do
              rebaseOnto git peerHead
              pure (.rebased peerHead)
            else pure .awaitingPeerRebase

/-! ## The sync -/

/-- `sync_with_peer` after the answer: `peerHead` and `bytes` are those of the peer's pack. -/
def receivePack (localHead peerHead : Option Str) (bytes : Bytes) (localId remoteId : Str) :
    SyncM SyncReport :=
  if maxPackBytes < bytes.length then throw (.packTooLarge bytes.length)
  else
    match peerHead with
    | none => pure ⟨.upToDate, none⟩
    | some tip =>
      if bytes = [] ∧ localHead = some tip then pure ⟨.upToDate, some tip⟩
      else do
        ingestUnlessEmpty git bytes
        let issues ← auditIncoming git localHead tip
        if issues = [] then do
          let action ← reconcile git localHead tip localId remoteId
          pure ⟨action, some tip⟩
        else pure ⟨.rejectedLeak issues, some tip⟩

variable {F : Type} (json : Json F) (request : F → Except Str F)

/-- The peer's answer to a request for all of its history. -/
def askPeer (localHead : Option Str) : Except SyncError (Option Str × Bytes) :=
  match request (json.encode (wantPackFrom localHead none)) with
  | .error e => .error (.transport e)
  | .ok reply =>
    match json.decode reply with
    | .error e => .error (.decodeReply e)
    | .ok msg =>
      match msg.body with
      | .pack peerHead bytes => .ok (peerHead, bytes)
      | .err reason => .error (.refused reason)
      | .wantPackFrom h seen => .error (.unexpectedReply (.wantPackFrom h seen))

/-- `sync_with_peer`; `request` is the transport. -/
def syncWithPeer (localId remoteId : Str) : SyncM SyncReport := do
  let localHead ← git.headSha.mapErr .headLookup
  let (peerHead, bytes) ← Prog.done (askPeer json request localHead)
  receivePack git localHead peerHead bytes localId remoteId

end Stages

end Bypass
