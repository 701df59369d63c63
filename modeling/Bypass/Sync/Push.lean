import Bypass.Sync.Decision
import Bypass.Sync.Revocation

/-!
# What a change of the store brings to a peer

The two ends of the sync that a tick of the watcher starts: the daemon that was woken by a change of
its store runs `run_one_sync`, and the request arrives at the daemon of the peer, which answers it.

* `handleInbound_repo`: a daemon that answers leaves its repository as it is.
* `tick_pulls`: so the peer has a commit afterwards exactly if it had it before.
-/

namespace Bypass

open Machine Prog

/-- `sync_action_name`. -/
def syncActionName : SyncAction → Str
  | .upToDate => "UpToDate".toList
  | .fastForwarded _ _ => "FastForwarded".toList
  | .peerBehind => "PeerBehind".toList
  | .rebased _ => "Rebased".toList
  | .awaitingPeerRebase => "AwaitingPeerRebase".toList
  | .rejectedLeak _ => "RejectedLeak".toList

/-- How `run_one_sync` fails. -/
inductive OneSyncError where
  | dial (e : Str)
  | sync (e : SyncError)

section Push

variable (ids : PeerIdText) (gitA gitB : Git) {F : Type} (json : Json F)

/-- `run_one_sync`, given how dialling ends. -/
def runOneSync (dialled : Except Str Unit) (request : F → Except Str F)
    (localPeerId peer : PeerId) : Prog Command Repo OneSyncError Str :=
  match dialled with
  | .error e => throw (.dial e)
  | .ok () => do
    let report ← (syncWithPeer gitA json request (ids.toBase58 localPeerId)
      (ids.toBase58 peer)).mapErr .sync
    pure (syncActionName report.action)

/-- The transport to a peer: a request is answered by its daemon, if it does not panic. -/
def requestInbound (peer : PeerId) (read : PeersToml) (now : Instant) (nodeB : Node) (frame : F) :
    Except Str F :=
  match nodeB.handleInbound ids gitB json peer frame read now with
  | some (response, _) => .ok response
  | none => .error "request was dropped before a response arrived".toList

/-- **A tick of the watcher of A**, the sync with B that it starts, the answer of B, and the end of
the task: how the sync ends, and the two nodes afterwards. There is no result where the tick starts
no sync with B. -/
def tickSync (idA idB : PeerId) (times : PeerId → Instant) (dialled : Except Str Unit)
    (read : PeersToml) (now : Instant) (unix : ℕ) (nodeA nodeB : Node) :
    Option (Except OneSyncError Str × Node × Node) := do
  let (nodeA, shown) ← daemon ids gitA json nodeA (.watcher times)
  if shown.any (fun out => match out with
      | .start peer _ => peer = idB
      | .reply _ _ => false) then
    let sync := (runOneSync ids gitA json dialled
      (requestInbound ids gitB json idA read now nodeB) idA idB).run nodeA.repo
    let frame := json.encode (wantPackFrom (headText nodeA.repo) none)
    let (nodeB, _) ← daemon ids gitB json nodeB (.inbound idA frame read now)
    let (nodeA, _) ← daemon ids gitA json nodeA (.change sync.2)
    let (nodeA, _) ← daemon ids gitA json nodeA (.finished idB sync.1.toOption unix)
    some (sync.1, nodeA, nodeB)
  else none

end Push

section Pull

variable {ids : PeerIdText} {gitA gitB : Git} {F : Type} {json : Json F}

/-- **Answering a request for a pack** leaves the repository as it is. -/
theorem handleInbound_repo {peer : PeerId} {head seen : Option Str} {read : PeersToml}
    {now : Instant} {node node' : Node} {response : F}
    (h : node.handleInbound ids gitB json peer (json.encode (wantPackFrom head seen)) read now =
      some (response, node')) : node'.repo = node.repo := by
  unfold Node.handleInbound at h
  dsimp only at h
  split at h
  · obtain ⟨-, rfl⟩ := Prod.mk.inj (Option.some.inj h)
    rfl
  · obtain ⟨⟨verdict, ratelimit⟩, -, h⟩ := Option.bind_eq_some_iff.1 h
    cases verdict with
    | error e =>
      obtain ⟨-, rfl⟩ := Prod.mk.inj (Option.some.inj h)
      rfl
    | ok _ =>
      obtain ⟨frame, body, hrun, -, -⟩ := serve_alone gitB
        (json.decode_encode (.wantPackFrom head seen)) (node.reload ids read).repo
      dsimp only at h
      rw [wantPackFrom, hrun] at h
      obtain ⟨-, rfl⟩ := Prod.mk.inj (Option.some.inj h)
      rfl

/-- **The sync that a change of the store starts only pulls**: however it ends, the peer has a
commit afterwards if and only if it had it before. -/
theorem tick_pulls {idA idB : PeerId} {times : PeerId → Instant} {dialled : Except Str Unit}
    {read : PeersToml} {now : Instant} {unix : ℕ} {nodeA nodeB nodeA' nodeB' : Node}
    {result : Except OneSyncError Str}
    (htick : tickSync ids gitA gitB json idA idB times dialled read now unix nodeA nodeB =
      some (result, nodeA', nodeB')) (c : Commit) :
    c ∈ nodeB'.repo.odb.commits ↔ c ∈ nodeB.repo.odb.commits := by
  unfold tickSync at htick
  obtain ⟨⟨nodeA₁, shown⟩, -, htick⟩ := Option.bind_eq_some_iff.1 htick
  dsimp only at htick
  split at htick
  · obtain ⟨⟨nodeB₁, replies⟩, hinbound, htick⟩ := Option.bind_eq_some_iff.1 htick
    obtain ⟨⟨nodeA₂, shown₂⟩, -, htick⟩ := Option.bind_eq_some_iff.1 htick
    obtain ⟨⟨nodeA₃, shown₃⟩, -, htick⟩ := Option.bind_eq_some_iff.1 htick
    obtain ⟨-, h⟩ := Prod.mk.inj (Option.some.inj htick)
    obtain ⟨-, rfl⟩ := Prod.mk.inj h
    obtain ⟨⟨response, nodeB₂⟩, hin, h⟩ := Option.map_eq_some_iff.1 hinbound
    obtain ⟨rfl, -⟩ := Prod.mk.inj h
    rw [handleInbound_repo hin]
  · cases htick

end Pull

/-! ## A change that stays at home -/

def laptopRecord : PeerRecord :=
  ⟨"laptop".toList, laptopText, "dead".toList, "2026-01-01T00:00:00Z".toList⟩

def laptopToml : PeersToml := .file (some 1) (.ok [laptopRecord])

def homeGit : Git := plainGit [([1], [sideBase])]

theorem homeLaptop_nodup : ([sideA, sideBase].map Merkle.sha).Nodup := by decide +kernel

theorem homeLaptop_mem : sideA ∈ [sideA, sideBase] := by simp

/-- The laptop: a commit on top of what the phone has, and the phone at a known address. -/
def homeLaptop : Node :=
  { peersToml := phoneToml
    repo := repoAt sideA [sideA, sideBase] homeLaptop_nodup homeLaptop_mem
    state := ⟨(∅ : Std.ExtTreeMap PeerId PeerEntry).insert phone
      ⟨"phone".toList, some phoneAddr, true, none, false⟩, some 1⟩
    ratelimit := .new
    running := [] }

/-- The phone, with the laptop pinned. -/
def homePhone : Node :=
  { peersToml := laptopToml
    repo := repoAt sideBase [sideBase] (by decide +kernel) (by simp)
    state := DaemonState.applyPeers deviceIds [laptopRecord] ⟨∅, some 1⟩
    ratelimit := .new
    running := [] }

def homeTick : Option (Except OneSyncError Str × Node × Node) :=
  tickSync deviceIds homeGit homeGit plainJson laptop phone (fun _ => 0) (.ok ()) laptopToml 0 0
    homeLaptop homePhone

theorem homeTick_isSome : homeTick.isSome = true := by decide +kernel

def homeSync : Except OneSyncError Str × Node × Node := homeTick.get homeTick_isSome

theorem homeTick_eq : homeTick = some (homeSync.1, homeSync.2.1, homeSync.2.2) :=
  (Option.some_get homeTick_isSome).symm

/-- **The change does not reach the phone**: the laptop's commit is on the phone's head, the sync
that the tick starts ends well, and the phone does not have the commit. -/
theorem change_stays :
    homeLaptop.repo.head = some sideA ∧ sideA.parents = [sideBase] ∧
      homePhone.repo.head = some sideBase ∧ homeSync.1.toOption = some "PeerBehind".toList ∧
      sideA ∉ homeSync.2.2.repo.odb.commits := 
  ⟨rfl, rfl, rfl, by decide +kernel, by decide +kernel⟩

theorem tick_pulls_home :
    sideBase ∈ homeSync.2.2.repo.odb.commits ↔ sideBase ∈ homePhone.repo.odb.commits :=
  tick_pulls homeTick_eq sideBase

end Bypass
