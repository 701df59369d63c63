import Bypass.Foundations.Runs
import Bypass.Sync.RateLimit
import Bypass.Sync.Serve

/-!
# The sync daemon

The loop of `daemon.rs`, as a machine. Its events are those that `run` selects from, the ends of
the syncs it started, and what other processes do to `peers.toml` and to the repository. The runtime
has one thread, and the handlers do not wait, so each event is handled as a whole; but the file is
looked at (`stat`) and read in two calls, and may be rewritten in between.

What a sync does to the repository is not part of the machine: it shows where it starts and ends,
and the repository may change at any time.
-/

namespace Bypass

/-- A peer id of libp2p: the bytes of a multihash. -/
abbrev PeerId := Bytes

/-- A network address. -/
abbrev Multiaddr := Str

/-- `libp2p_identity`: the written form of a peer id. -/
structure PeerIdText where
  parse : Str → Option PeerId
  toBase58 : PeerId → Str

/-! ## The file of pinned peers -/

/-- `PeerRecord`. -/
structure PeerRecord where
  name : Str
  peer_id : Str
  noise_static_key : Str
  paired_at : Str
  deriving DecidableEq

/-- What stands at the path of `peers.toml`: nothing, something that cannot be looked at, or a file
with a time and a content, which may be unreadable or no table of records. -/
inductive PeersToml where
  | missing
  | noStat (e : Str)
  | file (mtime : Option Instant) (content : Except Str (List PeerRecord))
  deriving DecidableEq

namespace PeersToml

/-- `Peers::load`. -/
def load : PeersToml → Except Str (List PeerRecord)
  | missing => .ok []
  | noStat e => .error e
  | file _ content => content

/-- `metadata(..).ok().and_then(|m| m.modified().ok())`. -/
def mtime : PeersToml → Option Instant
  | missing => none
  | noStat _ => none
  | file mtime _ => mtime

/-- There is a file. -/
def isFile : PeersToml → Bool
  | missing => false
  | noStat _ => false
  | file _ _ => true

end PeersToml

/-! ## The state -/

/-- `PeerEntry`. -/
structure PeerEntry where
  name : Str
  addr : Option Multiaddr
  discovered : Bool
  last_sync : Option (Str × ℕ)
  in_flight : Bool
  deriving DecidableEq

/-- `PeerEntry::from_record`. -/
def PeerEntry.fromRecord (record : PeerRecord) : PeerEntry := ⟨record.name, none, false, none, false⟩

/-- Where a peer can be dialled, if no sync with it is in flight. -/
def PeerEntry.dialAddr (entry : PeerEntry) : Option Multiaddr :=
  if entry.in_flight then none else entry.addr

/-- `DaemonState`; the path of the file is left out. -/
structure DaemonState where
  peers : Std.ExtTreeMap PeerId PeerEntry
  peers_toml_mtime : Option Instant

/-- `DiscoveryEvent`. -/
inductive DiscoveryEvent where
  | discovered (peer : PeerId) (addr : Multiaddr)
  | expired (peer : PeerId) (addr : Multiaddr)
  deriving DecidableEq

/-- A machine with its daemon: the file of peers, the repository, the state of the daemon, its books
of attempts, and the peers to which one of its sync tasks is running. -/
structure Node where
  peersToml : PeersToml
  repo : Repo
  state : DaemonState
  ratelimit : AttemptLog PeerId
  running : List PeerId

/-- What one turn of the loop shows: an answer, or the start of a sync task. -/
inductive Shown (F : Type) where
  | reply (peer : PeerId) (frame : F)
  | start (peer : PeerId) (addr : Multiaddr)
  deriving DecidableEq

section Handlers

variable (ids : PeerIdText)

namespace DaemonState

/-- One round of the loop of `apply_peers`: on the entries not yet taken, and those kept. -/
def keepRecord (entries : Std.ExtTreeMap PeerId PeerEntry × Std.ExtTreeMap PeerId PeerEntry)
    (record : PeerRecord) : Std.ExtTreeMap PeerId PeerEntry × Std.ExtTreeMap PeerId PeerEntry :=
  match ids.parse record.peer_id with
  | none => entries
  | some peer =>
    let entry := match entries.1[peer]? with
      | some e => { e with name := record.name }
      | none => PeerEntry.fromRecord record
    (entries.1.erase peer, entries.2.insert peer entry)

/-- `apply_peers`. -/
def applyPeers (records : List PeerRecord) (state : DaemonState) : DaemonState :=
  { state with peers := (records.foldl (keepRecord ids) (state.peers, ∅)).2 }

/-- Whether `reload_peers_if_changed` gets as far as reading the file. -/
def reads (looked : PeersToml) (state : DaemonState) : Bool :=
  match looked with
  | .file mtime _ => decide (mtime ≠ state.peers_toml_mtime)
  | _ => false

/-- `reload_peers_if_changed`, with what the file was when it was looked at, and when it was
read. -/
def reloadPeersIfChanged (looked read : PeersToml) (state : DaemonState) :
    Except Str Unit × DaemonState :=
  match looked with
  | .missing => (.ok (), { peers := ∅, peers_toml_mtime := none })
  | .noStat e => (.error e, state)
  | .file mtime _ =>
    if mtime = state.peers_toml_mtime then (.ok (), state)
    else match read.load with
      | .error e => (.error e, state)
      | .ok fresh => (.ok (), { applyPeers ids fresh state with peers_toml_mtime := mtime })

end DaemonState

namespace Node

/-- The reload that a handler begins with; an error is only printed. Where the file is read, it is
from then on what was read. -/
def reload (read : PeersToml) (node : Node) : Node :=
  { node with
    peersToml := if node.state.reads node.peersToml then read else node.peersToml
    state := (node.state.reloadPeersIfChanged ids node.peersToml read).2 }

/-- Put the entry of a peer that is pinned in place. -/
def setEntry (peer : PeerId) (entry : PeerEntry) (node : Node) : Node :=
  { node with state := { node.state with peers := node.state.peers.insert peer entry } }

/-- Change the entry of a peer, if it is pinned. -/
def updateEntry (peer : PeerId) (f : PeerEntry → PeerEntry) (node : Node) : Node :=
  match node.state.peers[peer]? with
  | none => node
  | some entry => node.setEntry peer (f entry)

/-- `handle_inbound`, with its answer. There is no result where the books of attempts panic. -/
def handleInbound (git : Git) {F : Type} (json : Json F) (peer : PeerId) (frame : F)
    (read : PeersToml) (now : Instant) (node : Node) : Option (F × Node) :=
  let node := node.reload ids read
  if peer ∉ node.state.peers then
    some (json.encode (errMsg "not a paired peer".toList), node)
  else do
    let (verdict, ratelimit) ← node.ratelimit.checkAndRecord peer now
    match verdict with
    | .error _ =>
      some (json.encode (errMsg "rate-limited (ADR-0016: 3 attempts / 60 s)".toList),
        { node with ratelimit })
    | .ok () =>
      match (serve git json frame).run node.repo with
      | (.ok response, repo) => some (response, { node with ratelimit, repo })
      | (.error e, _) => e.elim

/-- `handle_discovery`, with the peer to dial. -/
def handleDiscovery (event : DiscoveryEvent) (read : PeersToml) (node : Node) :
    Option (PeerId × Multiaddr) × Node :=
  let node := node.reload ids read
  match event with
  | .discovered peer addr =>
    match node.state.peers[peer]? with
    | none => (none, node)
    | some entry =>
      let entry := { entry with discovered := true, addr := some addr }
      if entry.in_flight then (none, node.setEntry peer entry)
      else (some (peer, addr), node.setEntry peer { entry with in_flight := true })
  | .expired peer _ =>
    (none, node.updateEntry peer fun entry => { entry with discovered := false })

/-- `collect_known_addrs`. -/
def collectKnownAddrs (node : Node) : List (PeerId × Multiaddr) × Node :=
  (node.state.peers.toList.filterMap fun (peer, entry) => entry.dialAddr.map fun addr => (peer, addr),
    { node with state := { node.state with
        peers := node.state.peers.map fun _ entry =>
          { entry with in_flight := entry.in_flight || entry.dialAddr.isSome } } })

/-- `spawn_sync_with_peer`: start the task, unless the budget of the peer is used up. -/
def spawnSyncWithPeer {F : Type} (peer : PeerId) (addr : Multiaddr) (now : Instant) (node : Node) :
    Option (Node × List (Shown F)) := do
  let (verdict, ratelimit) ← node.ratelimit.checkAndRecord peer now
  let node := { node with ratelimit }
  match verdict with
  | .error _ => some (node.updateEntry peer fun entry => { entry with in_flight := false }, [])
  | .ok () => some ({ node with running := peer :: node.running }, [.start peer addr])

/-- The loop over the candidates of a tick, each with a reading of the clock of its own. -/
def spawnAll {F : Type} (now : PeerId → Instant) :
    List (PeerId × Multiaddr) → Node → Option (Node × List (Shown F))
  | [], node => some (node, [])
  | (peer, addr) :: rest, node => do
    let (node, shown) ← node.spawnSyncWithPeer peer addr (now peer)
    let (node, shown') ← spawnAll now rest node
    some (node, shown ++ shown')

/-- The end of a sync task, with the name of what it did, if it did not fail. -/
def finishSync (peer : PeerId) (result : Option Str) (now : ℕ) (node : Node) : Option Node :=
  if peer ∈ node.running then
    let node := { node with running := node.running.erase peer }
    some (node.updateEntry peer fun entry =>
      { entry with
        in_flight := false
        last_sync := match result with
          | some action_name => some (action_name, now)
          | none => entry.last_sync })
  else none

end Node

/-! ## The machine -/

/-- What happens to a daemon, and around it. -/
inductive DaemonEvent (F : Type) where
  /-- Another process leaves this at the path of `peers.toml`. -/
  | rewrite (peersToml : PeersToml)
  /-- A sync or another process has changed the repository. -/
  | change (repo : Repo)
  | inbound (peer : PeerId) (frame : F) (read : PeersToml) (now : Instant)
  | discovery (event : DiscoveryEvent) (read : PeersToml) (now : Instant)
  | watcher (now : PeerId → Instant)
  | finished (peer : PeerId) (result : Option Str) (now : ℕ)

/-- `run`. -/
def daemon (git : Git) {F : Type} (json : Json F) : Machine Node (DaemonEvent F) (Shown F)
  | node, .rewrite peersToml => some ({ node with peersToml }, [])
  | node, .change repo => some ({ node with repo }, [])
  | node, .inbound peer frame read now =>
    (node.handleInbound ids git json peer frame read now).map fun (response, node) =>
      (node, [.reply peer response])
  | node, .discovery event read now =>
    match node.handleDiscovery ids event read with
    | (none, node) => some (node, [])
    | (some (peer, addr), node) => node.spawnSyncWithPeer peer addr now
  | node, .watcher now => node.collectKnownAddrs.2.spawnAll now node.collectKnownAddrs.1
  | node, .finished peer result now => (node.finishSync peer result now).map fun node => (node, [])

/-- How a daemon starts: the table was loaded when the file was as in `loaded`, and its time is
taken when it is as in `looked`. -/
def Node.init (loaded looked : PeersToml) (repo : Repo) : Except Str Node :=
  loaded.load.map fun records =>
    { peersToml := looked
      repo
      state := DaemonState.applyPeers ids records ⟨∅, looked.mtime⟩
      ratelimit := .new
      running := [] }

end Handlers

/-! ## Two devices -/

/-- The written form of the ids in a table. -/
def tableIds (table : List (Str × PeerId)) : PeerIdText where
  parse s := (table.find? fun x => x.1 = s).map Prod.snd
  toBase58 peer := ((table.find? fun x => x.2 = peer).map Prod.fst).getD []

def phoneText : Str := "12D3KooWQK1wnefoLrcVHbbnf5tLzbopUd3K3bFAoJpA7YJgL5pV".toList

/-- The id of an Ed25519 key: the multihash of its protobuf form. -/
def phone : PeerId := [0, 36, 8, 1, 18, 32, 215, 90, 152, 1, 130, 177, 10, 183, 213, 75, 254, 211,
  201, 100, 7, 58, 14, 225, 114, 243, 218, 166, 35, 37, 175, 2, 26, 104, 247, 7, 81, 26]

def laptopText : Str := "12D3KooWDwTirQce1RRKnasT5fPVFgzXCy6SiRgSwrwPGLC7zE91".toList

def laptop : PeerId := [0, 36, 8, 1, 18, 32, 61, 64, 23, 195, 232, 67, 137, 90, 146, 183, 10, 167,
  77, 27, 126, 188, 156, 152, 44, 207, 46, 196, 150, 140, 192, 205, 85, 241, 42, 244, 102, 12]

def deviceIds : PeerIdText := tableIds [(phoneText, phone), (laptopText, laptop)]

def phoneRecord : PeerRecord :=
  ⟨"phone".toList, phoneText, "dead".toList, "2026-01-01T00:00:00Z".toList⟩

end Bypass
