import Bypass.Sync.Handlers

/-!
# Revoked peers

What the daemon does for a peer that is no longer in `peers.toml`. A handler starts from the pins in
memory; an inbound request and a discovery reload them first, and a tick of the watcher does not.
The invariant ties the pins to the time of the file: a file that still has the time which the daemon
saved lists every peer that is pinned.

* `Reloaded.current`: after a reload that succeeds, every pinned peer is listed.
* `revocation_effective`: runs in which nothing slips past the reloads.
-/

namespace Bypass

open Machine

variable {ids : PeerIdText}

/-- The file lists the peer; one that cannot be read lists none. -/
def PeersToml.Lists (ids : PeerIdText) (toml : PeersToml) (peer : PeerId) : Prop :=
  peer ∈ listed ids (toml.load.toOption.getD [])

instance (toml : PeersToml) (peer : PeerId) : Decidable (toml.Lists ids peer) :=
  inferInstanceAs (Decidable (_ ∈ _))

theorem PeersToml.lists_of_load {toml : PeersToml} {records : List PeerRecord} {peer : PeerId}
    (h : toml.load = .ok records) : toml.Lists ids peer ↔ peer ∈ listed ids records := by
  rw [Lists, h]
  rfl

namespace Node

/-- Every peer that is pinned is listed. -/
def Current (ids : PeerIdText) (node : Node) : Prop :=
  ∀ peer ∈ node.state.peers, node.peersToml.Lists ids peer

/-- So it is at least as long as the file has the time that was saved. -/
def Tied (ids : PeerIdText) (node : Node) : Prop :=
  node.peersToml.isFile = true → node.peersToml.mtime = node.state.peers_toml_mtime →
    node.Current ids

theorem Current.tied {node : Node} (h : node.Current ids) : node.Tied ids := fun _ _ => h

theorem Current.of_frame {node node' : Node} (h : node.Current ids)
    (htoml : node'.peersToml = node.peersToml)
    (hmem : ∀ p, p ∈ node'.state.peers → p ∈ node.state.peers) : node'.Current ids := by
  intro peer hpeer
  rw [htoml]
  exact h peer (hmem peer hpeer)

theorem Tied.of_frame {node node' : Node} (h : node.Tied ids)
    (htoml : node'.peersToml = node.peersToml)
    (htime : node'.state.peers_toml_mtime = node.state.peers_toml_mtime)
    (hmem : ∀ p, p ∈ node'.state.peers → p ∈ node.state.peers) : node'.Tied ids := by
  intro hfile hsame
  rw [htoml] at hfile hsame
  rw [htime] at hsame
  exact (h hfile hsame).of_frame htoml hmem

/-- The file can be looked at, and read if it comes to that. -/
def Readable (read : PeersToml) (node : Node) : Prop :=
  (node.peersToml = .missing ∨ node.peersToml.isFile = true) ∧
    (node.state.reads node.peersToml = true → read.load.isOk = true)

instance (read : PeersToml) (node : Node) : Decidable (node.Readable read) :=
  inferInstanceAs (Decidable (_ ∧ _))

end Node

/-- **After a reload that succeeds**, every pinned peer is listed. -/
theorem Reloaded.current {read : PeersToml} {node node' : Node} (h : Reloaded ids read node node')
    (htied : node.Tied ids) (hread : node.Readable read) : node'.Current ids := by
  obtain ⟨hstat, hload⟩ := hread
  cases h with
  | missing _ => exact fun peer hpeer => absurd hpeer Std.ExtTreeMap.not_mem_empty
  | noStat hfile =>
    rw [hfile] at hstat
    rcases hstat with hstat | hstat <;> cases hstat
  | same hfile hsame =>
    rw [Node.Tied, hfile] at htied
    exact htied rfl hsame
  | unread hfile hne herr =>
    have hok := hload (by rw [hfile]; exact decide_eq_true hne)
    rw [herr] at hok
    cases hok
  | loaded hfile hne hok =>
    intro peer hpeer
    exact (PeersToml.lists_of_load hok).2 (DaemonState.mem_applyPeers.1 hpeer)

section Runs

variable {git : Git} {F : Type} {json : Json F}

/-- What lets a peer in: an answer with a pack, and a sync that is started. -/
inductive Admits (json : Json F) : Shown F → PeerId → Prop
  | pack {peer frame head bytes} : Answers json frame (.pack head bytes) →
      Admits json (.reply peer frame) peer
  | start {peer addr} : Admits json (.start peer addr) peer

/-- **Nothing slips past the reloads.** A file has another time than the one saved; it can be read
where it is; and the peers that a tick of the watcher dials, which does not reload, are listed. -/
def SeesRevocations (ids : PeerIdText) (node : Node) : DaemonEvent F → Prop
  | .rewrite toml => toml.isFile = true → toml.mtime ≠ node.state.peers_toml_mtime
  | .inbound _ _ read _ => node.Readable read
  | .discovery _ read _ => node.Readable read
  | .watcher times => ∀ x ∈ node.collectKnownAddrs.1, node.ratelimit.Accepts x.1 (times x.1) →
      node.peersToml.Lists ids x.1
  | .change _ => True
  | .finished _ _ _ => True

instance (node : Node) (event : DaemonEvent F) : Decidable (SeesRevocations ids node event) :=
  match event with
  | .rewrite _ => inferInstanceAs (Decidable (_ → _))
  | .inbound _ _ read _ => inferInstanceAs (Decidable (node.Readable read))
  | .discovery _ read _ => inferInstanceAs (Decidable (node.Readable read))
  | .watcher _ => inferInstanceAs (Decidable (∀ x ∈ node.collectKnownAddrs.1, _))
  | .change _ => inferInstanceAs (Decidable True)
  | .finished _ _ _ => inferInstanceAs (Decidable True)

/-- **One move**: the file stays tied to the pins, and who is let in is listed. -/
theorem daemon_revokes {node node' : Node} {event : DaemonEvent F} {shown : List (Shown F)}
    (hx : daemon ids git json node event = some (node', shown))
    (hmeets : SeesRevocations ids node event) (htied : node.Tied ids) :
    node'.Tied ids ∧ ∀ out ∈ shown, ∀ peer, Admits json out peer →
      node'.peersToml.Lists ids peer := by
  cases event with
  | rewrite toml =>
    obtain ⟨rfl, rfl⟩ := Prod.mk.inj (Option.some.inj hx)
    exact ⟨fun hfile hsame => absurd hsame (hmeets hfile),
      fun out hout => absurd hout List.not_mem_nil⟩
  | change repo =>
    obtain ⟨rfl, rfl⟩ := Prod.mk.inj (Option.some.inj hx)
    exact ⟨htied.of_frame rfl rfl fun _ => id, fun out hout => absurd hout List.not_mem_nil⟩
  | inbound peer frame read now =>
    obtain ⟨⟨response, node₁⟩, hin, h⟩ := Option.map_eq_some_iff.1 hx
    obtain ⟨rfl, rfl⟩ := Prod.mk.inj h
    have hcurrent := (node.reload_reloaded ids read).current htied hmeets
    obtain ⟨hstate, htoml, -, hpinned⟩ := Node.handleInbound_cases hin
    have hcurrent' : node₁.Current ids := hcurrent.of_frame htoml fun p hp => hstate ▸ hp
    refine ⟨hcurrent'.tied, fun out hout q hadmits => ?_⟩
    obtain rfl := List.mem_singleton.1 hout
    cases hadmits with
    | pack hanswers =>
      rcases hpinned with hmem | ⟨reason, rfl⟩
      · exact hcurrent' _ (hstate ▸ hmem)
      · -- an error is no pack
        have herr := json.decode_encode (.err reason)
        unfold Answers at hanswers
        rw [errMsg, herr] at hanswers
        cases hanswers
  | discovery event read now =>
    have hcurrent := (node.reload_reloaded ids read).current htied hmeets
    rcases Node.handleDiscovery_cases ids event read node with
      ⟨peer, f, -, hdisco⟩ | ⟨peer, addr, entry, entry', hget, -, -, hdisco⟩
    · have h : some ((node.reload ids read).updateEntry peer f, []) = some (node', shown) := by
        simpa only [daemon, hdisco] using hx
      obtain ⟨rfl, rfl⟩ := Prod.mk.inj (Option.some.inj h)
      obtain ⟨htoml, -, -, -⟩ := (node.reload ids read).updateEntry_frame peer f
      exact ⟨(hcurrent.of_frame htoml fun p hp => Node.mem_updateEntry.1 hp).tied,
        fun out hout => absurd hout List.not_mem_nil⟩
    · have h : ((node.reload ids read).setEntry peer entry').spawnSyncWithPeer peer addr now =
          some (node', shown) := by simpa only [daemon, hdisco] using hx
      have hsome : (node.reload ids read).state.peers[peer]?.isSome := by rw [hget]; rfl
      have hset : ((node.reload ids read).setEntry peer entry').Current ids :=
        hcurrent.of_frame rfl fun p hp => (Node.mem_setEntry hsome).1 hp
      have hpeer : (node.reload ids read).peersToml.Lists ids peer :=
        hcurrent peer (Std.ExtTreeMap.mem_iff_isSome_getElem?.2 hsome)
      obtain ⟨ratelimit, -, hcases⟩ := Node.spawnSyncWithPeer_cases h
      rcases hcases with ⟨-, rfl, rfl⟩ | ⟨rfl, rfl⟩
      · refine ⟨(hset.of_frame rfl fun p hp => hp).tied, fun out hout q hadmits => ?_⟩
        obtain rfl := List.mem_singleton.1 hout
        cases hadmits
        exact hpeer
      · have hset' : ({ (node.reload ids read).setEntry peer entry' with ratelimit } : Node).Current
            ids := hset
        obtain ⟨htoml, -, -, -⟩ := Node.updateEntry_frame
          { (node.reload ids read).setEntry peer entry' with ratelimit } peer
          fun entry => { entry with in_flight := false }
        exact ⟨(hset'.of_frame htoml fun p hp => Node.mem_updateEntry.1 hp).tied,
          fun out hout => absurd hout List.not_mem_nil⟩
  | watcher times =>
    obtain ⟨htoml, htime, hmem, hstarts⟩ := Node.spawnAll_frame hx node.nodup_candidates
    refine ⟨htied.of_frame htoml htime fun p hp => Node.mem_collectKnownAddrs.1 ((hmem p).1 hp), ?_⟩
    intro out hout peer hadmits
    obtain ⟨q, addr, rfl, hcandidate, haccepts⟩ := hstarts out hout
    obtain rfl : q = peer := by
      cases hadmits
      rfl
    have hlists := hmeets (q, addr) hcandidate haccepts
    rwa [htoml]
  | finished peer result now =>
    obtain ⟨node₁, hfinish, h⟩ := Option.map_eq_some_iff.1 hx
    obtain ⟨rfl, rfl⟩ := Prod.mk.inj h
    obtain ⟨-, f, -, rfl⟩ := Node.finishSync_cases hfinish
    have htied' : ({ node with running := node.running.erase peer } : Node).Tied ids := htied
    obtain ⟨htoml, htime, -, -⟩ := Node.updateEntry_frame
      { node with running := node.running.erase peer } peer f
    exact ⟨htied'.of_frame htoml htime fun p hp => Node.mem_updateEntry.1 hp,
      fun out hout => absurd hout List.not_mem_nil⟩

/-- **Revocation is effective**, where nothing slips past the reloads: in every run of a daemon
whose start was not overtaken by a rewrite, every answer with a pack and every start of a sync is
for a peer that `peers.toml` lists at that moment. -/
theorem revocation_effective {loaded looked : PeersToml} {repo : Repo} {node₀ node : Node}
    {run : List (Move Node (DaemonEvent F) (Shown F))}
    (hinit : Node.init ids loaded looked repo = .ok node₀)
    (hstart : looked.isFile = true → ∀ peer, loaded.Lists ids peer → looked.Lists ids peer)
    (hrun : Runs (daemon ids git json) node₀ run node) 
    (hmeets : ∀ x ∈ run, SeesRevocations ids x.before x.event) :
    ∀ x ∈ run, ∀ out ∈ x.outputs, ∀ peer, Admits json out peer →
      x.after.peersToml.Lists ids peer := by
  have htied : node₀.Tied ids := by
    unfold Node.init at hinit
    cases hload : loaded.load with
    | error e =>
      rw [hload] at hinit
      cases hinit
    | ok records =>
      rw [hload] at hinit
      obtain rfl := Except.ok.inj hinit
      intro hfile _ peer hpeer
      refine hstart hfile peer ((PeersToml.lists_of_load hload).2 ?_)
      exact DaemonState.mem_applyPeers.1 hpeer
  exact hrun.moves (fun x hx => daemon_revokes hx) hmeets htied

end Runs

/-! ## A phone that was removed -/

/-- `peers.toml` with the phone, and without it. -/
def phoneToml : PeersToml := .file (some 1) (.ok [phoneRecord])

def emptyToml : PeersToml := .file (some 2) (.ok [])

def phoneAddr : Multiaddr := "/ip4/192.168.1.42/tcp/45678".toList

/-- The daemon as it starts, the file being as in `looked` when its time is taken. -/
def phoneNode (looked : PeersToml) : Node :=
  { peersToml := looked
    repo := leakRepo
    state := DaemonState.applyPeers deviceIds [phoneRecord] ⟨∅, looked.mtime⟩
    ratelimit := .new
    running := [] }

abbrev phoneDaemon : Machine Node (DaemonEvent WireMsg) (Shown WireMsg) :=
  daemon deviceIds leakGit plainJson

/-- The phone is seen and synced with, it is removed, and the store changes. -/
def tickEvents : List (DaemonEvent WireMsg) :=
  [.discovery (.discovered phone phoneAddr) phoneToml 0, .finished phone (some "UpToDate".toList) 0,
    .rewrite emptyToml, .watcher fun _ => 1]

def tickRun : List (Move Node (DaemonEvent WireMsg) (Shown WireMsg)) × Node :=
  (exec phoneDaemon (phoneNode phoneToml) tickEvents).get (by decide +kernel)

/-- The phone is removed before the daemon takes the time of the file, and asks for a pack. -/
def staleEvents : List (DaemonEvent WireMsg) :=
  [.inbound phone (wantPackFrom none none) emptyToml 0]

def staleRun : List (Move Node (DaemonEvent WireMsg) (Shown WireMsg)) × Node :=
  (exec phoneDaemon (phoneNode emptyToml) staleEvents).get (by decide +kernel)

/-- **A phone that was removed is let in**: a tick starts a sync with it; and where the file was
rewritten before its time was taken, a request is answered with a pack. -/
theorem revocation_can_fail :
    (Node.init deviceIds phoneToml phoneToml leakRepo = .ok (phoneNode phoneToml) ∧
      Runs phoneDaemon (phoneNode phoneToml) tickRun.1 tickRun.2 ∧
      ∃ x ∈ tickRun.1, ∃ out ∈ x.outputs, Admits plainJson out phone ∧
        ¬ x.after.peersToml.Lists deviceIds phone) ∧
    (Node.init deviceIds phoneToml emptyToml leakRepo = .ok (phoneNode emptyToml) ∧
      Runs phoneDaemon (phoneNode emptyToml) staleRun.1 staleRun.2 ∧
      ∃ x ∈ staleRun.1, ∃ out ∈ x.outputs, Admits plainJson out phone ∧
        ¬ x.after.peersToml.Lists deviceIds phone) := by
  have htick : ∃ x ∈ tickRun.1, Shown.start phone phoneAddr ∈ x.outputs ∧
      ¬ x.after.peersToml.Lists deviceIds phone := by decide +kernel
  have hstale : ∃ x ∈ staleRun.1, Shown.reply phone leakAnswer ∈ x.outputs ∧
      ¬ x.after.peersToml.Lists deviceIds phone := by decide +kernel
  obtain ⟨x, hx, hout, hlists⟩ := htick
  obtain ⟨y, hy, hout', hlists'⟩ := hstale
  exact ⟨⟨rfl, get_runs _, x, hx, _, hout, .start, hlists⟩,
    rfl, get_runs _, y, hy, _, hout', .pack rfl, hlists'⟩

/-- The phone is seen, asks for a pack and is removed, and then asks again. -/
def removedEvents : List (DaemonEvent WireMsg) :=
  [.discovery (.discovered phone phoneAddr) phoneToml 0,
    .inbound phone (wantPackFrom none none) phoneToml 0, .rewrite emptyToml,
    .inbound phone (wantPackFrom none none) emptyToml 1]

def removedRun : List (Move Node (DaemonEvent WireMsg) (Shown WireMsg)) × Node :=
  (exec phoneDaemon (phoneNode phoneToml) removedEvents).get (by decide +kernel)

theorem removedRun_runs : Runs phoneDaemon (phoneNode phoneToml) removedRun.1 removedRun.2 :=
  get_runs _

theorem revocation_effective_removed :
    removedRun.1.length = 4 ∧ ∀ x ∈ removedRun.1, ∀ out ∈ x.outputs, ∀ peer,
      Admits plainJson out peer → x.after.peersToml.Lists deviceIds peer :=
  ⟨by decide +kernel, revocation_effective
    (show Node.init deviceIds phoneToml phoneToml leakRepo = .ok (phoneNode phoneToml) from rfl)
    (fun _ _ h => h) removedRun_runs (by decide +kernel)⟩

end Bypass
