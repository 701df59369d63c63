import Bypass.Sync.Daemon

/-!
# What the handlers of the daemon do

Each handler is described once, by what it leaves of the pins, the file and the tasks, so that the
invariants of the daemon need not open its code.

* `applyPeers_inFlight`, `mem_applyPeers`: what a reload makes of the entry of a peer.
* `handleInbound_cases`, `handleDiscovery_cases`, `spawnSyncWithPeer_cases`, `finishSync_cases`:
  what each handler does.
* `spawnAll_frame`: what the loop of a tick leaves alone, and what it starts.
-/

namespace Bypass

variable {ids : PeerIdText}

/-! ## Reloading -/

/-- The peer ids that a table lists, as often as it does. -/
def listed (ids : PeerIdText) (records : List PeerRecord) : List PeerId :=
  records.filterMap fun record => ids.parse record.peer_id

namespace DaemonState

variable {records : List PeerRecord} {state : DaemonState} {p : PeerId}

/-- The loop of `apply_peers`, seen from one peer: its first record takes the entry, any later one
starts afresh. -/
theorem keepRecords_inFlight (old keep : Std.ExtTreeMap PeerId PeerEntry) :
    ((records.foldl (keepRecord ids) (old, keep)).2[p]?).map PeerEntry.in_flight =
      match (listed ids records).count p with
      | 0 => keep[p]?.map PeerEntry.in_flight
      | 1 => some ((old[p]?.map PeerEntry.in_flight).getD false)
      | _ + 2 => some false := by
  induction records generalizing old keep with
  | nil => rfl
  | cons record records ih =>
    rw [List.foldl_cons]
    cases hparse : ids.parse record.peer_id with
    | none =>
      have hlisted : listed ids (record :: records) = listed ids records := by
        rw [listed, List.filterMap_cons, hparse]
        rfl
      have hkeep : keepRecord ids (old, keep) record = (old, keep) := by
        simp only [keepRecord, hparse]
      rw [hlisted, hkeep]
      exact ih old keep
    | some q =>
      have hlisted : listed ids (record :: records) = q :: listed ids records := by
        rw [listed, List.filterMap_cons, hparse]
        rfl
      simp only [keepRecord, hparse]
      rw [hlisted, ih]
      by_cases hq : q = p
      · subst hq
        rw [List.count_cons_self, Std.ExtTreeMap.getElem?_erase_self,
          Std.ExtTreeMap.getElem?_insert_self]
        cases (listed ids records).count q with
        | zero => cases old[q]? <;> rfl
        | succ n => cases n <;> rfl
      · have hcmp : compare q p ≠ .eq := fun h => hq (Std.LawfulEqOrd.eq_of_compare h)
        rw [List.count_cons_of_ne hq, Std.ExtTreeMap.getElem?_erase, if_neg hcmp,
          Std.ExtTreeMap.getElem?_insert, if_neg hcmp]

theorem applyPeers_inFlight (ids : PeerIdText) (records : List PeerRecord) (state : DaemonState)
    (p : PeerId) :
    ((applyPeers ids records state).peers[p]?).map PeerEntry.in_flight =
      match (listed ids records).count p with
      | 0 => none
      | 1 => some ((state.peers[p]?.map PeerEntry.in_flight).getD false)
      | _ + 2 => some false := by
  rw [applyPeers, keepRecords_inFlight]
  rfl

/-- **A reload pins exactly the peers that are listed.** -/
theorem mem_applyPeers : p ∈ (applyPeers ids records state).peers ↔ p ∈ listed ids records := by
  rw [Std.ExtTreeMap.mem_iff_isSome_getElem?, ← Option.isSome_map (f := PeerEntry.in_flight),
    applyPeers_inFlight, ← List.count_pos_iff]
  cases (listed ids records).count p with
  | zero => simp
  | succ n => cases n <;> simp

end DaemonState

/-- **What a reload does**, by what stands at the path. -/
inductive Reloaded (ids : PeerIdText) (read : PeersToml) (node : Node) : Node → Prop
  | missing : node.peersToml = .missing →
      Reloaded ids read node { node with state := ⟨∅, none⟩ }
  | noStat {e} : node.peersToml = .noStat e → Reloaded ids read node node
  | same {mtime content} : node.peersToml = .file mtime content →
      mtime = node.state.peers_toml_mtime → Reloaded ids read node node
  | unread {mtime content e} : node.peersToml = .file mtime content →
      mtime ≠ node.state.peers_toml_mtime → read.load = .error e →
      Reloaded ids read node { node with peersToml := read }
  | loaded {mtime content fresh} : node.peersToml = .file mtime content →
      mtime ≠ node.state.peers_toml_mtime → read.load = .ok fresh →
      Reloaded ids read node
        { node with
          peersToml := read
          state := { DaemonState.applyPeers ids fresh node.state with peers_toml_mtime := mtime } }

theorem Node.reload_reloaded (ids : PeerIdText) (read : PeersToml) (node : Node) :
    Reloaded ids read node (node.reload ids read) := by
  rcases node with ⟨peersToml, repo, state, ratelimit, running⟩
  cases peersToml with
  | missing => exact .missing rfl
  | noStat e => exact .noStat rfl
  | file mtime content =>
    by_cases hsame : mtime = state.peers_toml_mtime
    · have hreload : Node.reload ids read ⟨.file mtime content, repo, state, ratelimit, running⟩ =
          ⟨.file mtime content, repo, state, ratelimit, running⟩ := by
        simp [Node.reload, DaemonState.reads, DaemonState.reloadPeersIfChanged, hsame]
      rw [hreload]
      exact .same rfl hsame
    · cases hload : read.load with
      | error e =>
        have hreload : Node.reload ids read ⟨.file mtime content, repo, state, ratelimit, running⟩ =
            ⟨read, repo, state, ratelimit, running⟩ := by
          simp [Node.reload, DaemonState.reads, DaemonState.reloadPeersIfChanged, hsame, hload]
        rw [hreload]
        exact .unread rfl hsame hload
      | ok fresh =>
        have hreload : Node.reload ids read ⟨.file mtime content, repo, state, ratelimit, running⟩ =
            ⟨read, repo, { DaemonState.applyPeers ids fresh state with peers_toml_mtime := mtime },
              ratelimit, running⟩ := by
          simp [Node.reload, DaemonState.reads, DaemonState.reloadPeersIfChanged, hsame, hload]
        rw [hreload]
        exact .loaded rfl hsame hload

/-! ## Entries -/

namespace Node

variable {F : Type} {node node' : Node} {peer p : PeerId} {entry : PeerEntry} {addr : Multiaddr}
  {f : PeerEntry → PeerEntry} {now : Instant} {shown : List (Shown F)}

theorem getElem?_setEntry : (node.setEntry peer entry).state.peers[p]? =
    if p = peer then some entry else node.state.peers[p]? := by
  rw [setEntry, Std.ExtTreeMap.getElem?_insert]
  by_cases h : p = peer
  · rw [if_pos h, if_pos (by rw [h, Std.ReflOrd.compare_self])]
  · rw [if_neg h, if_neg fun hcmp => h (Std.LawfulEqOrd.eq_of_compare hcmp).symm]

theorem getElem?_updateEntry : (node.updateEntry peer f).state.peers[p]? =
    if p = peer then node.state.peers[p]?.map f else node.state.peers[p]? := by
  unfold updateEntry
  split
  · next hnone =>
    split_ifs with h
    · rw [h, hnone, Option.map_none]
    · rfl
  · next entry hsome =>
    rw [getElem?_setEntry]
    split_ifs with h
    · rw [h, hsome, Option.map_some]
    · rfl

theorem getElem?_collectKnownAddrs : node.collectKnownAddrs.2.state.peers[p]? =
    node.state.peers[p]?.map fun entry =>
      { entry with in_flight := entry.in_flight || entry.dialAddr.isSome } := by
  rw [collectKnownAddrs, Std.ExtTreeMap.getElem?_map]

/-- A change of an entry touches neither the file, nor the time, nor the tasks. -/
theorem updateEntry_frame (node : Node) (peer : PeerId) (f : PeerEntry → PeerEntry) :
    (node.updateEntry peer f).peersToml = node.peersToml ∧
    (node.updateEntry peer f).state.peers_toml_mtime = node.state.peers_toml_mtime ∧
    (node.updateEntry peer f).running = node.running ∧
    (node.updateEntry peer f).ratelimit = node.ratelimit := by
  unfold updateEntry
  split <;> exact ⟨rfl, rfl, rfl, rfl⟩

/-- **What spawning does**: start the task, or give the flag back. -/
theorem spawnSyncWithPeer_cases
    (h : node.spawnSyncWithPeer peer addr now = some (node', shown)) :
    ∃ ratelimit, (∀ other t, other ≠ peer →
        (ratelimit.Accepts other t ↔ node.ratelimit.Accepts other t)) ∧
      (node.ratelimit.Accepts peer now ∧ shown = [.start peer addr] ∧
          node' = { node with ratelimit, running := peer :: node.running } ∨
        shown = [] ∧ node' = ({ node with ratelimit } : Node).updateEntry peer fun entry =>
          { entry with in_flight := false }) := by
  unfold spawnSyncWithPeer at h
  obtain ⟨⟨verdict, ratelimit⟩, hlog, h⟩ := Option.bind_eq_some_iff.1 h
  refine ⟨ratelimit, fun other t hne => AttemptLog.accepts_other hne hlog, ?_⟩
  cases verdict with
  | error e =>
    obtain ⟨rfl, rfl⟩ := Prod.mk.inj (Option.some.inj h)
    exact Or.inr ⟨rfl, rfl⟩
  | ok _ =>
    obtain ⟨rfl, rfl⟩ := Prod.mk.inj (Option.some.inj h)
    exact Or.inl ⟨AttemptLog.accepts_of_ok hlog, rfl, rfl⟩

theorem mem_updateEntry : p ∈ (node.updateEntry peer f).state.peers ↔ p ∈ node.state.peers := by
  rw [Std.ExtTreeMap.mem_iff_isSome_getElem?, getElem?_updateEntry,
    Std.ExtTreeMap.mem_iff_isSome_getElem?]
  split_ifs
  · rw [Option.isSome_map]
  · rfl

theorem mem_setEntry (hget : node.state.peers[peer]?.isSome) :
    p ∈ (node.setEntry peer entry).state.peers ↔ p ∈ node.state.peers := by
  rw [Std.ExtTreeMap.mem_iff_isSome_getElem?, getElem?_setEntry,
    Std.ExtTreeMap.mem_iff_isSome_getElem?]
  split_ifs with h
  · rw [h, hget, Option.isSome_some]
  · rfl

theorem mem_collectKnownAddrs :
    p ∈ node.collectKnownAddrs.2.state.peers ↔ p ∈ node.state.peers := by
  rw [Std.ExtTreeMap.mem_iff_isSome_getElem?, getElem?_collectKnownAddrs, Option.isSome_map,
    Std.ExtTreeMap.mem_iff_isSome_getElem?]

theorem mem_candidates : (p, addr) ∈ node.collectKnownAddrs.1 ↔
    ∃ entry, node.state.peers[p]? = some entry ∧ entry.dialAddr = some addr := by
  simp only [collectKnownAddrs, List.mem_filterMap, Option.map_eq_some_iff, Prod.mk.injEq,
    Prod.exists, Std.ExtTreeMap.mem_toList_iff_getElem?_eq_some]
  constructor
  · rintro ⟨q, entry, hget, a, hdial, rfl, rfl⟩
    exact ⟨entry, hget, hdial⟩
  · rintro ⟨entry, hget, hdial⟩
    exact ⟨p, entry, hget, addr, hdial, rfl, rfl⟩

/-- No peer is a candidate twice. -/
theorem nodup_candidates (node : Node) : (node.collectKnownAddrs.1.map Prod.fst).Nodup := by
  have hkeys : (node.state.peers.toList.map Prod.fst).Nodup := by
    rw [List.nodup_iff_pairwise_ne, List.pairwise_map]
    refine Std.ExtTreeMap.distinct_keys_toList.imp fun hcmp heq => hcmp ?_
    rw [heq, Std.ReflOrd.compare_self]
  refine hkeys.sublist ?_
  rw [collectKnownAddrs, List.map_filterMap]
  induction node.state.peers.toList with
  | nil => exact List.Sublist.slnil
  | cons x l ih =>
    rw [List.map_cons]
    cases hdial : x.2.dialAddr with
    | none =>
      rw [List.filterMap_cons_none (by simp [hdial])]
      exact ih.cons _
    | some addr =>
      rw [List.filterMap_cons_some (show _ = some x.1 by simp [hdial])]
      exact ih.cons_cons _

/-- **What spawning leaves alone**, and what it starts. -/
theorem spawnAll_frame {times : PeerId → Instant} {l : List (PeerId × Multiaddr)}
    (h : node.spawnAll times l = some (node', shown)) (hl : (l.map Prod.fst).Nodup) :
    node'.peersToml = node.peersToml ∧
      node'.state.peers_toml_mtime = node.state.peers_toml_mtime ∧
      (∀ p, p ∈ node'.state.peers ↔ p ∈ node.state.peers) ∧
      ∀ out ∈ shown, ∃ peer addr, out = .start peer addr ∧ (peer, addr) ∈ l ∧
        node.ratelimit.Accepts peer (times peer) := by
  induction l generalizing node shown with
  | nil =>
    obtain ⟨rfl, rfl⟩ := Prod.mk.inj (Option.some.inj h)
    exact ⟨rfl, rfl, fun p => Iff.rfl, fun out hout => absurd hout List.not_mem_nil⟩
  | cons x l ih =>
    obtain ⟨peer, addr⟩ := x
    obtain ⟨⟨node₁, shown₁⟩, hspawn, h⟩ := Option.bind_eq_some_iff.1 h
    obtain ⟨⟨node₂, shown₂⟩, hrest, h⟩ := Option.bind_eq_some_iff.1 h
    obtain ⟨rfl, rfl⟩ := Prod.mk.inj (Option.some.inj h)
    rw [List.map_cons, List.nodup_cons] at hl
    obtain ⟨htoml, htime, hmem, hstarts⟩ := ih hrest hl.2
    obtain ⟨ratelimit, hother, hcases⟩ := spawnSyncWithPeer_cases hspawn
    have hframe : node₁.peersToml = node.peersToml ∧
        node₁.state.peers_toml_mtime = node.state.peers_toml_mtime ∧
        (∀ p, p ∈ node₁.state.peers ↔ p ∈ node.state.peers) ∧ node₁.ratelimit = ratelimit := by
      rcases hcases with ⟨-, -, rfl⟩ | ⟨-, rfl⟩
      · exact ⟨rfl, rfl, fun p => Iff.rfl, rfl⟩
      · obtain ⟨h₁, h₂, -, h₄⟩ := updateEntry_frame { node with ratelimit } peer
          fun entry => { entry with in_flight := false }
        exact ⟨h₁, h₂, fun p => mem_updateEntry, h₄⟩
    obtain ⟨htoml₁, htime₁, hmem₁, hlog⟩ := hframe
    refine ⟨htoml.trans htoml₁, htime.trans htime₁, fun p => (hmem p).trans (hmem₁ p), ?_⟩
    intro out hout
    rcases List.mem_append.1 hout with hout | hout
    · rcases hcases with ⟨haccepts, rfl, -⟩ | ⟨rfl, -⟩
      · obtain rfl := List.mem_singleton.1 hout
        exact ⟨peer, addr, rfl, List.mem_cons_self, haccepts⟩
      · cases hout
    · obtain ⟨q, a, rfl, hmemq, haccepts⟩ := hstarts out hout
      have hne : q ≠ peer := fun heq => hl.1 (List.mem_map.2 ⟨(q, a), hmemq, heq⟩)
      rw [hlog, hother q _ hne] at haccepts
      exact ⟨q, a, rfl, List.mem_cons_of_mem _ hmemq, haccepts⟩

/-- **What a discovery does** after the reload: it dials a peer that has no sync in flight, or it
changes no flag. -/
theorem handleDiscovery_cases (ids : PeerIdText) (event : DiscoveryEvent) (read : PeersToml)
    (node : Node) :
    (∃ peer f, (∀ entry : PeerEntry, (f entry).in_flight = entry.in_flight) ∧
        node.handleDiscovery ids event read = (none, (node.reload ids read).updateEntry peer f)) ∨
      ∃ peer addr entry entry', (node.reload ids read).state.peers[peer]? = some entry ∧
        entry.in_flight = false ∧ entry'.in_flight = true ∧
        node.handleDiscovery ids event read =
          (some (peer, addr), (node.reload ids read).setEntry peer entry') := by
  unfold handleDiscovery
  cases event with
  | expired peer addr =>
    exact Or.inl ⟨peer, fun entry => { entry with discovered := false }, fun _ => rfl, rfl⟩
  | discovered peer addr =>
    dsimp only
    cases hget : (node.reload ids read).state.peers[peer]? with
    | none =>
      refine Or.inl ⟨peer, id, fun _ => rfl, ?_⟩
      rw [updateEntry, hget]
    | some entry =>
      dsimp only
      cases hflight : entry.in_flight with
      | true =>
        refine Or.inl ⟨peer, fun e => { e with discovered := true, addr := some addr },
          fun _ => rfl, ?_⟩
        rw [if_pos rfl]
        simp only [updateEntry, hget, hflight]
      | false =>
        refine Or.inr ⟨peer, addr, entry,
          { entry with discovered := true, addr := some addr, in_flight := true }, hget, hflight, rfl, ?_⟩
        rw [if_neg (by simp)]

/-- **What the end of a sync does**: the flag of its peer is given back. -/
theorem finishSync_cases {result : Option Str} {unix : ℕ}
    (h : node.finishSync peer result unix = some node') :
    peer ∈ node.running ∧ ∃ f, (∀ entry : PeerEntry, (f entry).in_flight = false) ∧
      node' = ({ node with running := node.running.erase peer } : Node).updateEntry peer f := by
  unfold finishSync at h
  split at h
  · next hmem => exact ⟨hmem, _, fun _ => rfl, (Option.some.inj h).symm⟩
  · cases h

/-- **What answering does** after the reload: nothing to the pins, the file and the tasks, and the
answer is not a pack unless the peer is pinned. -/
theorem handleInbound_cases {git : Git} {json : Json F} {frame response : F} {read : PeersToml}
    (h : node.handleInbound ids git json peer frame read now = some (response, node')) :
    node'.state = (node.reload ids read).state ∧
      node'.peersToml = (node.reload ids read).peersToml ∧
      node'.running = (node.reload ids read).running ∧
      (peer ∈ (node.reload ids read).state.peers ∨
        ∃ reason, response = json.encode (errMsg reason)) := by
  unfold handleInbound at h
  dsimp only at h
  split at h
  · obtain ⟨rfl, rfl⟩ := Prod.mk.inj (Option.some.inj h)
    exact ⟨rfl, rfl, rfl, Or.inr ⟨_, rfl⟩⟩
  · next hmem =>
    obtain ⟨⟨verdict, ratelimit⟩, -, h⟩ := Option.bind_eq_some_iff.1 h
    cases verdict with
    | error e =>
      obtain ⟨rfl, rfl⟩ := Prod.mk.inj (Option.some.inj h)
      exact ⟨rfl, rfl, rfl, Or.inr ⟨_, rfl⟩⟩
    | ok _ =>
      dsimp only at h
      split at h
      · obtain ⟨rfl, rfl⟩ := Prod.mk.inj (Option.some.inj h)
        exact ⟨rfl, rfl, rfl, Or.inl (not_not.1 hmem)⟩
      · next e _ _ => exact e.elim

end Node

end Bypass
