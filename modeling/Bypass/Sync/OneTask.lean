import Bypass.Sync.Revocation

/-!
# One sync task a peer

The flag `in_flight` of a peer that is pinned is there so that no second sync with it is started.
It is set when the daemon decides to dial, and given back when the budget of the peer is used up or
the task ends. In between, a decision is pending: the invariant says that the flag is set exactly
for the peers with a task that runs or a decision that is pending.

A reload rebuilds the entries, and with them the flags. `one_task` is about the runs whose reloads
lose none of those that are set.
-/

namespace Bypass

open Machine

variable {ids : PeerIdText}

namespace Node

/-- At most one task a peer; and the flag of a pinned peer says whether there is one. -/
def OneTask (node : Node) : Prop :=
  node.running.Nodup ∧ ∀ p entry, node.state.peers[p]? = some entry →
    (entry.in_flight = true ↔ p ∈ node.running)

/-- The same, with decisions to dial that are pending. -/
structure Flags (node : Node) (pending : List PeerId) : Prop where
  running : node.running.Nodup
  decided : pending.Nodup
  apart : ∀ p ∈ pending, p ∉ node.running
  flag : ∀ p entry, node.state.peers[p]? = some entry →
    (entry.in_flight = true ↔ p ∈ pending ∨ p ∈ node.running)

variable {F : Type} {node node' : Node} {peer : PeerId} {addr : Multiaddr} {now : Instant}
  {pending : List PeerId} {shown : List (Shown F)} {f : PeerEntry → PeerEntry}

theorem flags_nil : node.Flags [] ↔ node.OneTask := by
  constructor
  · intro h
    exact ⟨h.running, fun p entry hget => by simpa using h.flag p entry hget⟩
  · rintro ⟨hrunning, hflag⟩
    exact ⟨hrunning, List.nodup_nil, fun p hp => absurd hp List.not_mem_nil,
      fun p entry hget => by simpa using hflag p entry hget⟩

theorem Flags.updateEntry (h : node.Flags pending)
    (hf : ∀ entry : PeerEntry, (f entry).in_flight = entry.in_flight) :
    (node.updateEntry peer f).Flags pending := by
  obtain ⟨-, -, hrunning, -⟩ := node.updateEntry_frame peer f
  refine ⟨hrunning ▸ h.running, h.decided, fun p hp => hrunning ▸ h.apart p hp, ?_⟩
  intro p entry hget
  rw [hrunning]
  rw [getElem?_updateEntry] at hget
  split_ifs at hget with hp
  · obtain ⟨old, hold, rfl⟩ := Option.map_eq_some_iff.1 hget
    rw [hf]
    exact h.flag p old hold
  · exact h.flag p entry hget

/-- To give the flag back is to drop the decision. -/
theorem Flags.clear (h : node.Flags (peer :: pending))
    (hf : ∀ entry : PeerEntry, (f entry).in_flight = false) :
    (node.updateEntry peer f).Flags pending := by
  obtain ⟨-, -, hrunning, -⟩ := node.updateEntry_frame peer f
  obtain ⟨hnot, hpending⟩ := List.nodup_cons.1 h.decided
  refine ⟨hrunning ▸ h.running, hpending,
    fun p hp => hrunning ▸ h.apart p (List.mem_cons_of_mem _ hp), ?_⟩
  intro p entry hget
  rw [hrunning]
  rw [getElem?_updateEntry] at hget
  split_ifs at hget with hp
  · obtain ⟨old, -, rfl⟩ := Option.map_eq_some_iff.1 hget
    have hidle := h.apart peer List.mem_cons_self
    rw [hf, hp]
    simp [hnot, hidle]
  · rw [h.flag p entry hget, List.mem_cons, or_iff_right hp]

/-- **Spawning settles a decision**: the task runs, or the flag is given back. -/
theorem Flags.spawn (h : node.Flags (peer :: pending))
    (hspawn : node.spawnSyncWithPeer peer addr now = some (node', shown)) : node'.Flags pending := by
  obtain ⟨ratelimit, -, hcases⟩ := spawnSyncWithPeer_cases hspawn
  have h' : ({ node with ratelimit } : Node).Flags (peer :: pending) :=
    ⟨h.running, h.decided, h.apart, h.flag⟩
  rcases hcases with ⟨-, -, rfl⟩ | ⟨-, rfl⟩
  · obtain ⟨hnot, hpending⟩ := List.nodup_cons.1 h.decided
    refine ⟨List.nodup_cons.2 ⟨h.apart peer List.mem_cons_self, h.running⟩, hpending, ?_, ?_⟩
    · intro p hp hmem
      rcases List.mem_cons.1 hmem with rfl | hmem
      · exact hnot hp
      · exact h.apart p (List.mem_cons_of_mem _ hp) hmem
    · intro p entry hget
      rw [h.flag p entry hget]
      simp only [List.mem_cons]
      tauto
  · exact h'.clear fun _ => rfl

theorem Flags.spawnAll {times : PeerId → Instant} {l : List (PeerId × Multiaddr)}
    (h : node.Flags (l.map Prod.fst)) (hspawn : node.spawnAll times l = some (node', shown)) :
    node'.Flags [] := by
  induction l generalizing node shown with
  | nil =>
    obtain ⟨rfl, rfl⟩ := Prod.mk.inj (Option.some.inj hspawn)
    exact h
  | cons x l ih =>
    obtain ⟨peer, addr⟩ := x
    obtain ⟨⟨node₁, shown₁⟩, hone, hspawn⟩ := Option.bind_eq_some_iff.1 hspawn
    obtain ⟨⟨node₂, shown₂⟩, hrest, hspawn⟩ := Option.bind_eq_some_iff.1 hspawn
    obtain ⟨rfl, rfl⟩ := Prod.mk.inj (Option.some.inj hspawn)
    exact ih (h.spawn hone) hrest

/-- **A tick decides for the candidates**, none of which has a task that runs. -/
theorem Flags.collect (h : node.Flags []) :
    node.collectKnownAddrs.2.Flags (node.collectKnownAddrs.1.map Prod.fst) := by
  have hcandidate : ∀ p entry, node.state.peers[p]? = some entry →
      (p ∈ node.collectKnownAddrs.1.map Prod.fst ↔ entry.dialAddr.isSome = true) := by
    intro p entry hget
    rw [List.mem_map, Option.isSome_iff_exists]
    constructor
    · rintro ⟨⟨q, addr⟩, hmem, rfl⟩
      obtain ⟨entry', hget', hdial⟩ := mem_candidates.1 hmem
      obtain rfl : entry = entry' := Option.some.inj (hget.symm.trans hget')
      exact ⟨addr, hdial⟩
    · rintro ⟨addr, hdial⟩
      exact ⟨(p, addr), mem_candidates.2 ⟨entry, hget, hdial⟩, rfl⟩
  refine ⟨h.running, node.nodup_candidates, ?_, ?_⟩
  · intro p hp
    obtain ⟨⟨q, addr⟩, hmem, rfl⟩ := List.mem_map.1 hp
    obtain ⟨entry, hget, hdial⟩ := mem_candidates.1 hmem
    have hidle : entry.in_flight = false := by
      unfold PeerEntry.dialAddr at hdial
      split at hdial
      · cases hdial
      · next hflight => simpa using hflight
    have hflag := h.flag q entry hget
    rw [hidle] at hflag
    show q ∉ node.running
    simpa using hflag
  · intro p entry hget
    rw [getElem?_collectKnownAddrs] at hget
    obtain ⟨old, hold, rfl⟩ := Option.map_eq_some_iff.1 hget
    have hflag := h.flag p old hold
    rw [hcandidate p old hold]
    simp only [Bool.or_eq_true, List.not_mem_nil, false_or] at hflag ⊢
    rw [hflag]
    exact Or.comm

/-- **The end of a task.** -/
theorem Flags.finish {result : Option Str} {unix : ℕ} (h : node.Flags [])
    (hfinish : node.finishSync peer result unix = some node') : node'.Flags [] := by
  obtain ⟨hmem, f, hf, rfl⟩ := finishSync_cases hfinish
  have hpending : ({ node with running := node.running.erase peer } : Node).Flags [peer] := by
    have hmemErase : ∀ p, p ∈ node.running.erase peer ↔ p ≠ peer ∧ p ∈ node.running :=
      fun p => h.running.mem_erase_iff
    refine ⟨h.running.erase _, List.nodup_singleton _, ?_, ?_⟩
    · intro p hp hrunning
      exact ((hmemErase p).1 hrunning).1 (List.mem_singleton.1 hp)
    · intro p entry hget
      show _ ↔ _ ∨ p ∈ node.running.erase peer
      rw [h.flag p entry hget, hmemErase, List.mem_singleton]
      by_cases hp : p = peer
      · simp [hp, hmem]
      · simp [hp]
  exact hpending.clear hf

/-- The reload, if it comes to one, takes no flag from a peer with a task that runs: a table that
lists such a peer does so once, and the peer is pinned already. -/
def KeepsFlags (ids : PeerIdText) (read : PeersToml) (node : Node) : Prop :=
  node.state.reads node.peersToml = true → ∀ p ∈ node.running, read.Lists ids p →
    p ∈ node.state.peers ∧ (listed ids (read.load.toOption.getD [])).count p = 1

instance (read : PeersToml) (node : Node) : Decidable (node.KeepsFlags ids read) :=
  inferInstanceAs (Decidable (_ → ∀ p ∈ node.running, _))

end Node

/-- **A reload that keeps the flags.** -/
theorem Reloaded.flags {read : PeersToml} {node node' : Node} (h : Reloaded ids read node node')
    (hflags : node.Flags []) (hkeeps : node.KeepsFlags ids read) : node'.Flags [] := by
  cases h with
  | missing _ =>
    refine ⟨hflags.running, hflags.decided, hflags.apart, fun p entry hget => ?_⟩
    cases hget
  | noStat _ => exact hflags
  | same _ _ => exact hflags
  | unread _ _ _ => exact ⟨hflags.running, hflags.decided, hflags.apart, hflags.flag⟩
  | @loaded mtime content fresh hfile hne hok =>
    refine ⟨hflags.running, hflags.decided, hflags.apart, fun p entry hget => ?_⟩
    have hkeeps' := hkeeps (by rw [hfile]; exact decide_eq_true hne) p
    rw [PeersToml.lists_of_load hok, hok] at hkeeps'
    have hin := DaemonState.applyPeers_inFlight ids fresh node.state p
    rw [show (DaemonState.applyPeers ids fresh node.state).peers[p]? = some entry from hget,
      Option.map_some] at hin
    have hrunning : p ∈ node.running → (listed ids fresh).count p ≠ 0 →
        p ∈ node.state.peers ∧ (listed ids fresh).count p = 1 := fun hmem hcount =>
      hkeeps' hmem (List.count_pos_iff.1 (Nat.pos_of_ne_zero hcount))
    show entry.in_flight = true ↔ p ∈ [] ∨ p ∈ node.running
    rw [or_iff_right List.not_mem_nil]
    rcases hcount : (listed ids fresh).count p with _ | _ | n
    · rw [hcount] at hin
      cases hin
    · -- listed once: the entry is kept, if there was one
      rw [hcount] at hin
      rw [Option.some.inj hin]
      cases hold : node.state.peers[p]? with
      | none =>
        have hnot : p ∉ node.running := fun hmem => by
          have hpinned := (hrunning hmem (by omega)).1
          rw [Std.ExtTreeMap.mem_iff_isSome_getElem?, hold] at hpinned
          cases hpinned
        simp [hnot]
      | some old => simpa using hflags.flag p old hold
    · -- listed again: the entry was lost
      rw [hcount] at hin
      have hnot : p ∉ node.running := fun hmem => by
        have honce := (hrunning hmem (by omega)).2
        omega
      rw [Option.some.inj hin]
      simp [hnot]

section Runs

variable {git : Git} {F : Type} {json : Json F}

/-- No reload of this move takes a flag from a task that runs. -/
def KeepsTasks (ids : PeerIdText) (node : Node) : DaemonEvent F → Prop
  | .inbound _ _ read _ => node.KeepsFlags ids read
  | .discovery _ read _ => node.KeepsFlags ids read
  | .rewrite _ => True
  | .change _ => True
  | .watcher _ => True
  | .finished _ _ _ => True

instance (node : Node) (event : DaemonEvent F) : Decidable (KeepsTasks ids node event) :=
  match event with
  | .inbound _ _ read _ => inferInstanceAs (Decidable (node.KeepsFlags ids read))
  | .discovery _ read _ => inferInstanceAs (Decidable (node.KeepsFlags ids read))
  | .rewrite _ => inferInstanceAs (Decidable True)
  | .change _ => inferInstanceAs (Decidable True)
  | .watcher _ => inferInstanceAs (Decidable True)
  | .finished _ _ _ => inferInstanceAs (Decidable True)

/-- **One move keeps the flags right.** -/
theorem daemon_flags {node node' : Node} {event : DaemonEvent F} {shown : List (Shown F)}
    (hx : daemon ids git json node event = some (node', shown))
    (hmeets : KeepsTasks ids node event) (hflags : node.Flags []) : node'.Flags [] := by
  cases event with
  | rewrite toml =>
    obtain ⟨rfl, rfl⟩ := Prod.mk.inj (Option.some.inj hx)
    exact ⟨hflags.running, hflags.decided, hflags.apart, hflags.flag⟩
  | change repo =>
    obtain ⟨rfl, rfl⟩ := Prod.mk.inj (Option.some.inj hx)
    exact ⟨hflags.running, hflags.decided, hflags.apart, hflags.flag⟩
  | inbound peer frame read now =>
    obtain ⟨⟨response, node₁⟩, hin, h⟩ := Option.map_eq_some_iff.1 hx
    obtain ⟨rfl, rfl⟩ := Prod.mk.inj h
    have hreload := (node.reload_reloaded ids read).flags hflags hmeets
    obtain ⟨hstate, -, hrunning, -⟩ := Node.handleInbound_cases hin
    exact ⟨hrunning ▸ hreload.running, hreload.decided, hrunning ▸ hreload.apart,
      hstate ▸ hrunning ▸ hreload.flag⟩
  | discovery event read now =>
    have hreload := (node.reload_reloaded ids read).flags hflags hmeets
    rcases Node.handleDiscovery_cases ids event read node with
      ⟨peer, f, hf, hdisco⟩ | ⟨peer, addr, entry, entry', hget, hidle, hset, hdisco⟩
    · have h : some ((node.reload ids read).updateEntry peer f, []) = some (node', shown) := by
        simpa only [daemon, hdisco] using hx
      obtain ⟨rfl, rfl⟩ := Prod.mk.inj (Option.some.inj h)
      exact hreload.updateEntry hf
    · have h : ((node.reload ids read).setEntry peer entry').spawnSyncWithPeer peer addr now =
          some (node', shown) := by simpa only [daemon, hdisco] using hx
      have hnot : peer ∉ (node.reload ids read).running := by
        have hflag := hreload.flag peer entry hget
        rw [hidle] at hflag
        simpa using hflag
      have hpending : ((node.reload ids read).setEntry peer entry').Flags [peer] := by
        refine ⟨hreload.running, List.nodup_singleton _, ?_, ?_⟩
        · intro p hp
          rw [List.mem_singleton.1 hp]
          exact hnot
        · intro p e hget'
          rw [Node.getElem?_setEntry] at hget'
          split_ifs at hget' with hp
          · obtain rfl := Option.some.inj hget'
            simp [hset, hp]
          · have hflag := hreload.flag p e hget'
            rw [or_iff_right List.not_mem_nil] at hflag
            rw [hflag, List.mem_singleton, or_iff_right hp]
            rfl
      exact hpending.spawn h
  | watcher times => exact hflags.collect.spawnAll hx
  | finished peer result now =>
    obtain ⟨node₁, hfinish, h⟩ := Option.map_eq_some_iff.1 hx
    obtain ⟨rfl, rfl⟩ := Prod.mk.inj h
    exact hflags.finish hfinish

/-- **One outbound sync a peer**, in every run whose reloads keep the flags: in every state reached,
no peer has two tasks, and the flag of a pinned peer is set exactly while it has one. -/
theorem one_task {loaded looked : PeersToml} {repo : Repo} {node₀ node : Node}
    {run : List (Move Node (DaemonEvent F) (Shown F))}
    (hinit : Node.init ids loaded looked repo = .ok node₀)
    (hrun : Runs (daemon ids git json) node₀ run node)
    (hmeets : ∀ x ∈ run, KeepsTasks ids x.before x.event) :
    node.OneTask ∧ ∀ x ∈ run, x.before.OneTask ∧ x.after.OneTask := by
  have hflags : node₀.Flags [] := by
    unfold Node.init at hinit
    cases hload : loaded.load with
    | error e =>
      rw [hload] at hinit
      cases hinit
    | ok records =>
      rw [hload] at hinit
      obtain rfl := Except.ok.inj hinit
      refine ⟨List.nodup_nil, List.nodup_nil, fun p hp => absurd hp List.not_mem_nil, ?_⟩
      intro p entry hget
      have hin := DaemonState.applyPeers_inFlight ids records ⟨∅, looked.mtime⟩ p
      rw [show (DaemonState.applyPeers ids records ⟨∅, looked.mtime⟩).peers[p]? = some entry
        from hget, Option.map_some] at hin
      have hidle : entry.in_flight = false := by
        rcases hcount : (listed ids records).count p with _ | _ | n
        · rw [hcount] at hin
          cases hin
        · rw [hcount] at hin
          exact Option.some.inj hin
        · rw [hcount] at hin
          exact Option.some.inj hin
      simp [hidle]
  obtain ⟨hend, hall⟩ := hrun.induct (P := fun _ => True) (I := fun node => node.Flags [])
    (fun x hx hm hi => ⟨daemon_flags hx hm hi, trivial⟩) hmeets hflags
  refine ⟨Node.flags_nil.1 hend, fun x hx => ?_⟩
  obtain ⟨hbefore, hafter, -⟩ := hall x hx
  exact ⟨Node.flags_nil.1 hbefore, Node.flags_nil.1 hafter⟩

end Runs

/-! ## Two tasks for a phone -/

/-- `peers.toml` with the phone again, and with the phone twice. -/
def againToml : PeersToml := .file (some 3) (.ok [phoneRecord])

def twiceToml : PeersToml := .file (some 3) (.ok [phoneRecord, phoneRecord])

/-- While a sync with the phone runs, the phone is removed, the daemon reloads as some other device
asks, and the phone is paired again and seen again. -/
def againEvents : List (DaemonEvent WireMsg) :=
  [.discovery (.discovered phone phoneAddr) phoneToml 0, .rewrite emptyToml,
    .inbound laptop (wantPackFrom none none) emptyToml 1, .rewrite againToml,
    .discovery (.discovered phone phoneAddr) againToml 2]

def againRun : List (Move Node (DaemonEvent WireMsg) (Shown WireMsg)) × Node :=
  (exec phoneDaemon (phoneNode phoneToml) againEvents).get (by decide +kernel)

/-- While a sync with the phone runs, its record is doubled, and it is seen again. -/
def twiceEvents : List (DaemonEvent WireMsg) :=
  [.discovery (.discovered phone phoneAddr) phoneToml 0, .rewrite twiceToml,
    .discovery (.discovered phone phoneAddr) twiceToml 1]

def twiceRun : List (Move Node (DaemonEvent WireMsg) (Shown WireMsg)) × Node :=
  (exec phoneDaemon (phoneNode phoneToml) twiceEvents).get (by decide +kernel)

/-- **Two syncs with one peer run at once**, after a reload that lost the flag. -/
theorem two_tasks :
    Node.init deviceIds phoneToml phoneToml leakRepo = .ok (phoneNode phoneToml) ∧
      (Runs phoneDaemon (phoneNode phoneToml) againRun.1 againRun.2 ∧ ¬ againRun.2.OneTask) ∧
      Runs phoneDaemon (phoneNode phoneToml) twiceRun.1 twiceRun.2 ∧ ¬ twiceRun.2.OneTask := by
  have hagain : againRun.2.running = [phone, phone] := by decide +kernel
  have htwice : twiceRun.2.running = [phone, phone] := by decide +kernel
  refine ⟨rfl, ⟨get_runs _, fun h => ?_⟩, get_runs _, fun h => ?_⟩
  · have hnodup := h.1
    rw [hagain] at hnodup
    simp at hnodup
  · have hnodup := h.1
    rw [htwice] at hnodup
    simp at hnodup

theorem one_task_tick :
    tickRun.2.OneTask ∧ ∀ x ∈ tickRun.1, x.before.OneTask ∧ x.after.OneTask :=
  one_task (show Node.init deviceIds phoneToml phoneToml leakRepo = .ok (phoneNode phoneToml) from rfl)
    (show Runs phoneDaemon (phoneNode phoneToml) tickRun.1 tickRun.2 from get_runs _)
    (by decide +kernel)

end Bypass
