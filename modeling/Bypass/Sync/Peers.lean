import Bypass.Sync.Daemon

/-!
# The table of pinned peers

`peers.toml` is a list of records (`peers.rs`). Pairing puts a record in, in the place of the one
with the same peer id; a rotation of the identity clears the list; and `bypass sync peer rm` takes
out the first record with a name, which the other device chose when it was paired.

* `upsert_ids`, `remove_countP`: what a change does to the ids, and to the records with a name.
* `peersMachine`: the commands that change the table, in any order.
* **`peer_rm_clears_iff`**: when a removal by name leaves no record with that name.
-/

namespace Bypass

/-! ## `Peers` -/

/-- `Peers`. -/
structure Peers where
  peers : List PeerRecord
  deriving DecidableEq

namespace Peers

/-- `Peers::find_by_name`. -/
def findByName (table : Peers) (name : Str) : Option PeerRecord :=
  table.peers.find? fun r => r.name = name

/-- `Peers::upsert`: whether the record is new is returned with the table. -/
def upsert (table : Peers) (record : PeerRecord) : Bool × Peers :=
  match table.peers.findIdx? fun r => r.peer_id = record.peer_id with
  | some pos => (false, ⟨table.peers.set pos record⟩)
  | none => (true, ⟨table.peers ++ [record]⟩)

/-- `Peers::remove`. -/
def remove (table : Peers) (name : Str) : Option PeerRecord × Peers :=
  match table.peers.findIdx? fun r => r.name = name with
  | some pos => (table.peers[pos]?, ⟨table.peers.eraseIdx pos⟩)
  | none => (none, table)

/-- `Peers::clear`. -/
def clear (_ : Peers) : Peers := ⟨[]⟩

/-- The peer ids of the records. -/
def ids (table : Peers) : List Str := table.peers.map PeerRecord.peer_id

/-- The number of records with a name. -/
def named (table : Peers) (name : Str) : ℕ := table.peers.countP fun r => r.name = name

/-- **An upsert adds the id**, unless it is there. -/
theorem upsert_ids (table : Peers) (record : PeerRecord) :
    (table.upsert record).2.ids =
      if record.peer_id ∈ table.ids then table.ids else table.ids ++ [record.peer_id] := by
  rw [upsert]
  cases hpos : table.peers.findIdx? fun r => r.peer_id = record.peer_id with
  | none =>
    have hnew : record.peer_id ∉ table.ids := fun hmem => by
      obtain ⟨r, hr, hid⟩ := List.mem_map.1 hmem
      have hne := List.findIdx?_eq_none_iff.1 hpos r hr
      simp [hid] at hne
    rw [if_neg hnew]
    exact List.map_append
  | some pos =>
    obtain ⟨hlt, hid, -⟩ := List.findIdx?_eq_some_iff_getElem.1 hpos
    have hid : table.peers[pos].peer_id = record.peer_id := of_decide_eq_true hid
    have hold : record.peer_id ∈ table.ids := List.mem_map.2 ⟨_, List.getElem_mem hlt, hid⟩
    rw [if_pos hold]
    show (table.peers.set pos record).map PeerRecord.peer_id = table.ids
    rw [List.map_set, ← hid]
    refine List.ext_getElem (List.length_set ..) fun i hi hi' => ?_
    rw [List.getElem_set]
    split_ifs with heq
    · subst heq
      exact (List.getElem_map ..).symm
    · rfl

theorem remove_eq (table : Peers) (name : Str) :
    (table.remove name).2.peers = table.peers.eraseP fun r => r.name = name := by
  rw [List.eraseP_eq_eraseIdx, remove]
  cases table.peers.findIdx? fun r => r.name = name <;> rfl

/-- **A removal takes out one record with the name.** -/
theorem remove_named (table : Peers) (name : Str) :
    (table.remove name).2.named name = table.named name - 1 := by
  rw [named, remove_eq, named]
  by_cases hmem : ∃ r ∈ table.peers, r.name = name
  · obtain ⟨r, hr, hname⟩ := hmem
    obtain ⟨a, l₁, l₂, -, ha, hl, herase⟩ :=
      List.exists_of_eraseP hr (p := fun r => r.name = name) (by simpa using hname)
    rw [herase, hl, List.countP_append, List.countP_append, List.countP_cons, if_pos ha]
    omega
  · have hnone : ∀ r ∈ table.peers, ¬ decide (r.name = name) = true := fun r hr hname =>
      hmem ⟨r, hr, of_decide_eq_true hname⟩
    rw [List.eraseP_of_forall_not hnone, List.countP_eq_zero.2 hnone]

/-- What is removed is what is found by the name. -/
theorem remove_findByName (table : Peers) (name : Str) :
    (table.remove name).1 = table.findByName name := by
  rw [findByName, List.find?_eq_bind_findIdx?_getElem?, remove]
  cases table.peers.findIdx? fun r => r.name = name <;> rfl

end Peers

/-! ## The commands -/

/-- A command that changes the table: the end of a pairing, the removal of a peer, with or without
`--yes`, and the rotation of the identity. -/
inductive PeersCommand where
  | pair (record : PeerRecord)
  | rm (name : Str) (yes : Bool)
  | rotate
  deriving DecidableEq

/-- What a command reports: a failure to read or write the file, or how it went. -/
inductive PeersReply where
  | failed (e : Str)
  | paired (record : PeerRecord)
  | noSuchPeer (name : Str)
  | confirm (record : PeerRecord)
  | removed (record : PeerRecord)
  | rotated (cleared : ℕ)
  deriving DecidableEq

/-- The warning of `sync_peer_rm`. -/
def removalWarning (debug : Str → Str) (record : PeerRecord) : Str :=
  "Removing pinning for ".toList ++ debug record.name ++ " (".toList ++ record.peer_id ++
    (").\nFuture syncs with this peer will be refused.\n\n" ++
      "Note: prior commits authored by this peer remain in your\n" ++
      "git history. `bypass` does not sign commits per ADR-0014, so\n" ++
      "we cannot reliably distinguish them after the fact. If you\n" ++
      "need a clean history, re-clone from a trusted source or use\n" ++
      "`git filter-repo` to rewrite.").toList

/-- The text of a reply; `newId` is the peer id after a rotation. -/
def PeersReply.message (debug : Str → Str) (newId : Str) : PeersReply → Str
  | failed e => e
  | paired record => "paired with ".toList ++ record.name ++ " (".toList ++ record.peer_id ++ [')']
  | noSuchPeer name => "no such peer: ".toList ++ debug name
  | confirm record =>
    removalWarning debug record ++ "\n\nRe-run with --yes to confirm.".toList
  | removed record => removalWarning debug record ++ "\n\nremoved ".toList ++ record.name ++
      " (".toList ++ record.peer_id ++ [')']
  | rotated cleared => "Rotated identity. New peer id: ".toList ++ newId ++ "\nCleared ".toList ++
      Nat.toDigits 10 cleared ++
        " paired peer(s); re-pair every device with `bypass sync pair`.".toList

/-- `persist_paired`, `sync_peer_rm` and `sync_identity_rotate`, on the table that was loaded: the
reply, and the table to save. -/
def PeersCommand.change (table : Peers) : PeersCommand → PeersReply × Option Peers
  | pair record => (.paired record, some (table.upsert record).2)
  | rm name yes =>
    match table.findByName name with
    | none => (.noSuchPeer name, none)
    | some record =>
      if yes then (.removed record, some (table.remove name).2) else (.confirm record, none)
  | rotate => (.rotated table.peers.length, some table.clear)

/-- A command, and how reading and writing the file fail, if they do. -/
structure PeersEvent where
  command : PeersCommand
  loadError : Option Str
  saveError : Option Str

/-- **The table of a device**: a command changes it only if it can be saved. -/
def peersMachine : Machine Peers PeersEvent PeersReply := fun table event =>
  match event.loadError with
  | some e => some (table, [.failed e])
  | none =>
    match event.command.change table with
    | (reply, none) => some (table, [reply])
    | (reply, some table') =>
      match event.saveError with
      | some e => some (table, [.failed e])
      | none => some (table', [reply])

/-! ## Every sequence of commands -/

open Machine

/-- A move leaves the table and shows another reply than a removal, or it makes the change of its
command. -/
theorem peersMachine_cases {x : Move Peers PeersEvent PeersReply} (h : peersMachine.Makes x) :
    (x.after = x.before ∧ ∀ record, .removed record ∉ x.outputs) ∨
      ∃ reply, x.event.command.change x.before = (reply, some x.after) := by
  obtain ⟨table, ⟨command, loadError, saveError⟩, after, outputs⟩ := x
  simp only [Makes, peersMachine] at h ⊢
  cases loadError with
  | some e =>
    obtain ⟨rfl, rfl⟩ := Prod.mk.inj (Option.some.inj h)
    exact Or.inl ⟨rfl, by simp⟩
  | none =>
    rcases hchange : command.change table with ⟨reply, _ | table'⟩
    · rw [hchange] at h
      obtain ⟨rfl, rfl⟩ := Prod.mk.inj (Option.some.inj h)
      refine Or.inl ⟨rfl, fun record hmem => ?_⟩
      obtain rfl := List.mem_singleton.1 hmem
      cases command with
      | pair record => cases hchange
      | rotate => cases hchange
      | rm name yes =>
        simp only [PeersCommand.change] at hchange
        split at hchange
        · cases hchange
        · split_ifs at hchange
          · cases hchange
          · cases hchange
    · rw [hchange] at h
      cases saveError with
      | some e =>
        obtain ⟨rfl, rfl⟩ := Prod.mk.inj (Option.some.inj h)
        exact Or.inl ⟨rfl, by simp⟩
      | none =>
        obtain ⟨rfl, rfl⟩ := Prod.mk.inj (Option.some.inj h)
        exact Or.inr ⟨reply, rfl⟩

/-- A successful removal has taken the first record with the name out. -/
theorem peersMachine_removed {x : Move Peers PeersEvent PeersReply} (h : peersMachine.Makes x)
    {name : Str} {yes : Bool} (hcommand : x.event.command = .rm name yes) {record : PeerRecord}
    (hreply : .removed record ∈ x.outputs) : x.after = (x.before.remove name).2 := by
  rcases peersMachine_cases h with ⟨-, hnone⟩ | ⟨reply, hchange⟩
  · exact absurd hreply (hnone record)
  · rw [hcommand] at hchange
    simp only [PeersCommand.change] at hchange
    split at hchange
    · cases hchange
    · split_ifs at hchange
      · exact (Option.some.inj (Prod.mk.inj hchange).2).symm
      · cases hchange

/-- A change keeps the peer ids unique. -/
theorem change_ids {command : PeersCommand} {table table' : Peers} {reply : PeersReply}
    (h : command.change table = (reply, some table')) (hids : table.ids.Nodup) :
    table'.ids.Nodup := by
  cases command with
  | pair record =>
    obtain rfl := Option.some.inj (Prod.mk.inj h).2
    rw [Peers.upsert_ids]
    split_ifs with hold
    · exact hids
    · rw [← List.concat_eq_append]
      exact hids.concat hold
  | rotate =>
    obtain rfl := Option.some.inj (Prod.mk.inj h).2
    exact List.nodup_nil
  | rm name yes =>
    simp only [PeersCommand.change] at h
    split at h
    · cases h
    · split_ifs at h
      · obtain rfl := Option.some.inj (Prod.mk.inj h).2
        rw [Peers.ids, Peers.remove_eq]
        exact hids.sublist (List.eraseP_sublist.map _)
      · cases h

/-- **When a removal by name removes the peer.** In every sequence of pairings, removals and
rotations, starting without peers, the peer ids stay unique; and a removal that succeeds leaves no
record with the name if and only if at most one had it. -/
theorem peer_rm_clears_iff {run : List (Move Peers PeersEvent PeersReply)} {table : Peers}
    (hruns : Runs peersMachine ⟨[]⟩ run table) :
    table.ids.Nodup ∧ ∀ x ∈ run, x.before.ids.Nodup ∧ x.after.ids.Nodup ∧
      ∀ name yes record, x.event.command = .rm name yes → .removed record ∈ x.outputs →
        ((∀ r ∈ x.after.peers, r.name ≠ name) ↔ x.before.named name ≤ 1) := by
  have hmove (x : Move Peers PeersEvent PeersReply) (hmakes : peersMachine.Makes x) (_ : True)
      (hids : x.before.ids.Nodup) : x.after.ids.Nodup ∧
        ∀ name yes record, x.event.command = .rm name yes → .removed record ∈ x.outputs →
          ((∀ r ∈ x.after.peers, r.name ≠ name) ↔ x.before.named name ≤ 1) := by
    refine ⟨?_, fun name yes record hcommand hreply => ?_⟩
    · rcases peersMachine_cases hmakes with ⟨hsame, -⟩ | ⟨reply, hchange⟩
      · rwa [hsame]
      · exact change_ids hchange hids
    · have hleft : (∀ r ∈ x.after.peers, r.name ≠ name) ↔ x.after.named name = 0 := by
        rw [Peers.named, List.countP_eq_zero]
        simp only [decide_eq_true_eq, ne_eq]
      rw [hleft, peersMachine_removed hmakes hcommand hreply, Peers.remove_named]
      omega
  exact hruns.induct (I := fun table => table.ids.Nodup) hmove (fun _ _ => trivial) List.nodup_nil

/-! ## Two devices of one name -/

/-- Commands that all read and write the file. -/
def peersEvents (commands : List PeersCommand) : List PeersEvent :=
  commands.map fun command => ⟨command, none, none⟩

/-- The record of a device without a host name. -/
def unnamedRecord (id : Str) : PeerRecord := ⟨"bypass-device".toList, id, [], []⟩

/-- Two of them are paired, and one is removed. -/
def unnamedRun : List (Move Peers PeersEvent PeersReply) × Peers :=
  (exec peersMachine ⟨[]⟩ (peersEvents [.pair (unnamedRecord ['A']), .pair (unnamedRecord ['B']),
    .rm "bypass-device".toList true])).get rfl

/-- **The other stays**, after the removal was reported. -/
theorem namesake_stays :
    Runs peersMachine ⟨[]⟩ unnamedRun.1 unnamedRun.2 ∧
      unnamedRun.1.getLast?.map Move.outputs = some [.removed (unnamedRecord ['A'])] ∧
      unnamedRun.2.findByName "bypass-device".toList = some (unnamedRecord ['B']) :=
  ⟨get_runs _, by decide +kernel, by decide +kernel⟩

theorem peer_rm_clears_one :
    (exec peersMachine ⟨[]⟩ (peersEvents [.pair (unnamedRecord ['A']),
        .rm "bypass-device".toList true])).isSome = true ∧
      ∀ x ∈ ((exec peersMachine ⟨[]⟩ (peersEvents [.pair (unnamedRecord ['A']),
        .rm "bypass-device".toList true])).get rfl).1,
        x.before.ids.Nodup ∧ x.after.ids.Nodup ∧
          ∀ name yes record, x.event.command = .rm name yes → .removed record ∈ x.outputs →
            ((∀ r ∈ x.after.peers, r.name ≠ name) ↔ x.before.named name ≤ 1) :=
  ⟨rfl, (peer_rm_clears_iff (get_runs _)).2⟩

end Bypass
