import Bypass.Foundations.Runs
import Bypass.Foundations.Text

/-!
# The libp2p transport

`libp2p_transport.rs`: a handle, which other code calls, and a task that owns the swarm. The handle
sends commands, each with the sender of a oneshot on which its caller waits; the task keeps these
senders under the id that libp2p gave the request, and the channels of requests from outside under
numbers of its own. A reply is a closure that sends the number back.

All of this is one machine: calls of the handle, replies, commands and events of the swarm come in
any order, and the task can be dropped at any time. libp2p gives each request an id that it has not
given before, and each request from outside an id and a channel; as an id is a `u64`, the numbers of
the task do not come round before libp2p has no more to give.

* `did_of_transport`: what a move does, case by case;
* `waiters_balance`: a waiter is waited for in one place, until it has its result;
* `traced`: where the things that the task holds have come from;
* `requests_matched`: **requests and responses are matched one to one**.
-/

namespace Bypass

namespace Libp2p

open Machine

/-- `Libp2pError`. -/
inductive Libp2pError (Peer : Type) where
  | libp2p (text : Str)
  | outboundFailure (peer : Peer) (reason : Str)
  | swarmGone
  deriving DecidableEq

/-- What a oneshot brings: for a request, a response; for a dial, nothing more. -/
inductive Answer (Peer : Type) where
  | response (bytes : Bytes)
  | dialed
  | error (e : Libp2pError Peer)
  deriving DecidableEq

/-- `Cmd`. The caller of a request or of a dial waits on a oneshot of its own; the callers are
numbered. -/
inductive Cmd (Peer Addr : Type) where
  | request (peer : Peer) (bytes : Bytes) (reply : ℕ)
  | sendResponse (inboundId : ℕ) (bytes : Bytes)
  | dial (peer : Peer) (addr : Addr) (reply : ℕ)
  | shutdown

/-- The sender that a command holds. -/
@[simp] def Cmd.reply {Peer Addr : Type} : Cmd Peer Addr → Option ℕ
  | request _ _ reply => some reply
  | dial _ _ reply => some reply
  | sendResponse _ _ => none
  | shutdown => none

/-- `DiscoveryEvent`. -/
inductive DiscoveryEvent (Peer Addr : Type) where
  | discovered (peer : Peer) (addr : Addr)
  | expired (peer : Peer) (addr : Addr)

/-- A request from outside, with the id that libp2p gave it and the channel for its response. -/
structure Received (Peer Channel : Type) where
  id : UInt64
  peer : Peer
  request : Bytes
  channel : Channel

/-- The handle is there; its `drop` runs; its fields are dropped. -/
inductive HandlePhase where
  | alive
  | closing
  | gone
  deriving DecidableEq

/-- The task is in its loop; it fails what is left; it has returned, or panicked. -/
inductive TaskPhase where
  | running
  | draining
  | ended
  deriving DecidableEq

/-- The handle, the channels, the task, and what libp2p has given out. -/
structure Transport (Peer Addr RequestId Channel : Type) where
  handle : HandlePhase
  nextWaiter : ℕ
  /-- The waiters that have dropped their receivers. -/
  gaveUp : List ℕ
  /-- The numbers of the `Reply` handles that have not been used or dropped. -/
  replies : List ℕ
  cmds : List (Cmd Peer Addr)
  inbound : List (Peer × Bytes × ℕ)
  discoveries : List (DiscoveryEvent Peer Addr)
  listenAddrs : List Addr
  task : TaskPhase
  pendingOutbound : List (RequestId × ℕ)
  pendingInbound : List (ℕ × Channel)
  nextInboundId : ℕ
  /-- The ids that libp2p has given. -/
  issued : List RequestId
  /-- The requests from outside, in the order of their numbers. -/
  received : List (Received Peer Channel)

/-- `SwarmEvent`; the events that nothing is done for are one. -/
inductive SwarmEvent (Peer Addr RequestId Channel : Type) where
  | newListenAddr (addr : Addr)
  | request (received : Received Peer Channel)
  | response (id : RequestId) (response : Bytes)
  | outboundFailure (id : RequestId) (peer : Peer) (error : Str)
  | discovered (list : List (Peer × Addr))
  | expired (list : List (Peer × Addr))
  | other

/-- What can happen next. With a command comes what libp2p answers, should it be asked. -/
inductive Event (Peer Addr RequestId Channel : Type) where
  | request (peer : Peer) (req : Bytes)
  | dial (peer : Peer) (addr : Addr)
  | giveUp (waiter : ℕ)
  | nextRequest
  | reply (inboundId : ℕ) (bytes : Bytes)
  | dropReply (inboundId : ℕ)
  | nextDiscovery
  | drop
  | dropFields
  | swarm (event : SwarmEvent Peer Addr RequestId Channel)
  | cmd (id : RequestId) (dialed : Except Str Unit)
  | cmdsClosed
  | drain (id : RequestId)
  | finish
  | abort

/-- What can be seen from outside. -/
inductive Output (Peer Addr RequestId Channel : Type) where
  /-- A oneshot is used up, by an answer or by the drop of its sender. -/
  | result (waiter : ℕ) (answer : Answer Peer) (heard : Bool)
  /-- `send_request`. -/
  | sent (id : RequestId) (waiter : ℕ) (peer : Peer) (bytes : Bytes)
  /-- `send_response`. -/
  | responded (channel : Channel) (bytes : Bytes)
  /-- `next_request` returns. -/
  | handed (peer : Peer) (request : Bytes) (inboundId : ℕ)
  | noRequest
  /-- `next_discovery` returns. -/
  | discovery (event : Option (DiscoveryEvent Peer Addr))

section Machine

variable {Peer Addr RequestId Channel : Type} [DecidableEq RequestId] [DecidableEq Channel]

namespace Transport

variable (s : Transport Peer Addr RequestId Channel)

/-- A transport that has been built. -/
def new : Transport Peer Addr RequestId Channel :=
  ⟨.alive, 0, [], [], [], [], [], [], .running, [], [], 0, [], []⟩

/-- The oneshot of a waiter is used up. -/
def deliver (w : ℕ) (answer : Answer Peer) : Output Peer Addr RequestId Channel :=
  .result w answer (decide (w ∉ s.gaveUp))

/-- The waiters whose senders are still somewhere. -/
def waiters : List ℕ := s.pendingOutbound.map Prod.snd ++ s.cmds.filterMap Cmd.reply

/-- What the task holds is dropped, and the ends of its channels with it. -/
def endTask : Transport Peer Addr RequestId Channel × List (Output Peer Addr RequestId Channel) :=
  ({ s with task := .ended, cmds := [], pendingOutbound := [], pendingInbound := [] },
    s.waiters.map fun w => s.deliver w (.error .swarmGone))

/-- `cmd_tx.send`, which fails when the task has ended. -/
def send (cmd : Cmd Peer Addr) : Transport Peer Addr RequestId Channel :=
  if s.task = .ended then s else { s with cmds := s.cmds ++ [cmd] }

/-- `request` and `dial`, with a new oneshot. -/
def submit (cmd : ℕ → Cmd Peer Addr) :
    Option (Transport Peer Addr RequestId Channel × List (Output Peer Addr RequestId Channel)) :=
  if s.handle = .alive then
    let w := s.nextWaiter
    some ({ s with nextWaiter := w + 1 }.send (cmd w),
      if s.task = .ended then [s.deliver w (.error .swarmGone)] else [])
  else none

/-- The sender under an id is taken out of `pending_outbound`, and used. -/
def answer (id : RequestId) (a : Answer Peer) :
    Transport Peer Addr RequestId Channel × List (Output Peer Addr RequestId Channel) :=
  match s.pendingOutbound.find? (fun e => e.1 = id) with
  | some (_, w) =>
    ({ s with pendingOutbound := s.pendingOutbound.eraseP fun e => e.1 = id }, [s.deliver w a])
  | none => (s, [])

/-- The arm of a command; `id` and `dialed` are what libp2p answers to a request and to a dial. An
insertion into `pending_outbound` would drop the sender that is there. -/
def handleCmd (cmd : Cmd Peer Addr) (id : RequestId) (dialed : Except Str Unit) :
    Option (Transport Peer Addr RequestId Channel × List (Output Peer Addr RequestId Channel)) :=
  match cmd with
  | .request peer bytes w =>
    if id ∈ s.issued then none
    else
      let replaced := s.answer id (.error .swarmGone)
      some ({ replaced.1 with
          issued := id :: s.issued
          pendingOutbound := (id, w) :: replaced.1.pendingOutbound },
        .sent id w peer bytes :: replaced.2)
  | .sendResponse n bytes =>
    match s.pendingInbound.find? (fun e => e.1 = n) with
    | some (_, channel) =>
      some ({ s with pendingInbound := s.pendingInbound.eraseP fun e => e.1 = n },
        [.responded channel bytes])
    | none => some (s, [])
  | .dial _ _ w =>
    some (s, [s.deliver w (match dialed with
      | .ok () => .dialed
      | .error text => .error (.libp2p text))])
  | .shutdown => some ({ s with task := .draining }, [])

/-- `handle_swarm_event`. -/
def handleSwarmEvent : SwarmEvent Peer Addr RequestId Channel →
    Option (Transport Peer Addr RequestId Channel × List (Output Peer Addr RequestId Channel))
  | .newListenAddr addr => some ({ s with listenAddrs := s.listenAddrs ++ [addr] }, [])
  | .request r =>
    if r.id ∈ s.received.map Received.id ∨ r.channel ∈ s.received.map Received.channel then none
    else
      let n := s.nextInboundId
      let others := s.pendingInbound.filter fun e => e.1 ≠ n
      let s' : Transport Peer Addr RequestId Channel := { s with
        nextInboundId := (n + 1) % 2 ^ 64
        received := s.received ++ [r] }
      if s.handle = .gone then some ({ s' with pendingInbound := others }, [])
      else some ({ s' with
        pendingInbound := (n, r.channel) :: others
        inbound := s.inbound ++ [(r.peer, r.request, n)] }, [])
  | .response id response => some (s.answer id (.response response))
  | .outboundFailure id peer error => some (s.answer id (.error (.outboundFailure peer error)))
  | .discovered list => some (if s.handle = .gone then s else
      { s with discoveries := s.discoveries ++ list.map fun (peer, addr) => .discovered peer addr },
      [])
  | .expired list => some (if s.handle = .gone then s else
      { s with discoveries := s.discoveries ++ list.map fun (peer, addr) => .expired peer addr },
      [])
  | .other => some (s, [])

end Transport

/-- **The transport.** An event that cannot happen is refused. -/
def transport : Machine (Transport Peer Addr RequestId Channel)
    (Event Peer Addr RequestId Channel) (Output Peer Addr RequestId Channel) := fun s event =>
  match event with
  | .request peer req => s.submit (.request peer req)
  | .dial peer addr => s.submit (.dial peer addr)
  | .giveUp w => if w < s.nextWaiter then some ({ s with gaveUp := w :: s.gaveUp }, []) else none
  | .nextRequest =>
    if s.handle = .alive then
      match s.inbound with
      | (peer, request, n) :: rest =>
        some ({ s with inbound := rest, replies := n :: s.replies }, [.handed peer request n])
      | [] => if s.task = .ended then some (s, [.noRequest]) else none
    else none
  | .reply n bytes =>
    if n ∈ s.replies then
      some ({ s with replies := s.replies.erase n }.send (.sendResponse n bytes), [])
    else none
  | .dropReply n =>
    if n ∈ s.replies then some ({ s with replies := s.replies.erase n }, []) else none
  | .nextDiscovery =>
    if s.handle = .alive then
      match s.discoveries with
      | d :: rest => some ({ s with discoveries := rest }, [.discovery (some d)])
      | [] => if s.task = .ended then some (s, [.discovery none]) else none
    else none
  | .drop =>
    if s.handle = .alive then some ({ s with handle := .closing }.send .shutdown, []) else none
  | .dropFields =>
    if s.handle = .closing then
      some ({ s with handle := .gone, inbound := [], discoveries := [] }, [])
    else none
  | .swarm event => if s.task = .running then s.handleSwarmEvent event else none
  | .cmd id dialed =>
    if s.task = .running then
      match s.cmds with
      | cmd :: rest => { s with cmds := rest }.handleCmd cmd id dialed
      | [] => none
    else none
  | .cmdsClosed =>
    -- every sender is gone: that of the handle, and those of the replies
    if s.task = .running ∧ s.cmds = [] ∧ s.handle = .gone ∧ s.replies = [] then
      some ({ s with task := .draining }, [])
    else none
  | .drain id =>
    if s.task = .draining ∧ id ∈ s.pendingOutbound.map Prod.fst then
      some (s.answer id (.error .swarmGone))
    else none
  | .finish =>
    if s.task = .draining ∧ s.pendingOutbound = [] then some s.endTask else none
  -- the runtime stops, or the task panics
  | .abort => if s.task = .ended then none else some s.endTask

end Machine

/-! ## What a move does -/

/-- The command that a call sends, for a waiter. -/
def Event.call {Peer Addr RequestId Channel : Type} :
    Event Peer Addr RequestId Channel → Option (ℕ → Cmd Peer Addr)
  | .request peer req => some (.request peer req)
  | .dial peer addr => some (.dial peer addr)
  | _ => none

/-- The request from outside that a move brings. -/
def Event.received {Peer Addr RequestId Channel : Type} :
    Event Peer Addr RequestId Channel → Option (Received Peer Channel)
  | .swarm (.request r) => some r
  | _ => none

/-- No sender, id or number is touched, and none is shown. -/
structure Aside {Peer Addr RequestId Channel : Type} (s : Transport Peer Addr RequestId Channel)
    (out : Transport Peer Addr RequestId Channel × List (Output Peer Addr RequestId Channel)) :
    Prop where
  nextWaiter : out.1.nextWaiter = s.nextWaiter
  gaveUp : out.1.gaveUp = s.gaveUp
  pendingOutbound : out.1.pendingOutbound = s.pendingOutbound
  pendingInbound : out.1.pendingInbound = s.pendingInbound
  nextInboundId : out.1.nextInboundId = s.nextInboundId
  issued : out.1.issued = s.issued
  received : out.1.received = s.received
  ended : out.1.task = .ended ↔ s.task = .ended
  cmds : out.1.cmds.filterMap Cmd.reply = s.cmds.filterMap Cmd.reply
  cmds_mem : ∀ cmd ∈ out.1.cmds, cmd = .shutdown ∨ cmd ∈ s.cmds
  inbound : out.1.inbound ⊆ s.inbound
  replies : out.1.replies ⊆ s.replies
  outputs : ∀ o ∈ out.2, o = .noRequest ∨ ∃ d, o = .discovery d

/-- The moves, as far as they matter to requests and responses. -/
inductive Did {Peer Addr RequestId Channel : Type} (s : Transport Peer Addr RequestId Channel) :
    Event Peer Addr RequestId Channel →
    Transport Peer Addr RequestId Channel × List (Output Peer Addr RequestId Channel) → Prop
  | asked {event cmd} (hcall : event.call = some cmd) (hopen : s.task ≠ .ended) : Did s event
      ({ s with nextWaiter := s.nextWaiter + 1, cmds := s.cmds ++ [cmd s.nextWaiter] }, [])
  | refused {event cmd} (hcall : event.call = some cmd) (hended : s.task = .ended) : Did s event
      ({ s with nextWaiter := s.nextWaiter + 1 }, [s.deliver s.nextWaiter (.error .swarmGone)])
  | gaveUp {w} : Did s (.giveUp w) ({ s with gaveUp := w :: s.gaveUp }, [])
  | handed {peer request n rest} (hinbound : s.inbound = (peer, request, n) :: rest) :
    Did s .nextRequest
      ({ s with inbound := rest, replies := n :: s.replies }, [.handed peer request n])
  | replied {n bytes} (hheld : n ∈ s.replies) : Did s (.reply n bytes)
      ({ s with replies := s.replies.erase n, cmds := s.cmds ++ [.sendResponse n bytes] }, [])
  | sent {id dialed peer bytes w rest} (hcmds : s.cmds = .request peer bytes w :: rest)
    (hfresh : id ∉ s.issued) : Did s (.cmd id dialed)
      ({ s with
          cmds := rest
          issued := id :: s.issued
          pendingOutbound := (id, w) :: s.pendingOutbound },
        [.sent id w peer bytes])
  | dialed {id dialed peer addr w rest a} (hcmds : s.cmds = .dial peer addr w :: rest)
    (ha : dialed = .ok () ∧ a = .dialed ∨
      ∃ text, dialed = .error text ∧ a = .error (.libp2p text)) :
    Did s (.cmd id dialed) ({ s with cmds := rest }, [s.deliver w a])
  | responded {id dialed n bytes rest l₁ channel l₂}
    (hcmds : s.cmds = .sendResponse n bytes :: rest)
    (hinbound : s.pendingInbound = l₁ ++ (n, channel) :: l₂) : Did s (.cmd id dialed)
      ({ s with cmds := rest, pendingInbound := l₁ ++ l₂ }, [.responded channel bytes])
  | received {r inbound pendingInbound}
    (hfresh : r.id ∉ s.received.map Received.id ∧ r.channel ∉ s.received.map Received.channel)
    (hinbound : ∀ e ∈ inbound, e = (r.peer, r.request, s.nextInboundId) ∨ e ∈ s.inbound)
    (hpending : pendingInbound.Sublist ((s.nextInboundId, r.channel) :: s.pendingInbound)) :
    Did s (.swarm (.request r))
      ({ s with
          nextInboundId := (s.nextInboundId + 1) % 2 ^ 64
          received := s.received ++ [r]
          pendingInbound := pendingInbound
          inbound := inbound }, [])
  | answered {event id l₁ w l₂ a} (hpending : s.pendingOutbound = l₁ ++ (id, w) :: l₂)
    (ha : (∃ bytes, event = .swarm (.response id bytes) ∧ a = .response bytes) ∨
      (∃ peer reason, event = .swarm (.outboundFailure id peer reason) ∧
        a = .error (.outboundFailure peer reason)) ∨
      s.task = .draining ∧ a = .error .swarmGone) (hnone : event.received = none) :
    Did s event ({ s with pendingOutbound := l₁ ++ l₂ }, [s.deliver w a])
  | stopped {event} (hnone : event.received = none) : Did s event s.endTask
  | aside {event out} (h : Aside s out) (hnone : event.received = none) : Did s event out

section Did

variable {Peer Addr RequestId Channel : Type} {s : Transport Peer Addr RequestId Channel}

theorem eq_append_of_find {α : Type} {p : α → Bool} {l : List α} {a : α}
    (h : l.find? p = some a) : p a = true ∧ ∃ l₁ l₂, l = l₁ ++ a :: l₂ ∧ l.eraseP p = l₁ ++ l₂ := by
  obtain ⟨hp, l₁, l₂, rfl, hnone⟩ := List.find?_eq_some_iff_append.1 h
  refine ⟨hp, l₁, l₂, rfl, ?_⟩
  rw [List.eraseP_append_right _ fun b hb => by simpa using hnone b hb, List.eraseP_cons_of_pos hp]

theorem Aside.refl : Aside s (s, []) := by
  constructor <;> simp +contextual

/-- A command without a sender may be sent. -/
theorem aside_shutdown {handle : HandlePhase} :
    Aside s ({ s with handle := handle }.send .shutdown, []) := by
  rw [Transport.send]
  split_ifs with hended
  · constructor <;> simp +contextual
  · constructor <;> simp [or_comm]

theorem answer_did [DecidableEq RequestId] {event : Event Peer Addr RequestId Channel}
    {id : RequestId} {a : Answer Peer}
    (hnone : event.received = none)
    (ha : (∃ bytes, event = .swarm (.response id bytes) ∧ a = .response bytes) ∨
      (∃ peer reason, event = .swarm (.outboundFailure id peer reason) ∧
        a = .error (.outboundFailure peer reason)) ∨
      s.task = .draining ∧ a = .error .swarmGone) : Did s event (s.answer id a) := by
  rw [Transport.answer]
  split
  · next id' w hfind =>
    obtain ⟨hid, l₁, l₂, hl, herase⟩ := eq_append_of_find hfind
    obtain rfl : id' = id := by simpa using hid
    rw [herase]
    exact .answered hl ha hnone
  · exact .aside .refl hnone

theorem submit_did {event : Event Peer Addr RequestId Channel} {cmd : ℕ → Cmd Peer Addr} {out}
    (hcall : event.call = some cmd) (h : s.submit cmd = some out) : Did s event out := by
  rw [Transport.submit] at h
  split_ifs at h with halive hended
  · obtain rfl := Option.some.inj h
    rw [Transport.send, if_pos (by exact hended)]
    exact .refused hcall hended
  · obtain rfl := Option.some.inj h
    rw [Transport.send, if_neg (by exact hended)]
    exact .asked hcall hended

theorem handleCmd_did [DecidableEq RequestId] {cmd : Cmd Peer Addr} {rest : List (Cmd Peer Addr)}
    {id : RequestId} {dialed : Except Str Unit} {out}
    (hissued : ∀ e ∈ s.pendingOutbound, e.1 ∈ s.issued) (hrunning : s.task = .running)
    (hcmds : s.cmds = cmd :: rest)
    (h : { s with cmds := rest }.handleCmd cmd id dialed = some out) :
    Did s (.cmd id dialed) out := by
  cases cmd with
  | request peer bytes w =>
    rw [Transport.handleCmd] at h
    split_ifs at h with hfresh
    obtain rfl := Option.some.inj h
    -- no request waits under a new id
    have hnone : s.pendingOutbound.find? (fun e => e.1 = id) = none :=
      List.find?_eq_none.2 fun e he hid => hfresh ((of_decide_eq_true hid) ▸ hissued e he)
    rw [Transport.answer, hnone]
    exact .sent hcmds hfresh
  | sendResponse n bytes =>
    rw [Transport.handleCmd] at h
    split at h
    · next n' channel hfind =>
      obtain rfl := Option.some.inj h
      obtain ⟨hn, l₁, l₂, hl, herase⟩ := eq_append_of_find hfind
      obtain rfl : n' = n := by simpa using hn
      rw [herase]
      exact .responded hcmds hl
    · obtain rfl := Option.some.inj h
      refine .aside ?_ rfl
      constructor <;> simp +contextual [hcmds, List.filterMap_cons]
  | dial peer addr w =>
    obtain rfl := Option.some.inj h
    refine .dialed hcmds ?_
    cases dialed with
    | ok u => exact .inl ⟨rfl, rfl⟩
    | error text => exact .inr ⟨text, rfl, rfl⟩
  | shutdown =>
    obtain rfl := Option.some.inj h
    refine .aside ?_ rfl
    constructor <;> simp +contextual [hcmds, hrunning, List.filterMap_cons]

theorem handleSwarmEvent_did [DecidableEq RequestId] [DecidableEq Channel]
    {event : SwarmEvent Peer Addr RequestId Channel} {out}
    (h : s.handleSwarmEvent event = some out) : Did s (.swarm event) out := by
  cases event with
  | request r =>
    rw [Transport.handleSwarmEvent] at h
    split_ifs at h with hfresh hgone
    · obtain rfl := Option.some.inj h
      rw [not_or] at hfresh
      exact .received hfresh (fun e he => .inr he)
        (List.filter_sublist.trans (List.sublist_cons_self _ _))
    · obtain rfl := Option.some.inj h
      rw [not_or] at hfresh
      refine .received hfresh (fun e he => ?_) (List.filter_sublist.cons_cons _)
      simpa [or_comm] using he
  | response id response =>
    obtain h := Option.some.inj h
    rw [← h]
    exact answer_did rfl (.inl ⟨response, rfl, rfl⟩)
  | outboundFailure id peer error =>
    obtain h := Option.some.inj h
    rw [← h]
    exact answer_did rfl (.inr (.inl ⟨peer, error, rfl, rfl⟩))
  | newListenAddr addr =>
    obtain rfl := Option.some.inj h
    refine .aside ?_ rfl
    constructor <;> simp +contextual
  | discovered list =>
    obtain rfl := Option.some.inj h
    refine .aside ?_ rfl
    split_ifs
    · exact .refl
    · constructor <;> simp +contextual
  | expired list =>
    obtain rfl := Option.some.inj h
    refine .aside ?_ rfl
    split_ifs
    · exact .refl
    · constructor <;> simp +contextual
  | other =>
    obtain rfl := Option.some.inj h
    exact .aside .refl rfl

/-- What a move does. -/
theorem did_of_transport [DecidableEq RequestId] [DecidableEq Channel]
    {event : Event Peer Addr RequestId Channel} {out}
    (hissued : ∀ e ∈ s.pendingOutbound, e.1 ∈ s.issued)
    (h : transport s event = some out) : Did s event out := by
  cases event with
  | request peer req => exact submit_did rfl h
  | dial peer addr => exact submit_did rfl h
  | giveUp w =>
    rw [transport] at h
    split_ifs at h with hw
    obtain rfl := Option.some.inj h
    exact .gaveUp
  | nextRequest =>
    rw [transport] at h
    split at h
    · split at h
      · next peer request n rest hinbound =>
        obtain rfl := Option.some.inj h
        exact .handed hinbound
      · split_ifs at h with hended
        obtain rfl := Option.some.inj h
        refine .aside ?_ rfl
        constructor <;> simp +contextual
    · cases h
  | reply n bytes =>
    rw [transport] at h
    split_ifs at h with hheld
    obtain rfl := Option.some.inj h
    rw [Transport.send]
    split_ifs with hended
    · refine .aside ?_ rfl
      constructor <;> simp +contextual [List.erase_subset]
    · exact .replied hheld
  | dropReply n =>
    rw [transport] at h
    split_ifs at h with hheld
    obtain rfl := Option.some.inj h
    refine .aside ?_ rfl
    constructor <;> simp +contextual [List.erase_subset]
  | nextDiscovery =>
    rw [transport] at h
    split at h
    · split at h
      · obtain rfl := Option.some.inj h
        refine .aside ?_ rfl
        constructor <;> simp +contextual
      · split_ifs at h with hended
        obtain rfl := Option.some.inj h
        refine .aside ?_ rfl
        constructor <;> simp +contextual
    · cases h
  | drop =>
    rw [transport] at h
    split_ifs at h with halive
    obtain rfl := Option.some.inj h
    exact .aside aside_shutdown rfl
  | dropFields =>
    rw [transport] at h
    split_ifs at h with hclosing
    obtain rfl := Option.some.inj h
    refine .aside ?_ rfl
    constructor <;> simp +contextual
  | swarm event =>
    rw [transport] at h
    split_ifs at h with hrunning
    exact handleSwarmEvent_did h
  | cmd id dialed =>
    rw [transport] at h
    split at h
    · next hrunning =>
      split at h
      · next cmd rest hcmds => exact handleCmd_did hissued hrunning hcmds h
      · cases h
    · cases h
  | cmdsClosed =>
    rw [transport] at h
    split_ifs at h with hclosed
    obtain rfl := Option.some.inj h
    refine .aside ?_ rfl
    constructor <;> simp +contextual [hclosed.1]
  | drain id =>
    rw [transport] at h
    split_ifs at h with hdraining
    rw [← Option.some.inj h]
    exact answer_did rfl (.inr (.inr ⟨hdraining.1, rfl⟩))
  | finish =>
    rw [transport] at h
    split_ifs at h with hdraining
    rw [← Option.some.inj h]
    exact .stopped rfl
  | abort =>
    rw [transport] at h
    split_ifs at h with hended
    rw [← Option.some.inj h]
    exact .stopped rfl

end Did

/-! ## What is held, and where it comes from -/

/-- The moves of a transport. -/
abbrev Moves (Peer Addr RequestId Channel : Type) :=
  List (Move (Transport Peer Addr RequestId Channel) (Event Peer Addr RequestId Channel)
    (Output Peer Addr RequestId Channel))

section Traced

variable {Peer Addr RequestId Channel : Type} {past : Moves Peer Addr RequestId Channel}
  {s : Transport Peer Addr RequestId Channel}
  {x : Move (Transport Peer Addr RequestId Channel) (Event Peer Addr RequestId Channel)
    (Output Peer Addr RequestId Channel)}

/-- This call made the waiter. -/
def Made (past : Moves Peer Addr RequestId Channel) (w : ℕ)
    (event : Event Peer Addr RequestId Channel) : Prop :=
  ∃ x ∈ past, x.event = event ∧ x.before.nextWaiter = w

/-- The requests from outside, in their order. -/
def arrived (past : Moves Peer Addr RequestId Channel) : List (Received Peer Channel) :=
  past.filterMap fun x => x.event.received

/-- A request from outside has this number, and has been handed out with it. -/
def Handed (past : Moves Peer Addr RequestId Channel) (n : ℕ) (r : Received Peer Channel) : Prop :=
  (arrived past)[n]? = some r ∧ .handed r.peer r.request n ∈ shown past

/-- The numbers are the positions of the requests. -/
structure Numbered (past : Moves Peer Addr RequestId Channel)
    (s : Transport Peer Addr RequestId Channel) : Prop where
  received : s.received = arrived past
  ids : ((arrived past).map Received.id).Nodup
  channels : ((arrived past).map Received.channel).Nodup
  nextInboundId : s.nextInboundId = (arrived past).length % 2 ^ 64

/-- What a transport holds has been given to it. -/
structure Traced (past : Moves Peer Addr RequestId Channel)
    (s : Transport Peer Addr RequestId Channel) : Prop where
  gaveUp : ∀ w ∈ s.gaveUp, ∃ x ∈ past, x.event = .giveUp w
  issued : ∀ e ∈ s.pendingOutbound, e.1 ∈ s.issued
  pendingOutbound : ∀ e ∈ s.pendingOutbound, ∃ peer request,
    Made past e.2 (.request peer request) ∧ .sent e.1 e.2 peer request ∈ shown past
  requests : ∀ peer request w, .request peer request w ∈ s.cmds →
    Made past w (.request peer request)
  dials : ∀ peer addr w, .dial peer addr w ∈ s.cmds → Made past w (.dial peer addr)
  responses : ∀ n bytes, .sendResponse n bytes ∈ s.cmds →
    (∃ r, Handed past n r) ∧ ∃ x ∈ past, x.event = .reply n bytes
  ended : s.task = .ended → s.waiters = []
  pendingInbound : ∀ e ∈ s.pendingInbound, ∃ r, (arrived past)[e.1]? = some r ∧ r.channel = e.2
  inbound : ∀ e ∈ s.inbound, ∃ r, (arrived past)[e.2.2]? = some r ∧ r.peer = e.1 ∧ r.request = e.2.1
  replies : ∀ n ∈ s.replies, ∃ r, Handed past n r

theorem call_cases {event : Event Peer Addr RequestId Channel} {cmd : ℕ → Cmd Peer Addr}
    (hcall : event.call = some cmd) :
    (∃ peer request, event = .request peer request ∧ cmd = .request peer request) ∨
      ∃ peer addr, event = .dial peer addr ∧ cmd = .dial peer addr := by
  cases event with
  | request peer request => exact .inl ⟨peer, request, rfl, (Option.some.inj hcall).symm⟩
  | dial peer addr => exact .inr ⟨peer, addr, rfl, (Option.some.inj hcall).symm⟩
  | _ => cases hcall

theorem received_of_call {event : Event Peer Addr RequestId Channel} {cmd : ℕ → Cmd Peer Addr}
    (hcall : event.call = some cmd) : event.received = none := by
  rcases call_cases hcall with ⟨peer, request, rfl, -⟩ | ⟨peer, addr, rfl, -⟩ <;> rfl

@[simp] theorem arrived_snoc :
    arrived (past ++ [x]) = arrived past ++ x.event.received.toList := by
  rw [arrived, List.filterMap_append, arrived]
  cases h : x.event.received <;> simp [h]

theorem Made.snoc {w : ℕ} {event : Event Peer Addr RequestId Channel} (h : Made past w event) :
    Made (past ++ [x]) w event :=
  let ⟨y, hy, hmade⟩ := h
  ⟨y, List.mem_append_left _ hy, hmade⟩

theorem arrived_get_snoc {n : ℕ} {r : Received Peer Channel} (h : (arrived past)[n]? = some r) :
    (arrived (past ++ [x]))[n]? = some r := by
  rw [arrived_snoc, List.getElem?_append_left (List.getElem?_eq_some_iff.1 h).1, h]

theorem Handed.snoc {n : ℕ} {r : Received Peer Channel} (h : Handed past n r) :
    Handed (past ++ [x]) n r :=
  ⟨arrived_get_snoc h.1, by rw [shown_snoc]; exact List.mem_append_left _ h.2⟩

theorem Traced.snoc (h : Traced past s) : Traced (past ++ [x]) s where
  gaveUp w hw := by
    obtain ⟨y, hy, hevent⟩ := h.gaveUp w hw
    exact ⟨y, List.mem_append_left _ hy, hevent⟩
  issued := h.issued
  pendingOutbound e he := by
    obtain ⟨peer, request, hmade, hsent⟩ := h.pendingOutbound e he
    refine ⟨peer, request, hmade.snoc, ?_⟩
    rw [shown_snoc]
    exact List.mem_append_left _ hsent
  requests peer request w hw := (h.requests peer request w hw).snoc
  dials peer addr w hw := (h.dials peer addr w hw).snoc
  responses n bytes hn := by
    obtain ⟨⟨r, hr⟩, y, hy, hevent⟩ := h.responses n bytes hn
    exact ⟨⟨r, hr.snoc⟩, y, List.mem_append_left _ hy, hevent⟩
  ended := h.ended
  pendingInbound e he := by
    obtain ⟨r, hr, hchannel⟩ := h.pendingInbound e he
    exact ⟨r, arrived_get_snoc hr, hchannel⟩
  inbound e he := by
    obtain ⟨r, hr, hrequest⟩ := h.inbound e he
    exact ⟨r, arrived_get_snoc hr, hrequest⟩
  replies n hn := by
    obtain ⟨r, hr⟩ := h.replies n hn
    exact ⟨r, hr.snoc⟩

/-- There are no more requests from outside than ids. -/
theorem length_arrived (h : ((arrived past).map Received.id).Nodup) :
    (arrived past).length ≤ 2 ^ 64 := by
  have hcard := h.length_le_card
  rwa [List.length_map, ← FinEnum.card_eq_fintypeCard, FinEnum.card_UInt64] at hcard

/-- A move numbers a request from outside, or leaves the numbers alone. -/
theorem numbers_of_did {event : Event Peer Addr RequestId Channel} {out} (h : Did s event out) :
    (event.received = none ∧ out.1.received = s.received ∧
      out.1.nextInboundId = s.nextInboundId) ∨
    ∃ r, event = .swarm (.request r) ∧ r.id ∉ s.received.map Received.id ∧
      r.channel ∉ s.received.map Received.channel ∧ out.1.received = s.received ++ [r] ∧
      out.1.nextInboundId = (s.nextInboundId + 1) % 2 ^ 64 := by
  cases h with
  | received hfresh hinbound hpending => exact .inr ⟨_, rfl, hfresh.1, hfresh.2, rfl, rfl⟩
  | asked hcall hopen => exact .inl ⟨received_of_call hcall, rfl, rfl⟩
  | refused hcall hended => exact .inl ⟨received_of_call hcall, rfl, rfl⟩
  | gaveUp => exact .inl ⟨rfl, rfl, rfl⟩
  | handed hinbound => exact .inl ⟨rfl, rfl, rfl⟩
  | replied hheld => exact .inl ⟨rfl, rfl, rfl⟩
  | sent hcmds hfresh => exact .inl ⟨rfl, rfl, rfl⟩
  | dialed hcmds ha => exact .inl ⟨rfl, rfl, rfl⟩
  | responded hcmds hinbound => exact .inl ⟨rfl, rfl, rfl⟩
  | answered hpending ha hnone => exact .inl ⟨hnone, rfl, rfl⟩
  | stopped hnone => exact .inl ⟨hnone, rfl, rfl⟩
  | aside h hnone => exact .inl ⟨hnone, h.received, h.nextInboundId⟩

theorem Numbered.step (h : Did x.before x.event (x.after, x.outputs))
    (hs : Numbered past x.before) : Numbered (past ++ [x]) x.after := by
  obtain ⟨hreceived, hids, hchannels, hnext⟩ := hs
  rcases numbers_of_did h with ⟨hevent, hafter, hn⟩ | ⟨r, hevent, hid, hchannel, hafter, hn⟩
  · dsimp only at hafter hn
    constructor <;> simp [hevent, hafter, hn, hreceived, hids, hchannels, hnext]
  · dsimp only at hafter hn
    rw [hreceived] at hid hchannel
    constructor
    · simp [hafter, hreceived, hevent, Event.received]
    · simpa [hevent, Event.received, List.nodup_append, hids] using hid
    · simpa [hevent, Event.received, List.nodup_append, hchannels] using hchannel
    · simp [hn, hnext, hevent, Event.received]

/-- What the task takes from its commands, and what it leaves there. -/
theorem Traced.rest {cmd : Cmd Peer Addr} {rest : List (Cmd Peer Addr)} (h : Traced past s)
    (hcmds : s.cmds = cmd :: rest) : Traced past { s with cmds := rest } :=
  have hrest : ∀ c ∈ rest, c ∈ s.cmds := fun c hc => by
    rw [hcmds]
    exact List.mem_cons_of_mem _ hc
  { h with
    requests := fun peer request w hw => h.requests peer request w (hrest _ hw)
    dials := fun peer addr w hw => h.dials peer addr w (hrest _ hw)
    responses := fun n bytes hn => h.responses n bytes (hrest _ hn)
    ended := fun hended => by
      have hnone := h.ended hended
      simp only [Transport.waiters, List.append_eq_nil_iff, List.map_eq_nil_iff,
        List.filterMap_eq_nil_iff] at hnone ⊢
      exact ⟨hnone.1, fun c hc => hnone.2 c (hrest c hc)⟩ }

/-- A move that is among the moves gives what the transport holds after it. -/
theorem Traced.after {moves : Moves Peer Addr RequestId Channel}
    {event : Event Peer Addr RequestId Channel} {out} (h : Did s event out)
    (hkept : Traced moves s) (hmade : Made moves s.nextWaiter event)
    (hshown : ∀ o ∈ out.2, o ∈ shown moves)
    (hlast : ∀ r, event.received = some r → (arrived moves)[s.nextInboundId]? = some r) :
    Traced moves out.1 := by
  cases h with
  | asked hcall hopen =>
    rcases call_cases hcall with ⟨peer, request, rfl, rfl⟩ | ⟨peer, addr, rfl, rfl⟩
    · exact { hkept with
        requests := fun peer' request' w hw => by
          rcases List.mem_append.1 hw with hw | hw
          · exact hkept.requests peer' request' w hw
          · obtain ⟨rfl, rfl, rfl⟩ : peer' = peer ∧ request' = request ∧ w = s.nextWaiter := by
              simpa using hw
            exact hmade
        dials := fun peer' addr w hw => hkept.dials peer' addr w (by simpa using hw)
        responses := fun n bytes hn => hkept.responses n bytes (by simpa using hn)
        ended := fun hended => absurd hended hopen }
    · exact { hkept with
        requests := fun peer' request w hw => hkept.requests peer' request w (by simpa using hw)
        dials := fun peer' addr' w hw => by
          rcases List.mem_append.1 hw with hw | hw
          · exact hkept.dials peer' addr' w hw
          · obtain ⟨rfl, rfl, rfl⟩ : peer' = peer ∧ addr' = addr ∧ w = s.nextWaiter := by
              simpa using hw
            exact hmade
        responses := fun n bytes hn => hkept.responses n bytes (by simpa using hn)
        ended := fun hended => absurd hended hopen }
  | refused hcall hended => exact { hkept with }
  | @gaveUp w =>
    exact { hkept with
      gaveUp := fun w' hw' => by
        rcases List.mem_cons.1 hw' with rfl | hw'
        · obtain ⟨x, hx, hevent, -⟩ := hmade
          exact ⟨x, hx, hevent⟩
        · exact hkept.gaveUp w' hw' }
  | @handed peer request n rest hinbound =>
    have hrest : ∀ e ∈ rest, e ∈ s.inbound := fun e he => by
      rw [hinbound]
      exact List.mem_cons_of_mem _ he
    exact { hkept with
      inbound := fun e he => hkept.inbound e (hrest e he)
      replies := fun n' hn' => by
        rcases List.mem_cons.1 hn' with rfl | hn'
        · obtain ⟨r, hr, rfl, rfl⟩ := hkept.inbound (peer, request, n') (by simp [hinbound])
          exact ⟨r, hr, hshown _ List.mem_cons_self⟩
        · exact hkept.replies n' hn' }
  | @replied n bytes hheld =>
    exact { hkept with
      requests := fun peer request w hw => hkept.requests peer request w (by simpa using hw)
      dials := fun peer addr w hw => hkept.dials peer addr w (by simpa using hw)
      responses := fun n' bytes' hn' => by
        rcases List.mem_append.1 hn' with hn' | hn'
        · exact hkept.responses n' bytes' hn'
        · obtain ⟨rfl, rfl⟩ : n' = n ∧ bytes' = bytes := by simpa using hn'
          obtain ⟨x, hx, hevent, -⟩ := hmade
          exact ⟨hkept.replies n' hheld, x, hx, hevent⟩
      ended := fun hended => by
        have hnone := hkept.ended hended
        simpa [Transport.waiters, List.filterMap_cons] using hnone
      replies := fun n' hn' => hkept.replies n' (List.mem_of_mem_erase hn') }
  | @sent id dialed peer request w rest hcmds hfresh =>
    have hrequest := hkept.requests peer request w (by simp [hcmds])
    exact { hkept.rest hcmds with
      issued := fun e he => by
        rcases List.mem_cons.1 he with rfl | he
        · exact List.mem_cons_self
        · exact List.mem_cons_of_mem _ (hkept.issued e he)
      pendingOutbound := fun e he => by
        rcases List.mem_cons.1 he with rfl | he
        · exact ⟨peer, request, hrequest, hshown _ List.mem_cons_self⟩
        · exact hkept.pendingOutbound e he
      ended := fun hended => by
        have hnone := hkept.ended hended
        simp [Transport.waiters, hcmds] at hnone }
  | dialed hcmds ha => exact { hkept.rest hcmds with }
  | responded hcmds hinbound =>
    exact { hkept.rest hcmds with
      pendingInbound := fun e he => hkept.pendingInbound e (by
        rw [hinbound]
        simp only [List.mem_append, List.mem_cons] at he ⊢
        tauto) }
  | @received r inbound pendingInbound hfresh hinbound hpending =>
    exact { hkept with
      pendingInbound := fun e he => by
        rcases List.mem_cons.1 (hpending.subset he) with rfl | he
        · exact ⟨r, hlast r rfl, rfl⟩
        · exact hkept.pendingInbound e he
      inbound := fun e he => by
        rcases hinbound e he with rfl | he
        · exact ⟨r, hlast r rfl, rfl, rfl⟩
        · exact hkept.inbound e he }
  | @answered event id l₁ w l₂ a hpending ha hnone =>
    have hleft : ∀ e ∈ l₁ ++ l₂, e ∈ s.pendingOutbound := fun e he => by
      rw [hpending]
      simp only [List.mem_append, List.mem_cons] at he ⊢
      tauto
    exact { hkept with
      issued := fun e he => hkept.issued e (hleft e he)
      pendingOutbound := fun e he => hkept.pendingOutbound e (hleft e he)
      ended := fun hended => by
        have hnone := hkept.ended hended
        simp [Transport.waiters, hpending] at hnone }
  | stopped hnone =>
    exact { hkept with
      issued := by simp [Transport.endTask]
      pendingOutbound := by simp [Transport.endTask]
      requests := by simp [Transport.endTask]
      dials := by simp [Transport.endTask]
      responses := by simp [Transport.endTask]
      ended := fun _ => rfl
      pendingInbound := by simp [Transport.endTask] }
  | aside h hnone =>
    have hcmds : ∀ cmd ∈ out.1.cmds, cmd ≠ .shutdown → cmd ∈ s.cmds := fun cmd hcmd hne =>
      (h.cmds_mem cmd hcmd).resolve_left hne
    constructor
    · rw [h.gaveUp]
      exact hkept.gaveUp
    · rw [h.pendingOutbound, h.issued]
      exact hkept.issued
    · rw [h.pendingOutbound]
      exact hkept.pendingOutbound
    · exact fun peer request w hw => hkept.requests peer request w (hcmds _ hw (by simp))
    · exact fun peer addr w hw => hkept.dials peer addr w (hcmds _ hw (by simp))
    · exact fun n bytes hn => hkept.responses n bytes (hcmds _ hn (by simp))
    · intro hended
      rw [Transport.waiters, h.pendingOutbound, h.cmds]
      exact hkept.ended (h.ended.1 hended)
    · rw [h.pendingInbound]
      exact hkept.pendingInbound
    · exact fun e he => hkept.inbound e (h.inbound he)
    · exact fun n hn => hkept.replies n (h.replies hn)

/-- What a transport holds after a run has been given to it in the run. -/
theorem traced [DecidableEq RequestId] [DecidableEq Channel]
    {run : Moves Peer Addr RequestId Channel} {t : Transport Peer Addr RequestId Channel}
    (hrun : Runs transport .new run t) : Numbered run t ∧ Traced run t := by
  refine hrun.history (I := fun past s => Numbered past s ∧ Traced past s) ?_ ?_
  · intro past x hx ⟨hnumbered, htraced⟩
    have hdid : Did x.before x.event (x.after, x.outputs) := did_of_transport htraced.issued hx
    have hnow : x ∈ past ++ [x] := List.mem_append_right _ List.mem_cons_self
    have hnumbered' : Numbered (past ++ [x]) x.after := hnumbered.step hdid
    refine ⟨hnumbered', .after hdid htraced.snoc ⟨x, hnow, rfl, rfl⟩ ?_ ?_⟩
    · exact fun o ho => mem_shown.2 ⟨x, hnow, ho⟩
    · intro r hr
      -- the number is the position, as the request has an id too
      have hids := length_arrived hnumbered'.ids
      rw [arrived_snoc, hr, List.length_append] at hids
      have hlt : (arrived past).length < 2 ^ 64 := hids
      rw [arrived_snoc, hr, hnumbered.nextInboundId, Nat.mod_eq_of_lt hlt]
      simp
  · exact ⟨⟨rfl, .nil, .nil, rfl⟩, by constructor <;> simp [Transport.new]⟩

end Traced

/-! ## What is used once -/

section Counts

variable {Peer Addr RequestId Channel : Type} {s : Transport Peer Addr RequestId Channel} {w : ℕ}
  {channel : Channel}

/-- The oneshot of this waiter is used up. -/
def Output.isResult (w : ℕ) : Output Peer Addr RequestId Channel → Bool
  | .result w' _ _ => decide (w' = w)
  | _ => false

/-- The request of this waiter goes out. -/
def Output.isSent (w : ℕ) : Output Peer Addr RequestId Channel → Bool
  | .sent _ w' _ _ => decide (w' = w)
  | _ => false

/-- A request goes out under this id. -/
def Output.hasId [DecidableEq RequestId] (id : RequestId) :
    Output Peer Addr RequestId Channel → Bool
  | .sent id' _ _ _ => decide (id' = id)
  | _ => false

/-- A response goes out on this channel. -/
def Output.isResponse [DecidableEq Channel] (channel : Channel) :
    Output Peer Addr RequestId Channel → Bool
  | .responded channel' _ => decide (channel' = channel)
  | _ => false

/-- The senders of a waiter that have not come to the task, also those there will be. -/
def queued (cmds : List (Cmd Peer Addr)) (nextWaiter w : ℕ) : ℕ :=
  (cmds.filterMap Cmd.reply).count w + if nextWaiter ≤ w then 1 else 0

/-- The senders of a waiter. -/
def Transport.senders (s : Transport Peer Addr RequestId Channel) (w : ℕ) : ℕ :=
  (s.pendingOutbound.map Prod.snd).count w + queued s.cmds s.nextWaiter w

/-- How often a channel is there, or will be. -/
def Transport.channels [DecidableEq Channel] (s : Transport Peer Addr RequestId Channel)
    (channel : Channel) : ℕ :=
  (s.pendingInbound.map Prod.snd).count channel +
    if channel ∈ s.received.map Received.channel then 0 else 1

theorem queued_next {cmds : List (Cmd Peer Addr)} {n : ℕ} :
    queued cmds n w = queued cmds (n + 1) w + if n = w then 1 else 0 := by
  rw [queued, queued]
  split_ifs <;> omega

theorem filterMap_reply_cons {rest : List (Cmd Peer Addr)} {cmd : Cmd Peer Addr} :
    (cmd :: rest).filterMap Cmd.reply = cmd.reply.toList ++ rest.filterMap Cmd.reply := by
  cases cmd <;> rfl

theorem queued_append {cmds : List (Cmd Peer Addr)} {cmd : Cmd Peer Addr} {n : ℕ} :
    queued (cmds ++ [cmd]) n w = queued cmds n w + cmd.reply.toList.count w := by
  rw [queued, queued, List.filterMap_append, filterMap_reply_cons, List.filterMap_nil,
    List.append_nil, List.count_append]
  omega

theorem queued_cons {rest : List (Cmd Peer Addr)} {cmd : Cmd Peer Addr} {n : ℕ} :
    queued (cmd :: rest) n w = queued rest n w + cmd.reply.toList.count w := by
  rw [queued, queued, filterMap_reply_cons, List.count_append]
  omega

/-- The senders of a queue that is dropped. -/
theorem queued_nil (cmds : List (Cmd Peer Addr)) {n : ℕ} : queued cmds n w =
    queued ([] : List (Cmd Peer Addr)) n w + (cmds.filterMap Cmd.reply).count w := by
  rw [queued, queued]
  simp [add_comm]

/-- A call queues the sender of the next waiter. -/
theorem queued_call {event : Event Peer Addr RequestId Channel} {cmd : ℕ → Cmd Peer Addr}
    {cmds : List (Cmd Peer Addr)} {n : ℕ} (hcall : event.call = some cmd) :
    queued (cmds ++ [cmd n]) (n + 1) w = queued cmds n w := by
  have hreply : (cmd n).reply = some n := by
    rcases call_cases hcall with ⟨peer, request, -, rfl⟩ | ⟨peer, addr, -, rfl⟩ <;> rfl
  rw [queued_append, hreply, queued_next (n := n)]
  simp [List.count_singleton]

@[simp] theorem isResult_deliver {w' : ℕ} {a : Answer Peer} :
    Output.isResult w (s.deliver w' a) = decide (w' = w) := rfl

@[simp] theorem isSent_deliver {w' : ℕ} {a : Answer Peer} :
    Output.isSent w (s.deliver w' a) = false := rfl

@[simp] theorem hasId_deliver [DecidableEq RequestId] {w' : ℕ} {a : Answer Peer}
    {id : RequestId} : Output.hasId id (s.deliver w' a) = false := rfl

@[simp] theorem isResponse_deliver [DecidableEq Channel] {w' : ℕ} {a : Answer Peer} :
    Output.isResponse channel (s.deliver w' a) = false := rfl

/-- What is not a result, a request or a response does not count. -/
theorem Aside.countP {out} (h : Aside s out) {p : Output Peer Addr RequestId Channel → Bool}
    (hno : p .noRequest = false) (hdiscovery : ∀ d, p (.discovery d) = false) :
    out.2.countP p = 0 := by
  rw [List.countP_eq_zero]
  intro o ho
  rcases h.outputs o ho with rfl | ⟨d, rfl⟩
  · simp [hno]
  · simp [hdiscovery]

theorem Aside.queued {out} (h : Aside s out) :
    queued out.1.cmds out.1.nextWaiter w = queued s.cmds s.nextWaiter w := by
  rw [Libp2p.queued, Libp2p.queued, h.cmds, h.nextWaiter]

/-- **A waiter is waited for in one place**, until its oneshot is used up. -/
theorem waiters_balance {event : Event Peer Addr RequestId Channel} {out} (h : Did s event out) :
    out.2.countP (Output.isResult w) + out.1.senders w = s.senders w := by
  cases h with
  | asked hcall hopen => simp [Transport.senders, queued_call hcall]
  | refused hcall hended =>
    rw [Transport.senders, Transport.senders, queued_next (n := s.nextWaiter)]
    simp [List.countP_cons]
    omega
  | gaveUp => simp [Transport.senders]
  | handed hinbound => simp [Transport.senders, Output.isResult]
  | replied hheld => simp [Transport.senders, queued_append]
  | sent hcmds hfresh =>
    simp [Transport.senders, hcmds, queued_cons, Output.isResult, List.count_cons]
    omega
  | dialed hcmds ha =>
    simp [Transport.senders, hcmds, queued_cons, List.count_cons, List.countP_cons]
    omega
  | responded hcmds hinbound => simp [Transport.senders, hcmds, queued_cons, Output.isResult]
  | received hfresh hinbound hpending => simp [Transport.senders]
  | answered hpending ha hnone =>
    simp [Transport.senders, hpending, List.count_cons, List.countP_cons]
    omega
  | stopped hnone =>
    have hcount : s.endTask.2.countP (Output.isResult w) = s.waiters.count w := by
      rw [Transport.endTask, List.countP_map, List.count]
      exact List.countP_congr fun w' _ => by simp
    rw [hcount, Transport.waiters, List.count_append, Transport.senders, Transport.senders,
      queued_nil s.cmds]
    simp [Transport.endTask]
    omega
  | aside h hnone =>
    rw [h.countP rfl (fun _ => rfl), Transport.senders, Transport.senders, h.pendingOutbound,
      h.queued]
    exact Nat.zero_add _

/-- A request goes out when its sender comes to the task. -/
theorem sent_budget {event : Event Peer Addr RequestId Channel} {out} (h : Did s event out) :
    out.2.countP (Output.isSent w) + queued out.1.cmds out.1.nextWaiter w ≤
      queued s.cmds s.nextWaiter w := by
  cases h with
  | asked hcall hopen => simp [queued_call hcall]
  | refused hcall hended =>
    rw [queued_next (n := s.nextWaiter)]
    simp
  | gaveUp => simp
  | handed hinbound => simp [Output.isSent]
  | replied hheld => simp [queued_append]
  | sent hcmds hfresh =>
    simp [hcmds, queued_cons, Output.isSent, List.count_cons, List.countP_cons]
    omega
  | dialed hcmds ha => simp [hcmds, queued_cons]
  | responded hcmds hinbound => simp [hcmds, queued_cons, Output.isSent]
  | received hfresh hinbound hpending => simp
  | answered hpending ha hnone => simp
  | stopped hnone =>
    have hcount : s.endTask.2.countP (Output.isSent w) = 0 := by
      simp [Transport.endTask, List.countP_eq_zero]
    rw [hcount, queued_nil s.cmds, Nat.zero_add]
    exact Nat.le_add_right _ _
  | aside h hnone => rw [h.countP rfl (fun _ => rfl), h.queued, Nat.zero_add]

/-- An id is used once. -/
theorem ids_budget [DecidableEq RequestId] {event : Event Peer Addr RequestId Channel} {out}
    {id : RequestId} (h : Did s event out) :
    out.2.countP (Output.hasId id) + (if id ∈ out.1.issued then 0 else 1) ≤
      if id ∈ s.issued then 0 else 1 := by
  cases h with
  | asked hcall hopen => simp
  | refused hcall hended => simp
  | gaveUp => simp
  | handed hinbound => simp [Output.hasId]
  | replied hheld => simp
  | @sent id' dialed peer bytes w rest hcmds hfresh =>
    by_cases hid : id' = id
    · rw [← hid, if_neg hfresh]
      simp [Output.hasId]
    · simp [Output.hasId, hid, Ne.symm hid]
  | dialed hcmds ha => simp
  | responded hcmds hinbound => simp [Output.hasId]
  | received hfresh hinbound hpending => simp
  | answered hpending ha hnone => simp
  | stopped hnone =>
    have hcount : s.endTask.2.countP (Output.hasId id) = 0 := by
      simp [Transport.endTask, List.countP_eq_zero]
    rw [hcount]
    exact (Nat.zero_add _).le
  | aside h hnone => rw [h.countP rfl (fun _ => rfl), h.issued, Nat.zero_add]

/-- A channel is used once. -/
theorem channels_budget [DecidableEq Channel] {event : Event Peer Addr RequestId Channel} {out}
    (h : Did s event out) :
    out.2.countP (Output.isResponse channel) + out.1.channels channel ≤ s.channels channel := by
  cases h with
  | asked hcall hopen => simp [Transport.channels]
  | refused hcall hended => simp [Transport.channels]
  | gaveUp => simp [Transport.channels]
  | handed hinbound => simp [Transport.channels, Output.isResponse]
  | replied hheld => simp [Transport.channels]
  | sent hcmds hfresh => simp [Transport.channels, Output.isResponse]
  | dialed hcmds ha => simp [Transport.channels]
  | responded hcmds hinbound =>
    simp [Transport.channels, hinbound, Output.isResponse, List.count_cons, List.countP_cons]
    omega
  | @received r inbound pendingInbound hfresh hinbound hpending =>
    have hcount := (hpending.map Prod.snd).count_le channel
    have hnew := hfresh.2
    simp only [List.map_cons, List.count_cons, beq_iff_eq] at hcount
    simp only [Transport.channels, List.countP_nil, List.map_append, List.mem_append, List.map_cons,
      List.map_nil, List.mem_singleton]
    by_cases hchannel : r.channel = channel
    · rw [← hchannel] at hcount ⊢
      rw [if_neg hnew, if_pos (.inr rfl)]
      simpa using hcount
    · have hsame : channel ∈ s.received.map Received.channel ∨ channel = r.channel ↔
          channel ∈ s.received.map Received.channel := or_iff_left (Ne.symm hchannel)
      simp only [hsame]
      rw [if_neg hchannel] at hcount
      omega
  | answered hpending ha hnone => simp [Transport.channels]
  | stopped hnone =>
    have hcount : s.endTask.2.countP (Output.isResponse channel) = 0 := by
      simp [Transport.endTask, List.countP_eq_zero]
    rw [hcount]
    simp [Transport.endTask, Transport.channels]
  | aside h hnone =>
    rw [h.countP rfl (fun _ => rfl), Transport.channels, Transport.channels, h.pendingInbound,
      h.received, Nat.zero_add]

end Counts

/-! ## Requests and responses -/

section Matched

variable {Peer Addr RequestId Channel : Type} {past : Moves Peer Addr RequestId Channel}
  {s : Transport Peer Addr RequestId Channel} {event : Event Peer Addr RequestId Channel}

/-- A move may give a waiter this result: it brings what came for the id under which the waiter's
own request had gone out, or what libp2p says to the waiter's own dial; or the task runs no more. -/
inductive Own (past : Moves Peer Addr RequestId Channel)
    (event : Event Peer Addr RequestId Channel) (after : Transport Peer Addr RequestId Channel)
    (w : ℕ) : Answer Peer → Prop
  | response {id peer request bytes} (hmade : Made past w (.request peer request))
    (hsent : .sent id w peer request ∈ shown past) (hevent : event = .swarm (.response id bytes)) :
    Own past event after w (.response bytes)
  | outboundFailure {id peer request peer' reason} (hmade : Made past w (.request peer request))
    (hsent : .sent id w peer request ∈ shown past)
    (hevent : event = .swarm (.outboundFailure id peer' reason)) :
    Own past event after w (.error (.outboundFailure peer' reason))
  | dialed {id peer addr} (hmade : Made past w (.dial peer addr))
    (hevent : event = .cmd id (.ok ())) : Own past event after w .dialed
  | notDialed {id peer addr text} (hmade : Made past w (.dial peer addr))
    (hevent : event = .cmd id (.error text)) : Own past event after w (.error (.libp2p text))
  | swarmGone (hgone : after.task ≠ .running) : Own past event after w (.error .swarmGone)

/-- Requests and responses are matched one to one. -/
structure Matched [DecidableEq RequestId] [DecidableEq Channel]
    (run : Moves Peer Addr RequestId Channel) (t : Transport Peer Addr RequestId Channel) :
    Prop where
  /-- A waiter has one result at most. -/
  result : ∀ w, (shown run).countP (Output.isResult w) ≤ 1
  /-- It is its own, and it is heard unless the waiter has given up. -/
  own : ∀ past x rest, run = past ++ x :: rest → ∀ w a heard, .result w a heard ∈ x.outputs →
    Own past x.event x.after w a ∧ (heard = false → ∃ y ∈ past, y.event = .giveUp w)
  /-- What is sent for a waiter is its own request, -/
  sent : ∀ past x rest, run = past ++ x :: rest → ∀ id w peer request,
    .sent id w peer request ∈ x.outputs → Made past w (.request peer request)
  /-- once, -/
  sent_once : ∀ w, (shown run).countP (Output.isSent w) ≤ 1
  /-- under an id of its own. -/
  id_once : ∀ id, (shown run).countP (Output.hasId id) ≤ 1
  /-- A response goes out on the channel of the request from outside that was handed out with the
  handle that gave the response, -/
  responded : ∀ past x rest, run = past ++ x :: rest → ∀ channel bytes,
    .responded channel bytes ∈ x.outputs →
      ∃ n r, Handed past n r ∧ r.channel = channel ∧ ∃ y ∈ past, y.event = .reply n bytes
  /-- once. -/
  channel_once : ∀ channel, (shown run).countP (Output.isResponse channel) ≤ 1
  /-- When the task has ended, every waiter has had its result. -/
  ended : t.task = .ended → ∀ w < t.nextWaiter, (shown run).countP (Output.isResult w) = 1

theorem own_of_did {out} (h : Did s event out) (htraced : Traced past s) {w : ℕ} {a : Answer Peer}
    {heard : Bool} (hresult : .result w a heard ∈ out.2) :
    Own past event out.1 w a ∧ (heard = false → ∃ y ∈ past, y.event = .giveUp w) := by
  suffices hown : Own past event out.1 w a ∧ heard = decide (w ∉ s.gaveUp) from
    ⟨hown.1, fun hheard => htraced.gaveUp w (by simpa [hheard] using hown.2)⟩
  cases h with
  | refused hcall hended =>
    obtain ⟨rfl, rfl, rfl⟩ := Output.result.inj (List.mem_singleton.1 hresult)
    exact ⟨.swarmGone (by simp [hended]), rfl⟩
  | @dialed id dialed peer addr w' rest a' hcmds ha =>
    obtain ⟨rfl, rfl, rfl⟩ := Output.result.inj (List.mem_singleton.1 hresult)
    have hmade := htraced.dials peer addr w (by simp [hcmds])
    refine ⟨?_, rfl⟩
    rcases ha with ⟨rfl, rfl⟩ | ⟨text, rfl, rfl⟩
    · exact .dialed hmade rfl
    · exact .notDialed hmade rfl
  | @answered event id l₁ w' l₂ a' hpending ha hnone =>
    obtain ⟨rfl, rfl, rfl⟩ := Output.result.inj (List.mem_singleton.1 hresult)
    obtain ⟨peer, request, hmade, hsent⟩ := htraced.pendingOutbound (id, w) (by simp [hpending])
    refine ⟨?_, rfl⟩
    rcases ha with ⟨bytes, rfl, rfl⟩ | ⟨peer', reason, rfl, rfl⟩ | ⟨hdraining, rfl⟩
    · exact .response hmade hsent rfl
    · exact .outboundFailure hmade hsent rfl
    · exact .swarmGone (by simp [hdraining])
  | stopped hnone =>
    obtain ⟨w', -, hw'⟩ := List.mem_map.1 hresult
    obtain ⟨rfl, rfl, rfl⟩ := Output.result.inj hw'
    exact ⟨.swarmGone (by simp [Transport.endTask]), rfl⟩
  | aside h hnone =>
    rcases h.outputs _ hresult with hno | ⟨d, hd⟩
    · cases hno
    · cases hd
  | _ => simp at hresult

theorem sent_of_did {out} (h : Did s event out) (htraced : Traced past s) {id : RequestId} {w : ℕ}
    {peer : Peer} {request : Bytes} (hsent : .sent id w peer request ∈ out.2) :
    Made past w (.request peer request) := by
  cases h with
  | @sent id' dialed peer' request' w' rest hcmds hfresh =>
    obtain ⟨rfl, rfl, rfl, rfl⟩ : id = id' ∧ w = w' ∧ peer = peer' ∧ request = request' := by
      simpa using hsent
    exact htraced.requests peer request w (by simp [hcmds])
  | stopped hnone =>
    obtain ⟨w', -, hw'⟩ := List.mem_map.1 hsent
    cases hw'
  | aside h hnone =>
    rcases h.outputs _ hsent with hno | ⟨d, hd⟩
    · cases hno
    · cases hd
  | _ => simp [Transport.deliver] at hsent

theorem responded_of_did {out} (h : Did s event out) (htraced : Traced past s) {channel : Channel}
    {bytes : Bytes} (hresponded : .responded channel bytes ∈ out.2) :
    ∃ n r, Handed past n r ∧ r.channel = channel ∧ ∃ y ∈ past, y.event = .reply n bytes := by
  cases h with
  | @responded id dialed n bytes' rest l₁ channel' l₂ hcmds hinbound =>
    obtain ⟨rfl, rfl⟩ : channel = channel' ∧ bytes = bytes' := by simpa using hresponded
    obtain ⟨⟨r, hr⟩, hreply⟩ := htraced.responses n bytes (by simp [hcmds])
    obtain ⟨r', hr', hchannel⟩ := htraced.pendingInbound (n, channel) (by simp [hinbound])
    -- the number is the position of one request
    obtain rfl : r = r' := Option.some.inj (hr.1.symm.trans hr')
    exact ⟨n, r, hr, hchannel, hreply⟩
  | stopped hnone =>
    obtain ⟨w', -, hw'⟩ := List.mem_map.1 hresponded
    cases hw'
  | aside h hnone =>
    rcases h.outputs _ hresponded with hno | ⟨d, hd⟩
    · cases hno
    · cases hd
  | _ => simp [Transport.deliver] at hresponded

/-- **Requests and responses are matched one to one.** -/
theorem requests_matched [DecidableEq RequestId] [DecidableEq Channel]
    (run : Moves Peer Addr RequestId Channel) (t : Transport Peer Addr RequestId Channel)
    (hrun : Runs transport .new run t) : Matched run t := by
  have hdid : ∀ past x rest, run = past ++ x :: rest →
      Traced past x.before ∧ Did x.before x.event (x.after, x.outputs) := by
    rintro past x rest rfl
    obtain ⟨hpast, hx, -⟩ := hrun.split
    have htraced := (traced hpast).2
    exact ⟨htraced, did_of_transport htraced.issued hx⟩
  have hmoves : ∀ x ∈ run, Did x.before x.event (x.after, x.outputs) := by
    intro x hx
    obtain ⟨past, rest, hsplit⟩ := List.append_of_mem hx
    exact (hdid past x rest hsplit).2
  have hresults : ∀ w, (shown run).countP (Output.isResult w) + t.senders w = 1 := by
    intro w
    have hbalance := hrun.balance (fun s => s.senders w)
      (fun x => x.outputs.countP (Output.isResult w)) fun x hx => waiters_balance (hmoves x hx)
    have hstart : (Transport.new : Transport Peer Addr RequestId Channel).senders w = 1 := by
      simp [Transport.senders, Transport.new, queued]
    rw [countP_shown, hbalance, hstart]
  refine ⟨?_, ?_, ?_, ?_, ?_, ?_, ?_, ?_⟩
  · intro w
    have hw := hresults w
    omega
  · intro past x rest hsplit w a heard hresult
    obtain ⟨htraced, hx⟩ := hdid past x rest hsplit
    exact own_of_did hx htraced hresult
  · intro past x rest hsplit id w peer request hsent
    obtain ⟨htraced, hx⟩ := hdid past x rest hsplit
    exact sent_of_did hx htraced hsent
  · intro w
    have hbudget := hrun.budget (fun s => queued s.cmds s.nextWaiter w)
      (fun x => x.outputs.countP (Output.isSent w)) fun x hx => sent_budget (hmoves x hx)
    have hstart : queued ([] : List (Cmd Peer Addr)) 0 w = 1 := by simp [queued]
    rw [countP_shown]
    simp only [Transport.new, hstart] at hbudget
    omega
  · intro id
    have hbudget := hrun.budget (fun s => if id ∈ s.issued then 0 else 1)
      (fun x => x.outputs.countP (Output.hasId id)) fun x hx => ids_budget (hmoves x hx)
    rw [countP_shown]
    simp only [Transport.new, List.not_mem_nil, if_false] at hbudget
    omega
  · intro past x rest hsplit channel bytes hresponded
    obtain ⟨htraced, hx⟩ := hdid past x rest hsplit
    exact responded_of_did hx htraced hresponded
  · intro channel
    have hbudget := hrun.budget (fun s => s.channels channel)
      (fun x => x.outputs.countP (Output.isResponse channel)) fun x hx =>
        channels_budget (hmoves x hx)
    have hstart : (Transport.new : Transport Peer Addr RequestId Channel).channels channel = 1 := by
      simp [Transport.channels, Transport.new]
    rw [countP_shown]
    omega
  · intro hended w hw
    have hnone := (traced hrun).2.ended hended
    have hsenders : t.senders w = t.waiters.count w := by
      rw [Transport.senders, queued, Transport.waiters, List.count_append, if_neg (by omega)]
      rfl
    rw [hnone, List.count_nil] at hsenders
    have hone := hresults w
    omega

/-- Two requests, of which the second is answered first and the other is left; and one from
outside. -/
def crossed : List (Event ℕ ℕ ℕ ℕ) :=
  [.request 1 [10], .request 2 [20], .cmd 7 (.ok ()), .cmd 8 (.ok ()), .swarm (.response 8 [21]),
    .swarm (.request ⟨0, 3, [30], 5⟩), .nextRequest, .reply 0 [31], .cmd 0 (.ok ()), .drop,
    .cmd 0 (.ok ()), .drain 7, .finish]

theorem crossed_run : (exec transport (.new : Transport ℕ ℕ ℕ ℕ) crossed).isSome = true := by decide

theorem requests_matched_crossed :
    Matched ((exec transport .new crossed).get crossed_run).1
        ((exec transport .new crossed).get crossed_run).2 ∧
      shown ((exec transport .new crossed).get crossed_run).1 =
        [.sent 7 0 1 [10], .sent 8 1 2 [20], .result 1 (.response [21]) true, .handed 3 [30] 0,
          .responded 5 [31], .result 0 (.error .swarmGone) true] :=
  ⟨requests_matched _ _ (get_runs crossed_run), rfl⟩

end Matched

end Libp2p

end Bypass
