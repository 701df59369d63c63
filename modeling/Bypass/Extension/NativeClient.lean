import Bypass.Cli.MessagingHost
import Bypass.Core.StoreMap
import Bypass.Foundations.Runs

/-!
# Requests of the extension

The extension's client (`native.ts`) gives each request an id, keeps a promise for it, and settles
the promise when a message with this id arrives, or when the port closes. A session is the client
and the messaging host together, with what is under way between them; the browser carries each
message whole, and in order.

* `BrowserSession.Inv`: what is pending is what is under way.
* `requests_answered`: as long as messages are not too long, every request gets its own answer.
* `request_unanswered`: a reply that is too long leaves its request waiting.
-/

namespace Bypass

/-! ## The client -/

/-- How a promise was settled: by a message, or with an error. -/
inductive Settlement where
  | resolved (msg : Bytes)
  | rejected
  deriving DecidableEq

/-- `NativeClient`: `pending` has the ids of its map, and `settled` is what came of the others. -/
structure NativeClient where
  nextId : ℕ
  pending : List ℕ
  closed : Bool
  settled : List (ℕ × Settlement)
  deriving DecidableEq

/-- `n++` of the script's numbers, which are exact up to `2 ^ 53`. -/
def numberSucc (n : ℕ) : ℕ := if n < 2 ^ 53 then n + 1 else n

namespace NativeClient

/-- A client that has just been constructed. -/
def fresh : NativeClient := ⟨1, [], false, []⟩

/-- `request`: the id of the message that was posted, if one was. `posted` is whether `postMessage`
did not throw. -/
def request (c : NativeClient) (posted : Bool) : NativeClient × Option ℕ :=
  if c.closed then (c, none)
  else
    let id := c.nextId
    let pending := if id ∈ c.pending then c.pending else c.pending ++ [id]
    if posted then ({ c with nextId := numberSucc id, pending }, some id)
    else
      ({ c with
          nextId := numberSucc id
          pending := pending.erase id
          settled := c.settled ++ [(id, .rejected)] }, none)

/-- `onMessage`, of a message whose `id` and `ok` are a number and a boolean, or not. -/
def onMessage (c : NativeClient) (parsed : Option (ℕ × Bool)) (msg : Bytes) : NativeClient :=
  match parsed with
  | none => c
  | some (id, _) =>
    if id ∈ c.pending then
      { c with
        pending := c.pending.erase id
        settled := c.settled ++ [(id, .resolved msg)] }
    else c

/-- `onDisconnect`. -/
def onDisconnect (c : NativeClient) : NativeClient :=
  { c with
    closed := true
    settled := c.settled ++ c.pending.map fun id => (id, .rejected)
    pending := [] }

/-- `close`. -/
def close (c : NativeClient) : NativeClient := if c.closed then c else c.onDisconnect

end NativeClient

/-! ## Sessions -/

/-- The browser's `JSON`: the message of a request, and the `id` and the `ok` of a reply. -/
structure Browser where
  post : ℕ → RequestBody → Bytes
  parse : Bytes → Option (ℕ × Bool)

def Reply.isOk : Reply → Bool
  | .ok _ _ => true
  | .err _ _ => false

/-- **Both sides read what the other wrote**, as long as ids are numbers that are exact. -/
structure SerdeJson.Agrees {JE : Type} (json : SerdeJson JE) (browser : Browser) : Prop where
  fromSlice_post : ∀ id body, id ≤ 2 ^ 53 → json.fromSlice (browser.post id body) = some ⟨id, body⟩
  parse_toVec : ∀ reply bytes, reply.id ≤ 2 ^ 53 → json.toVec reply = .ok bytes →
    browser.parse bytes = some (reply.id, reply.isOk)

/-- A client and its host. `posted` and `written` are all messages so far, in order. -/
structure BrowserSession (W : Type) where
  client : NativeClient
  toHost : List Bytes
  world : W
  toClient : List Bytes
  posted : List Bytes
  written : List Bytes

def BrowserSession.fresh {W : Type} (w : W) : BrowserSession W := ⟨.fresh, [], w, [], [], []⟩

inductive BrowserEvent where
  | request (body : RequestBody) (posted : Bool)
  | serve
  | deliver
  | disconnect
  | close

section BrowserSession

variable {W CE SE VE JE : Type} (platform : HostPlatform CE SE VE) (json : SerdeJson JE)
  (browser : Browser) (store : Store W CE SE VE) (moments : ℕ → Moment)

/-- The host takes the next message; when it would end with an error, it does not. -/
def BrowserSession.serve (s : BrowserSession W) : Option (BrowserSession W) :=
  match s.toHost with
  | [] => none
  | msg :: rest =>
    if maxReplyBytes < msg.length then none
    else
      match (hostReply platform json store (moments s.written.length) msg :
          Prog (Event CE SE VE) W (HostError JE Empty) Bytes).run s.world with
      | (.error _, _) => none
      | (.ok bytes, world) => some { s with
          toHost := rest
          world
          toClient := s.toClient ++ [bytes]
          written := s.written ++ [bytes] }

/-- The browser delivers the next message. -/
def BrowserSession.deliver (s : BrowserSession W) : Option (BrowserSession W) :=
  match s.toClient with
  | [] => none
  | msg :: rest =>
    if s.client.closed then none
    else some { s with
      client := s.client.onMessage (browser.parse msg) msg
      toClient := rest }

/-- A request of the extension. -/
def BrowserSession.request (s : BrowserSession W) (body : RequestBody) (posted : Bool) :
    BrowserSession W :=
  match s.client.request posted with
  | (client, none) => { s with client }
  | (client, some id) => { s with
      client
      toHost := s.toHost ++ [browser.post id body]
      posted := s.posted ++ [browser.post id body] }

/-- **Sessions**, in which requests, replies and deliveries come in any order. -/
def browserSession : Machine (BrowserSession W) BrowserEvent Empty := fun s e =>
  match e with
  | .request body posted => some (s.request browser body posted, [])
  | .serve => (s.serve platform json store moments).map fun t => (t, [])
  | .deliver => (s.deliver browser).map fun t => (t, [])
  | .disconnect => some ({ s with client := s.client.onDisconnect }, [])
  | .close => some ({ s with client := s.client.close }, [])

/-- The request fits into a frame, and its id is exact; the reply that is written next is not too
long. -/
def MessageFits (x : Move (BrowserSession W) BrowserEvent Empty) : Prop :=
  match x.event with
  | .request body _ => x.before.client.nextId < 2 ^ 53 ∧
      (browser.post x.before.client.nextId body).length ≤ maxReplyBytes
  | .serve => ∀ msg ∈ x.before.toHost.head?, ∀ req ∈ json.fromSlice msg,
      ReplyFits platform json store (moments x.before.written.length) req x.before.world
  | _ => True

/-! ### The invariant -/

/-- The reply `bytes` answers the request `msg`. -/
def AnswersMessage (msg bytes : Bytes) : Prop :=
  ∃ req, json.fromSlice msg = some req ∧ (∃ isOk, browser.parse bytes = some (req.id, isOk)) ∧
    bytes.length ≤ maxReplyBytes

/-- What has been served: the replies are those of the host's loop. -/
structure Served (w₀ : W) (s : BrowserSession W) (served : List Bytes) : Prop where
  posted : s.posted = served ++ s.toHost
  fits : ∀ msg ∈ s.posted, msg.length ≤ maxReplyBytes
  run : ∀ IE : Type, (serveAll platform json store moments 0 served :
    Prog (Event CE SE VE) W (HostError JE IE) _).run w₀ = (.ok s.written, s.world)
  answers : List.Forall₂ (AnswersMessage json browser) served s.written

/-- What is under way: requests that wait for the host, and replies that wait for the client. -/
structure UnderWay (s : BrowserSession W) (waiting : List Request) (arriving : List (ℕ × Bytes)) :
    Prop where
  toHost : s.toHost = waiting.map fun r => browser.post r.id r.body
  toClient : s.toClient = arriving.map Prod.snd
  parses : ∀ a ∈ arriving, ∃ isOk, browser.parse a.2 = some (a.1, isOk)
  written : ∀ a ∈ arriving, a.2 ∈ s.written
  nodup : (arriving.map Prod.fst ++ waiting.map Request.id).Nodup
  lt : ∀ id ∈ arriving.map Prod.fst ++ waiting.map Request.id, id < s.client.nextId
  pending : s.client.pending =
    if s.client.closed then [] else arriving.map Prod.fst ++ waiting.map Request.id

/-- The promises: every id given has one, and those resolved have their own reply. -/
structure Promises (s : BrowserSession W) : Prop where
  exact : s.client.nextId ≤ 2 ^ 53
  all : ∀ id, 1 ≤ id → id < s.client.nextId →
    id ∈ s.client.pending ∨ id ∈ s.client.settled.map Prod.fst
  own : ∀ id msg, (id, .resolved msg) ∈ s.client.settled →
    msg ∈ s.written ∧ ∃ isOk, browser.parse msg = some (id, isOk)

/-- **What is pending is what is under way.** -/
structure BrowserSession.Inv (w₀ : W) (s : BrowserSession W) : Prop where
  served : ∃ served, Served platform json browser store moments w₀ s served
  underWay : ∃ waiting arriving, UnderWay browser s waiting arriving
  promises : Promises browser s

variable {platform json browser store moments} {w₀ : W} {s : BrowserSession W}

theorem inv_fresh :
    BrowserSession.Inv platform json browser store moments w₀ (.fresh w₀) where
  served := ⟨[], rfl, List.forall_mem_nil _, fun _ => rfl, .nil⟩
  underWay := ⟨[], [], rfl, rfl, List.forall_mem_nil _, List.forall_mem_nil _, .nil,
    List.forall_mem_nil _, rfl⟩
  promises := {
    exact := Nat.one_le_two_pow
    all := fun _ hpos hlt => absurd hpos (Nat.not_le.2 hlt)
    own := fun _ _ hmem => absurd hmem List.not_mem_nil }

/-! ### Requests -/

namespace NativeClient

variable {c : NativeClient}

theorem request_of_closed (posted : Bool) (h : c.closed = true) : c.request posted = (c, none) := by
  rw [request, if_pos h]

theorem request_posted (hopen : c.closed = false) (hfresh : c.nextId ∉ c.pending)
    (hexact : c.nextId < 2 ^ 53) : c.request true =
      ({ c with nextId := c.nextId + 1, pending := c.pending ++ [c.nextId] }, some c.nextId) := by
  have hsucc : numberSucc c.nextId = c.nextId + 1 := if_pos hexact
  simp [request, hopen, hfresh, hsucc]

theorem request_failed (hopen : c.closed = false) (hfresh : c.nextId ∉ c.pending)
    (hexact : c.nextId < 2 ^ 53) : c.request false =
      ({ c with nextId := c.nextId + 1, settled := c.settled ++ [(c.nextId, .rejected)] }, none) := by
  have hsucc : numberSucc c.nextId = c.nextId + 1 := if_pos hexact
  simp [request, hopen, hfresh, hsucc, List.erase_append_right]

theorem onMessage_head {id : ℕ} {isOk : Bool} {ids : List ℕ} (msg : Bytes)
    (h : c.pending = id :: ids) : c.onMessage (some (id, isOk)) msg =
      { c with pending := ids, settled := c.settled ++ [(id, .resolved msg)] } := by
  simp [onMessage, h]

end NativeClient

/-- The next id is the id of nothing that is under way. -/
theorem UnderWay.fresh {waiting : List Request} {arriving : List (ℕ × Bytes)}
    (h : UnderWay browser s waiting arriving) :
    s.client.nextId ∉ arriving.map Prod.fst ++ waiting.map Request.id :=
  fun hmem => absurd (h.lt _ hmem) (lt_irrefl _)

theorem UnderWay.fresh_pending {waiting : List Request} {arriving : List (ℕ × Bytes)}
    (h : UnderWay browser s waiting arriving) : s.client.nextId ∉ s.client.pending := by
  rw [h.pending]
  split
  · exact List.not_mem_nil
  · exact h.fresh

theorem inv_request {body : RequestBody} {posted : Bool}
    (hs : BrowserSession.Inv platform json browser store moments w₀ s)
    (hexact : s.client.nextId < 2 ^ 53)
    (hfits : (browser.post s.client.nextId body).length ≤ maxReplyBytes) :
    BrowserSession.Inv platform json browser store moments w₀ (s.request browser body posted) := by
  obtain ⟨⟨served, hserved⟩, ⟨waiting, arriving, hway⟩, hpromises⟩ := hs
  unfold BrowserSession.request
  cases hclosed : s.client.closed with
  | true =>
    rw [NativeClient.request_of_closed posted hclosed]
    exact ⟨⟨served, hserved⟩, ⟨waiting, arriving, hway⟩, hpromises⟩
  | false =>
    have hpending := hway.pending
    rw [hclosed, if_neg Bool.false_ne_true] at hpending
    cases posted with
    | false =>
      -- the id is given out, and its promise is rejected at once
      rw [NativeClient.request_failed hclosed hway.fresh_pending hexact]
      refine ⟨⟨served, hserved.posted, hserved.fits, hserved.run, hserved.answers⟩,
        ⟨waiting, arriving, hway.toHost, hway.toClient, hway.parses, hway.written, hway.nodup,
          fun id hid => Nat.lt_succ_of_lt (hway.lt id hid), ?_⟩, ?_, fun id hpos hlt => ?_,
        fun id msg hmem => ?_⟩
      · simp only [hclosed, hpending, Bool.false_eq_true, if_false]
      · simpa using hexact
      · rcases Nat.lt_succ_iff_lt_or_eq.1 hlt with hlt | rfl
        · refine (hpromises.all id hpos hlt).imp_right fun hmem => ?_
          simp only [List.map_append, List.mem_append, hmem, true_or]
        · exact .inr (by simp)
      · rcases List.mem_append.1 hmem with hmem | hmem
        · exact hpromises.own id msg hmem
        · simp at hmem
    | true =>
      rw [NativeClient.request_posted hclosed hway.fresh_pending hexact]
      have hfresh := hway.fresh
      refine ⟨⟨served, ?_, ?_, hserved.run, hserved.answers⟩,
        ⟨waiting ++ [⟨s.client.nextId, body⟩], arriving, ?_, hway.toClient, hway.parses,
          hway.written, ?_, fun id hid => ?_, ?_⟩, ?_, fun id hpos hlt => ?_, hpromises.own⟩
      · simp only [hserved.posted, List.append_assoc]
      · intro msg hmsg
        rcases List.mem_append.1 hmsg with hmsg | hmsg
        · exact hserved.fits msg hmsg
        · rwa [List.mem_singleton.1 hmsg]
      · simp only [hway.toHost, List.map_append, List.map_cons, List.map_nil]
      · rw [List.map_append, ← List.append_assoc, List.map_cons, List.map_nil,
          ← List.concat_eq_append]
        exact List.Nodup.concat hfresh hway.nodup
      · rw [List.map_append, ← List.append_assoc] at hid
        rcases List.mem_append.1 hid with hid | hid
        · exact Nat.lt_succ_of_lt (hway.lt id hid)
        · rw [List.map_cons, List.map_nil, List.mem_singleton] at hid
          exact hid ▸ Nat.lt_succ_self _
      · simp only [hclosed, hpending, Bool.false_eq_true, if_false, List.map_append,
          List.map_cons, List.map_nil, List.append_assoc]
      · simpa using hexact
      · rcases Nat.lt_succ_iff_lt_or_eq.1 hlt with hlt | rfl
        · refine (hpromises.all id hpos hlt).imp_left fun hmem => ?_
          exact List.mem_append_left _ hmem
        · exact .inl (List.mem_append_right _ (List.mem_singleton_self _))

/-! ### Replies -/

/-- **The host answers the next request**, when its reply is not too long. -/
theorem BrowserSession.serve_run (hencodes : json.Encodes) (hagrees : json.Agrees browser)
    {req : Request} {waiting : List Request} {arriving : List (ℕ × Bytes)}
    (hs : BrowserSession.Inv platform json browser store moments w₀ s)
    (hway : UnderWay browser s (req :: waiting) arriving)
    (hfits : ReplyFits platform json store (moments s.written.length) req s.world) :
    ∃ bytes world, s.serve platform json store moments = some { s with
        toHost := waiting.map fun r => browser.post r.id r.body
        world
        toClient := s.toClient ++ [bytes]
        written := s.written ++ [bytes] } ∧
      (∀ IE : Type, (hostReply platform json store (moments s.written.length)
        (browser.post req.id req.body) : Prog (Event CE SE VE) W (HostError JE IE) Bytes).run
          s.world = (.ok bytes, world)) ∧
      json.fromSlice (browser.post req.id req.body) = some req ∧
      (∃ isOk, browser.parse bytes = some (req.id, isOk)) ∧ bytes.length ≤ maxReplyBytes := by
  obtain ⟨served, hserved⟩ := hs.served
  have hid : req.id < s.client.nextId := hway.lt _ (by simp)
  have hexact : req.id ≤ 2 ^ 53 := le_trans hid.le hs.promises.exact
  have hreq : json.fromSlice (browser.post req.id req.body) = some req :=
    hagrees.fromSlice_post _ _ hexact
  obtain ⟨bytes, hbytes⟩ :=
    hencodes (replyTo platform store (moments s.written.length) req s.world)
  have hrun : ∀ IE : Type, (hostReply platform json store (moments s.written.length)
      (browser.post req.id req.body) : Prog (Event CE SE VE) W (HostError JE IE) Bytes).run
        s.world = (.ok bytes, _) := fun _ => hostReply_run hreq hfits hbytes
  have hparse := hagrees.parse_toVec _ _ (by rwa [id_replyTo]) hbytes
  rw [id_replyTo] at hparse
  have hlen : ¬ maxReplyBytes < (browser.post req.id req.body).length :=
    not_lt.2 (hserved.fits _ (by rw [hserved.posted, hway.toHost]; simp))
  refine ⟨bytes, _, ?_, hrun, hreq, ⟨_, hparse⟩, hfits bytes hbytes⟩
  simp only [BrowserSession.serve, hway.toHost, List.map_cons, if_neg hlen, hrun]

theorem inv_serve (hencodes : json.Encodes) (hagrees : json.Agrees browser)
    {t : BrowserSession W} (hs : BrowserSession.Inv platform json browser store moments w₀ s)
    (hfits : ∀ msg ∈ s.toHost.head?, ∀ req ∈ json.fromSlice msg,
      ReplyFits platform json store (moments s.written.length) req s.world)
    (h : s.serve platform json store moments = some t) :
    BrowserSession.Inv platform json browser store moments w₀ t := by
  obtain ⟨waiting, arriving, hway⟩ := hs.underWay
  obtain ⟨served, hserved⟩ := hs.served
  cases waiting with
  | nil =>
    have hnil : s.toHost = [] := hway.toHost
    simp only [BrowserSession.serve, hnil, reduceCtorEq] at h
  | cons req waiting =>
    have hid : req.id ≤ 2 ^ 53 :=
      le_trans (hway.lt req.id (by simp)).le hs.promises.exact
    obtain ⟨bytes, world, hserve, hrun, hreq, hparse, hlen⟩ :=
      BrowserSession.serve_run hencodes hagrees hs hway
        (hfits (browser.post req.id req.body) (by rw [hway.toHost]; rfl) req
          (hagrees.fromSlice_post _ _ hid))
    obtain rfl := Option.some.inj (hserve.symm.trans h)
    have hcount : served.length = s.written.length := hserved.answers.length_eq
    refine ⟨⟨served ++ [browser.post req.id req.body], ?_, hserved.fits, ?_, ?_⟩,
      ⟨waiting, arriving ++ [(req.id, bytes)], rfl, ?_, ?_, ?_, ?_, ?_, ?_⟩,
      hs.promises.exact, hs.promises.all, fun id msg hmem => ?_⟩
    · simp only [hserved.posted, hway.toHost, List.map_cons, List.append_assoc, List.cons_append,
        List.nil_append]
    · intro IE
      refine serveAll_concat (hserved.run IE) ?_
      rw [Nat.zero_add, hcount]
      exact hrun IE
    · exact List.rel_append hserved.answers (.cons ⟨req, hreq, hparse, hlen⟩ .nil)
    · simp only [hway.toClient, List.map_append, List.map_cons, List.map_nil]
    · intro a ha
      rcases List.mem_append.1 ha with ha | ha
      · exact hway.parses a ha
      · rwa [List.mem_singleton.1 ha]
    · intro a ha
      rcases List.mem_append.1 ha with ha | ha
      · exact List.mem_append_left _ (hway.written a ha)
      · rw [List.mem_singleton.1 ha]
        exact List.mem_append_right _ (List.mem_singleton_self _)
    · simpa using hway.nodup
    · simpa using hway.lt
    · simpa using hway.pending
    · obtain ⟨hwritten, hown⟩ := hs.promises.own id msg hmem
      exact ⟨List.mem_append_left _ hwritten, hown⟩

theorem inv_deliver {t : BrowserSession W}
    (hs : BrowserSession.Inv platform json browser store moments w₀ s)
    (h : s.deliver browser = some t) :
    BrowserSession.Inv platform json browser store moments w₀ t := by
  obtain ⟨⟨served, hserved⟩, ⟨waiting, arriving, hway⟩, hpromises⟩ := hs
  cases arriving with
  | nil =>
    have hnil : s.toClient = [] := hway.toClient
    simp only [BrowserSession.deliver, hnil, reduceCtorEq] at h
  | cons a arriving =>
    obtain ⟨id, msg⟩ := a
    have hcons : s.toClient = msg :: arriving.map Prod.snd := hway.toClient
    cases hclosed : s.client.closed with
    | true => simp only [BrowserSession.deliver, hcons, hclosed, if_true, reduceCtorEq] at h
    | false =>
      obtain ⟨isOk, hparse⟩ := hway.parses _ List.mem_cons_self
      have hpending : s.client.pending =
          id :: (arriving.map Prod.fst ++ waiting.map Request.id) := by
        rw [hway.pending, hclosed]
        rfl
      simp only [BrowserSession.deliver, hcons, hclosed, Bool.false_eq_true, if_false, hparse,
        NativeClient.onMessage_head msg hpending, Option.some.injEq] at h
      obtain rfl := h
      have hrest : ∀ i ∈ arriving.map Prod.fst ++ waiting.map Request.id,
          i ∈ ((id, msg) :: arriving).map Prod.fst ++ waiting.map Request.id :=
        fun i hi => List.mem_cons_of_mem _ hi
      refine ⟨⟨served, hserved.posted, hserved.fits, hserved.run, hserved.answers⟩,
        ⟨waiting, arriving, hway.toHost, rfl, fun a ha => hway.parses a (List.mem_cons_of_mem _ ha),
          fun a ha => hway.written a (List.mem_cons_of_mem _ ha), (List.nodup_cons.1 hway.nodup).2,
          fun i hi => hway.lt i (hrest i hi), ?_⟩,
        hpromises.exact, fun i hpos hlt => ?_, fun i m hmem => ?_⟩
      · simp only [Bool.false_eq_true, if_false]
      · have hall := hpromises.all i hpos hlt
        rw [hpending] at hall
        simp only [List.map_append, List.map_cons, List.map_nil, List.mem_append,
          List.mem_cons] at hall ⊢
        tauto
      · rcases List.mem_append.1 hmem with hmem | hmem
        · exact hpromises.own i m hmem
        · obtain ⟨rfl, hm⟩ := Prod.mk.inj (List.mem_singleton.1 hmem)
          obtain rfl := Settlement.resolved.inj hm
          exact ⟨hway.written _ List.mem_cons_self, isOk, hparse⟩

/-- Closing rejects what is pending. -/
theorem inv_onDisconnect (hs : BrowserSession.Inv platform json browser store moments w₀ s) :
    BrowserSession.Inv platform json browser store moments w₀
      { s with client := s.client.onDisconnect } := by
  obtain ⟨⟨served, hserved⟩, ⟨waiting, arriving, hway⟩, hpromises⟩ := hs
  refine ⟨⟨served, hserved.posted, hserved.fits, hserved.run, hserved.answers⟩,
    ⟨waiting, arriving, hway.toHost, hway.toClient, hway.parses, hway.written, hway.nodup, hway.lt,
      rfl⟩,
    hpromises.exact, fun id hpos hlt => .inr ?_, fun id msg hmem => ?_⟩
  · rcases hpromises.all id hpos hlt with hmem | hmem
    · simp only [NativeClient.onDisconnect, List.map_append, List.map_map, List.mem_append]
      exact .inr (List.mem_map.2 ⟨id, hmem, rfl⟩)
    · simp only [NativeClient.onDisconnect, List.map_append, List.mem_append]
      exact .inl hmem
  · rcases List.mem_append.1 hmem with hmem | hmem
    · exact hpromises.own id msg hmem
    · obtain ⟨i, -, hi⟩ := List.mem_map.1 hmem
      cases hi

/-- **What one move of a session preserves.** -/
theorem browserSession_inv (hencodes : json.Encodes) (hagrees : json.Agrees browser)
    {x : Move (BrowserSession W) BrowserEvent Empty}
    (hx : (browserSession platform json browser store moments).Makes x)
    (hfits : MessageFits platform json browser store moments x)
    (hs : BrowserSession.Inv platform json browser store moments w₀ x.before) :
    BrowserSession.Inv platform json browser store moments w₀ x.after := by
  obtain ⟨s, e, t, outputs⟩ := x
  unfold Machine.Makes at hx
  dsimp only at hx hs ⊢
  cases e with
  | request body posted =>
    obtain ⟨rfl, -⟩ := Prod.mk.inj (Option.some.inj hx)
    exact inv_request hs hfits.1 hfits.2
  | serve =>
    obtain ⟨u, hserve, hu⟩ := Option.map_eq_some_iff.1 hx
    obtain ⟨rfl, -⟩ := Prod.mk.inj hu
    exact inv_serve hencodes hagrees hs hfits hserve
  | deliver =>
    obtain ⟨u, hdeliver, hu⟩ := Option.map_eq_some_iff.1 hx
    obtain ⟨rfl, -⟩ := Prod.mk.inj hu
    exact inv_deliver hs hdeliver
  | disconnect =>
    obtain ⟨rfl, -⟩ := Prod.mk.inj (Option.some.inj hx)
    exact inv_onDisconnect hs
  | close =>
    obtain ⟨rfl, -⟩ := Prod.mk.inj (Option.some.inj hx)
    unfold NativeClient.close
    split
    · exact hs
    · exact inv_onDisconnect hs

/-! ## Every request gets its own answer -/

theorem answers_fit {msgs replies : List Bytes}
    (h : List.Forall₂ (AnswersMessage json browser) msgs replies) :
    ∀ b ∈ replies, b.length ≤ maxReplyBytes := by
  induction h with
  | nil => exact List.forall_mem_nil _
  | cons hfirst _ ih =>
    obtain ⟨req, -, -, hlen⟩ := hfirst
    exact List.forall_mem_cons.2 ⟨hlen, ih⟩

/-- The moves of a session in which one request is posted, served and delivered. -/
theorem browserSession_one {body : RequestBody} {bytes : Bytes} {world : W}
    (hpost : (browser.post 1 body).length ≤ maxReplyBytes)
    (hreply : (hostReply platform json store (moments 0) (browser.post 1 body) :
      Prog (Event CE SE VE) W (HostError JE Empty) Bytes).run w₀ = (.ok bytes, world)) :
    ∃ run, (browserSession platform json browser store moments).Runs (.fresh w₀) run
        ⟨(⟨2, [1], false, []⟩ : NativeClient).onMessage (browser.parse bytes) bytes, [], world, [],
          [browser.post 1 body], [bytes]⟩ ∧
      ((∀ req ∈ json.fromSlice (browser.post 1 body),
          ReplyFits platform json store (moments 0) req w₀) →
        ∀ x ∈ run, MessageFits platform json browser store moments x) := by
  let asked : NativeClient := ⟨2, [1], false, []⟩
  let posted : BrowserSession W :=
    ⟨asked, [browser.post 1 body], w₀, [], [browser.post 1 body], []⟩
  let served : BrowserSession W := ⟨asked, [], world, [bytes], [browser.post 1 body], [bytes]⟩
  let delivered : BrowserSession W :=
    { served with client := asked.onMessage (browser.parse bytes) bytes, toClient := [] }
  have hserve : posted.serve platform json store moments = some served := by
    simp only [BrowserSession.serve, posted, if_neg (not_lt.2 hpost), List.length_nil, hreply]
    rfl
  let asks : Move (BrowserSession W) BrowserEvent Empty :=
    ⟨.fresh w₀, .request body true, posted, []⟩
  let serves : Move (BrowserSession W) BrowserEvent Empty := ⟨posted, .serve, served, []⟩
  let delivers : Move (BrowserSession W) BrowserEvent Empty := ⟨served, .deliver, delivered, []⟩
  have hasks : (browserSession platform json browser store moments).Makes asks := rfl
  have hserves : (browserSession platform json browser store moments).Makes serves := by
    simp only [Machine.Makes, browserSession, serves, hserve, Option.map_some]
  have hdelivers : (browserSession platform json browser store moments).Makes delivers := rfl
  refine ⟨[asks, serves, delivers], .cons hasks (.cons hserves (.cons hdelivers (.nil _))),
    fun hfits x hx => ?_⟩
  rcases List.mem_cons.1 hx with rfl | hx
  · exact ⟨Nat.one_lt_two_pow (by decide), hpost⟩
  rcases List.mem_cons.1 hx with rfl | hx
  · intro msg hmsg
    obtain rfl := Option.some.inj hmsg
    exact hfits
  · obtain rfl := List.mem_singleton.1 hx
    trivial

/-- **A request whose reply is too long waits forever.** The host is asked once, and its reply has
the id of no request: when it has been delivered nothing is under way, the port is open, and the
promise is still pending. -/
theorem oversize_waits (hencodes : json.Encodes) (hagrees : json.Agrees browser)
    {body : RequestBody} (hpost : (browser.post 1 body).length ≤ maxReplyBytes) {bytes : Bytes}
    (hbytes : json.toVec (replyTo platform store (moments 0) ⟨1, body⟩ w₀) = .ok bytes)
    (hlong : maxReplyBytes < bytes.length) :
    ∃ run s, (browserSession platform json browser store moments).Runs (.fresh w₀) run s ∧
      s.posted = [browser.post 1 body] ∧ s.toHost = [] ∧ s.toClient = [] ∧
      (∃ reply, s.written = [reply] ∧ browser.parse reply = some (0, false)) ∧
      s.client.closed = false ∧ s.client.pending = [1] ∧ s.client.settled = [] := by
  obtain ⟨short, hshort⟩ := hencodes (.err 0 (oversizeMessage bytes.length))
  have hparse : browser.parse short = some (0, false) :=
    hagrees.parse_toVec _ _ (Nat.zero_le _) hshort
  have hreply : (hostReply platform json store (moments 0) (browser.post 1 body) :
      Prog (Event CE SE VE) W (HostError JE Empty) Bytes).run w₀ = (.ok short, _) :=
    hostReply_oversize (hagrees.fromSlice_post 1 body Nat.one_le_two_pow) hbytes hlong hshort
  obtain ⟨run, hrun, -⟩ := browserSession_one hpost hreply
  rw [hparse] at hrun
  exact ⟨run, _, hrun, rfl, rfl, rfl, ⟨short, rfl, hparse⟩, rfl, rfl, rfl⟩

end BrowserSession

/-! ## A session with a store in memory -/

/-- A string of JSON without control characters. -/
def quoteJson (s : Str) : Str :=
  ['"'] ++ s.flatMap (fun c => if c = '"' ∨ c = '\\' then ['\\', c] else [c]) ++ ['"']

theorem length_lt_length_quoteJson (s : Str) : s.length < (quoteJson s).length := by
  have hflat : s.length ≤
      (s.flatMap fun c => if c = '"' ∨ c = '\\' then ['\\', c] else [c]).length := by
    induction s with
    | nil => exact le_rfl
    | cons c s ih =>
      rw [List.flatMap_cons, List.length_append, List.length_cons]
      split <;> simp only [List.length_cons, List.length_nil] <;> omega
  simp only [quoteJson, List.length_append, List.length_cons, List.length_nil]
  omega

/-- The fields of a reply after `ok`. -/
def okBodyJson : OkBody → Str
  | .entries entries =>
    ",\"entries\":[".toList ++ List.intercalate [','] (entries.map quoteJson) ++ [']']
  | .plaintext plaintext => ",\"plaintext\":".toList ++ quoteJson plaintext
  | .field value => ",\"value\":".toList ++ quoteJson value
  | .password password => ",\"password\":".toList ++ quoteJson password
  | .code code => ",\"code\":".toList ++ quoteJson code
  | .empty => []

/-- What follows the id of a reply. -/
def replyTail : Reply → Str
  | .ok _ body => ",\"ok\":true".toList ++ okBodyJson body ++ "\x7d".toList
  | .err _ error => ",\"ok\":false,\"error\":".toList ++ quoteJson error ++ "\x7d".toList

/-- A reply in JSON. -/
def replyJson (reply : Reply) : Str :=
  "\x7b\"id\":".toList ++ (Nat.toDigits 10 reply.id ++ replyTail reply)

/-- The id and the `ok` of a reply, which stand at its head. -/
def parseReply (text : Str) : Option (ℕ × Bool) :=
  let digits := (text.drop 6).takeWhile Char.isDigit
  match ((text.drop 6).dropWhile Char.isDigit).drop 6 with
  | 't' :: _ => some (Nat.ofDigitChars 10 digits 0, true)
  | 'f' :: _ => some (Nat.ofDigitChars 10 digits 0, false)
  | _ => none

/-- The head of a reply reads back. -/
theorem parseReply_replyJson (reply : Reply) :
    parseReply (replyJson reply) = some (reply.id, reply.isOk) := by
  have hdrop : (replyJson reply).drop 6 = Nat.toDigits 10 reply.id ++ replyTail reply :=
    List.drop_left' rfl
  have hdigits : ∀ c ∈ Nat.toDigits 10 reply.id, c.isDigit = true :=
    fun c hc => Nat.isDigit_of_mem_toDigits (by decide) (by decide) hc
  have htail : ∃ rest, replyTail reply = ',' :: rest := by cases reply <;> exact ⟨_, rfl⟩
  obtain ⟨rest, hrest⟩ := htail
  have htake : (Nat.toDigits 10 reply.id ++ replyTail reply).takeWhile Char.isDigit =
      Nat.toDigits 10 reply.id := by
    rw [List.takeWhile_append_of_pos hdigits, hrest, List.takeWhile_cons_of_neg (by decide),
      List.append_nil]
  have hleft : (Nat.toDigits 10 reply.id ++ replyTail reply).dropWhile Char.isDigit =
      replyTail reply := by
    rw [List.dropWhile_append_of_pos hdigits, hrest, List.dropWhile_cons_of_neg (by decide)]
  simp only [parseReply, hdrop, htake, hleft, Nat.ofDigitChars_ten_toDigits]
  cases reply with
  | ok id body => rfl
  | err id error => rfl

/-- The session's one message of the extension, in JSON. -/
def showText : Str := "\x7b\"id\":1,\"op\":\"show\",\"path\":\"a\"\x7d".toList

def showRequest : Request := ⟨1, .show ['a'] none⟩

instance countable_char : Countable Char :=
  ⟨⟨Char.toNat, fun _ _ h => Char.ext (UInt32.toNat.inj h)⟩⟩

deriving instance Countable for RequestBody

/-- The message of a request; those that the session does not send are told apart by their
length. -/
noncomputable def postMessage (id : ℕ) (body : RequestBody) : Bytes :=
  if (⟨id, body⟩ : Request) = showRequest then utf8Encode showText
  else List.replicate ((exists_injective_nat (ℕ × RequestBody)).choose (id, body)) 0

theorem postMessage_injective :
    Function.Injective fun req : Request => postMessage req.id req.body := by
  have hcode := (exists_injective_nat (ℕ × RequestBody)).choose_spec
  have hhead : ∃ bytes, utf8Encode showText = 0x7b :: bytes := ⟨_, rfl⟩
  obtain ⟨bytes, hbytes⟩ := hhead
  intro a b hab
  dsimp only [postMessage] at hab
  have hne : ∀ n : ℕ, utf8Encode showText ≠ List.replicate n 0 := by
    intro n h
    rw [hbytes] at h
    have hzero := List.eq_of_mem_replicate (h ▸ List.mem_cons_self : (0x7b : UInt8) ∈ _)
    exact absurd hzero (by decide)
  split_ifs at hab with ha hb hb
  · exact ha.trans hb.symm
  · exact absurd hab (hne _)
  · exact absurd hab.symm (hne _)
  · have hlen := congrArg List.length hab
    rw [List.length_replicate, List.length_replicate] at hlen
    obtain ⟨hid, hbody⟩ := Prod.mk.inj (hcode hlen)
    cases a
    cases b
    exact congrArg₂ Request.mk hid hbody

noncomputable def hostJson : SerdeJson Empty where
  fromSlice := Function.partialInv fun req : Request => postMessage req.id req.body
  toVec reply := .ok (utf8Encode (replyJson reply))

noncomputable def hostBrowser : Browser where
  post := postMessage
  parse bytes := (utf8Decode? bytes).bind parseReply

theorem hostJson_encodes : hostJson.Encodes := fun _ => ⟨_, rfl⟩

theorem hostJson_agrees : hostJson.Agrees hostBrowser where
  fromSlice_post id body _ := Function.partialInv_left postMessage_injective ⟨id, body⟩
  parse_toVec reply bytes _ h := by
    obtain rfl := Except.ok.inj h
    simp only [hostBrowser, utf8Decode?_encode, Option.bind_some, parseReply_replyJson]

def hostPlatform : HostPlatform TaggedError Empty Empty where
  debug := id
  lower := id
  cryptoText _ := []
  storageText := Empty.elim
  vcsText := Empty.elim

def anyMoment : Moment := ⟨fun _ => .ok [], fun _ => 0⟩

/-- The world of a store that holds one entry. -/
def holdsOne (text : Str) : MemFiles :=
  memFresh.insert ⟨"a.gpg".toList, validate_a_gpg⟩
    (tagHeader [⟨"ALICE".toList⟩] ++ (utf8Encode text).map (· ^^^ 0xAA))

theorem show_holdsOne (text : Str) :
    (memStore.show ⟨['a'], by decide⟩).run (holdsOne text) =
      (.ok (utf8Encode text), holdsOne text) := by
  have hread : (holdsOne text)[entryToBlob ⟨['a'], by decide⟩]? =
      some (tagHeader [⟨"ALICE".toList⟩] ++ (utf8Encode text).map (· ^^^ 0xAA)) :=
    Std.ExtTreeMap.getElem?_insert_self
  have hopen := taggedCrypto_opens [⟨"ALICE".toList⟩] (utf8Encode text) (holdsOne text)
  simp only [Store.show, Prog.run_bind, Prog.run_mapErr, Storage.read, Crypto.decrypt,
    Prog.run_call, memStore, memStorage, hread, hopen, Except.mapError]

/-- The reply to the session's message. -/
theorem replyTo_holdsOne (text : Str) :
    replyTo hostPlatform memStore anyMoment showRequest (holdsOne text) =
      .ok 1 (.plaintext text) := by
  have hpath : parsePath hostPlatform ['a'] = .ok ⟨['a'], by decide⟩ := by decide
  simp only [replyTo, dispatch, showRequest, hpath, Prog.run_bind, Prog.run_attempt,
    show_holdsOne, utf8Decode?_encode, Prog.run_pure]

theorem postMessage_fits : (hostBrowser.post 1 (.show ['a'] none)).length ≤ maxReplyBytes := by
  have htext : postMessage 1 (.show ['a'] none) = utf8Encode showText := if_pos rfl
  show (postMessage 1 (.show ['a'] none)).length ≤ maxReplyBytes
  rw [htext]
  decide

theorem length_le_length_between (a b c d e text : Str) :
    text.length ≤ (a ++ (b ++ (c ++ (d ++ text) ++ e))).length := by
  simp only [List.length_append]
  omega

theorem length_lt_length_reply (id : ℕ) (text : Str) :
    text.length < (utf8Encode (replyJson (.ok id (.plaintext text)))).length := by
  have hquote := length_lt_length_quoteJson text
  have hbetween : (quoteJson text).length ≤ (replyJson (.ok id (.plaintext text))).length :=
    length_le_length_between _ _ _ _ _ _
  have hutf8 := length_le_length_utf8Encode (replyJson (.ok id (.plaintext text)))
  omega

theorem hostReply_holdsOne (text : Str)
    (hfits : (utf8Encode (replyJson (.ok 1 (.plaintext text)))).length ≤ maxReplyBytes) :
    ReplyFits hostPlatform hostJson memStore anyMoment showRequest (holdsOne text) ∧
      (hostReply hostPlatform hostJson memStore anyMoment (hostBrowser.post 1 (.show ['a'] none)) :
        Prog _ MemFiles (HostError Empty Empty) Bytes).run (holdsOne text) =
          (.ok (utf8Encode (replyJson (.ok 1 (.plaintext text)))),
            ((dispatch hostPlatform memStore anyMoment showRequest).run (holdsOne text)).2) := by
  have hreply := congrArg hostJson.toVec (replyTo_holdsOne text)
  have hshort : ReplyFits hostPlatform hostJson memStore anyMoment showRequest (holdsOne text) := by
    intro bytes hbytes
    obtain rfl := Except.ok.inj (hreply.symm.trans hbytes)
    exact hfits
  exact ⟨hshort, hostReply_run (hostJson_agrees.fromSlice_post 1 (.show ['a'] none)
    Nat.one_le_two_pow) hshort hreply⟩

/-- An entry that is too long for the browser. -/
def longText : Str := List.replicate maxReplyBytes 'a'

end Bypass
