import Bypass.Foundations.Runs
import Bypass.Sync.Daemon

/-!
# Pairing two devices

The two sides of a pairing (`pairing.rs`). The side that shows the PIN answers two requests, the
side where it is entered sends them: first the SPAKE2 messages go back and forth, with a
confirmation of the key, then the identities. Each side is what it does between two of its waits:
`showStep` on the next request, `enterStep` on the response to the last one.

SPAKE2, SHA-256 and the encoding of keys are parameters.

* `constantTimeEq_iff`: the comparison of tags is equality.
* `showFirst_eq_ok`, `showSecond_eq_ok`, `enterFirst_eq_ok`, `enterSecond_eq_ok`: what a side that
  gets through has been told, and what it answers.
-/

namespace Bypass

namespace Pairing

/-- `[u8; 32]`. -/
abbrev Tag := Vector UInt8 32

/-- `IdentityBundle`. -/
structure IdentityBundle where
  name : Str
  peer_id : Str
  identity_pubkey_hex : Str
  deriving DecidableEq

/-- `WireBody`. -/
inductive WireBody where
  | spake (spake_msg : Bytes)
  | spakeAck (spake_msg : Bytes) (confirmation : Tag)
  | identity (confirmation : Tag) (bundle : IdentityBundle)
  | identityAck (bundle : IdentityBundle)
  deriving DecidableEq

/-- `WireMsg`. -/
structure WireMsg where
  magic : Bytes
  body : WireBody
  deriving DecidableEq

/-- What `PairingError::Wire` says. -/
inductive WireFault where
  | decode (e : Str)
  | magic (magic : Bytes)
  | expected (what : Str) (got : WireBody)
  deriving DecidableEq

/-- `PairingError`. -/
inductive PairingError where
  | invalidPin (got : Str)
  | spake2 (e : Str)
  | badConfirmation
  | wire (fault : WireFault)
  | transport (e : Str)
  | peerDropped
  deriving DecidableEq

/-- `PairedPeer`. -/
structure PairedPeer where
  remote : IdentityBundle
  record : PeerRecord
  deriving DecidableEq

/-- `PROTOCOL_ID`. -/
def protocolId : Bytes := utf8Encode "bypass-pair-v1".toList

/-- `PIN_LEN`. -/
def pinLen : ℕ := 6

/-- `WIRE_MAGIC`. -/
def wireMagic : Bytes := utf8Encode "BYPS-PAR".toList

/-- `validate_pin`. -/
def validatePin (pin : Str) : Except PairingError Unit :=
  if (utf8Encode pin).length ≠ pinLen ∨ ¬ pin.all (fun c => '0' ≤ c ∧ c ≤ '9') then
    .error (.invalidPin pin)
  else .ok ()

/-! ## What the code stands on -/

/-- `serde_json` on pairing messages. -/
structure Json (F : Type) where
  toVec : WireMsg → F
  fromSlice : F → Except Str WireMsg
  fromSlice_toVec : ∀ msg, fromSlice (toVec msg) = .ok msg

/-- The crates `spake2` and `sha2`, and the public keys of `libp2p_identity`: what the random seed
of a side makes of its password, the key that it gets from a message, and the peer id of an encoded
key. -/
structure Crypto where
  State : Type
  startSymmetric : (password identity : Bytes) → (seed : ℕ) → State × Bytes
  finish : State → Bytes → Except Str Bytes
  sha256 : Bytes → Tag
  keyPeerId : Bytes → Option PeerId

/-- What a side is run with: the PIN, its public key and the id of that key, its name, the seed that
the system's randomness gives it, and the time. -/
structure Local where
  pin : Str
  public_key : Bytes
  peer_id : PeerId
  name : Str
  seed : ℕ
  now_rfc3339 : Str

variable {F : Type}

/-- `encode_wire`. -/
def Json.encodeWire (json : Json F) (body : WireBody) : F := json.toVec ⟨wireMagic, body⟩

/-- `decode_wire`. -/
def Json.decodeWire (json : Json F) (frame : F) : Except PairingError WireMsg :=
  match json.fromSlice frame with
  | .error e => .error (.wire (.decode e))
  | .ok msg => if msg.magic ≠ wireMagic then .error (.wire (.magic msg.magic)) else .ok msg

theorem Json.decodeWire_encodeWire (json : Json F) (body : WireBody) :
    json.decodeWire (json.encodeWire body) = .ok ⟨wireMagic, body⟩ := by
  rw [decodeWire, encodeWire, json.fromSlice_toVec]
  exact if_neg fun h => h rfl

/-- One digit of `format!("{b:02x}")`. -/
def hexDigit (d : ℕ) : Char := Nat.digitChar d

/-- `hex_encode`. -/
def hexEncode (bytes : Bytes) : Str :=
  bytes.flatMap fun b => [hexDigit (b.toNat / 16), hexDigit (b.toNat % 16)]

/-- `IdentityBundle::from_local`. -/
def IdentityBundle.fromLocal (ids : PeerIdText) (me : Local) : IdentityBundle :=
  ⟨me.name, ids.toBase58 me.peer_id, hexEncode me.public_key⟩

def showConfirms : Bytes := utf8Encode "show-confirms".toList

def enterConfirms : Bytes := utf8Encode "enter-confirms".toList

/-- What `confirmation_tag` hashes. -/
def tagInput (key domain : Bytes) : Bytes := utf8Encode "bypass-conf-v1".toList ++ domain ++ key

/-- `confirmation_tag`. -/
def Crypto.confirmationTag (crypto : Crypto) (key domain : Bytes) : Tag :=
  crypto.sha256 (tagInput key domain)

/-- `constant_time_eq`. -/
def constantTimeEq (a b : Tag) : Bool :=
  (List.finRange 32).foldl (fun acc i => acc ||| (a.get i ^^^ b.get i)) 0 == 0

theorem foldl_or_eq_zero {α : Type} (f : α → UInt8) (l : List α) (acc : UInt8) :
    l.foldl (fun acc i => acc ||| f i) acc = 0 ↔ acc = 0 ∧ ∀ i ∈ l, f i = 0 := by
  induction l generalizing acc with
  | nil => simp
  | cons i l ih =>
    rw [List.foldl_cons, ih, UInt8.or_eq_zero_iff, List.forall_mem_cons, and_assoc]

/-- **Tags that compare as equal are equal.** -/
theorem constantTimeEq_iff {a b : Tag} : constantTimeEq a b = true ↔ a = b := by
  rw [constantTimeEq, beq_iff_eq, foldl_or_eq_zero]
  constructor
  · rintro ⟨-, h⟩
    ext i hi
    have hxor := h ⟨i, hi⟩ (List.mem_finRange _)
    exact congrArg UInt8.toNat (UInt8.xor_eq_zero_iff.1 hxor)
  · rintro rfl
    exact ⟨rfl, fun i _ => UInt8.xor_self⟩

/-- The record that a side makes of a bundle. -/
def PairedPeer.ofBundle (remote : IdentityBundle) (now_rfc3339 : Str) : PairedPeer where
  remote := remote
  record := ⟨remote.name, remote.peer_id, remote.identity_pubkey_hex, now_rfc3339⟩

section Sides

variable (ids : PeerIdText) (crypto : Crypto) (json : Json F) (me : Local)

/-- The side's `Spake2::start_symmetric`: its state, and its message. -/
def Crypto.start : crypto.State × Bytes :=
  crypto.startSymmetric (utf8Encode me.pin) protocolId me.seed

/-! ## The side that shows the PIN -/

/-- Where `run_show_side` is: it waits for its first or its second request, or it has returned. From
the first request on, the message and the key are among its locals. -/
inductive ShowState where
  | listening
  | confirming (peer_spake_msg key : Bytes)
  | returned (peer_spake_msg key : Bytes) (result : Except PairingError PairedPeer)
  | failed (e : PairingError)
  deriving DecidableEq

/-- Up to the first wait. -/
def showStart : ShowState :=
  match validatePin me.pin with
  | .error e => .failed e
  | .ok () => .listening

/-- On the first request: the peer's message, the key and the reply. -/
def showFirst (frame : F) : Except PairingError (Bytes × Bytes × F) := do
  let first ← json.decodeWire frame
  match first.body with
  | .spake peer_spake_msg =>
    let (state, our_spake_msg) := crypto.start me
    let key ← (crypto.finish state peer_spake_msg).mapError .spake2
    let our_confirmation := crypto.confirmationTag key showConfirms
    pure (peer_spake_msg, key, json.encodeWire (.spakeAck our_spake_msg our_confirmation))
  | other => throw (.wire (.expected "Spake".toList other))

/-- On the second request: the result and the reply. -/
def showSecond (key : Bytes) (frame : F) : Except PairingError (PairedPeer × F) := do
  let second ← json.decodeWire frame
  match second.body with
  | .identity their_conf remote_bundle =>
    let expected := crypto.confirmationTag key enterConfirms
    if !constantTimeEq their_conf expected then throw .badConfirmation
    else pure (.ofBundle remote_bundle me.now_rfc3339,
      json.encodeWire (.identityAck (.fromLocal ids me)))
  | other => throw (.wire (.expected "Identity".toList other))

/-- `run_show_side`, on what its wait for a request gives it: a request with its sender, or an error
of the transport. With the reply, if it sends one. -/
def showStep (state : ShowState) (inbound : Except Str (PeerId × F)) : ShowState × List F :=
  match state, inbound with
  | .listening, .error e => (.failed (.transport e), [])
  | .listening, .ok (_, frame) =>
    match showFirst crypto json me frame with
    | .error e => (.failed e, [])
    | .ok (peer_spake_msg, key, reply) => (.confirming peer_spake_msg key, [reply])
  | .confirming peer_spake_msg key, .error e =>
    (.returned peer_spake_msg key (.error (.transport e)), [])
  | .confirming peer_spake_msg key, .ok (_, frame) =>
    match showSecond ids crypto json me key frame with
    | .error e => (.returned peer_spake_msg key (.error e), [])
    | .ok (paired, reply) => (.returned peer_spake_msg key (.ok paired), [reply])
  | .returned peer_spake_msg key result, _ => (.returned peer_spake_msg key result, [])
  | .failed e, _ => (.failed e, [])

/-- `run_show_side`, on the requests that arrive. -/
def runShowSide (inbox : List (Except Str (PeerId × F))) : ShowState :=
  inbox.foldl (fun state inbound => (showStep ids crypto json me state inbound).1) (showStart me)

/-! ## The side where the PIN is entered -/

/-- Where `run_enter_side` is: it waits for the response to its first or its second request, or it
has returned. -/
inductive EnterState where
  | asking
  | confirmed (peer_spake_msg key : Bytes)
  | returned (peer_spake_msg key : Bytes) (result : Except PairingError PairedPeer)
  | failed (e : PairingError)
  deriving DecidableEq

/-- Up to the first wait, with the first request. -/
def enterStart : EnterState × List F :=
  match validatePin me.pin with
  | .error e => (.failed e, [])
  | .ok () => (.asking, [json.encodeWire (.spake (crypto.start me).2)])

/-- On the first response: the peer's message, the key and the second request. -/
def enterFirst (frame : F) : Except PairingError (Bytes × Bytes × F) := do
  let first_reply ← json.decodeWire frame
  match first_reply.body with
  | .spakeAck peer_spake_msg peer_confirmation =>
    let key ← (crypto.finish (crypto.start me).1 peer_spake_msg).mapError .spake2
    let expected := crypto.confirmationTag key showConfirms
    if !constantTimeEq peer_confirmation expected then throw .badConfirmation
    else
      let our_confirmation := crypto.confirmationTag key enterConfirms
      pure (peer_spake_msg, key, json.encodeWire (.identity our_confirmation (.fromLocal ids me)))
  | other => throw (.wire (.expected "SpakeAck".toList other))

/-- On the second response: the result. -/
def enterSecond (frame : F) : Except PairingError PairedPeer := do
  let second_reply ← json.decodeWire frame
  match second_reply.body with
  | .identityAck remote_bundle => pure (.ofBundle remote_bundle me.now_rfc3339)
  | other => throw (.wire (.expected "IdentityAck".toList other))

/-- `run_enter_side`, on how its last request ends: a response, or an error of the transport. With
the next request, if it sends one. -/
def enterStep (state : EnterState) (response : Except Str F) : EnterState × List F :=
  match state, response with
  | .asking, .error e => (.failed (.transport e), [])
  | .asking, .ok frame =>
    match enterFirst ids crypto json me frame with
    | .error e => (.failed e, [])
    | .ok (peer_spake_msg, key, request) => (.confirmed peer_spake_msg key, [request])
  | .confirmed peer_spake_msg key, .error e =>
    (.returned peer_spake_msg key (.error (.transport e)), [])
  | .confirmed peer_spake_msg key, .ok frame =>
    (.returned peer_spake_msg key (enterSecond json me frame), [])
  | .returned peer_spake_msg key result, _ => (.returned peer_spake_msg key result, [])
  | .failed e, _ => (.failed e, [])

/-- `run_enter_side`, on the responses to its requests. -/
def runEnterSide (responses : List (Except Str F)) : EnterState :=
  responses.foldl (fun state response => (enterStep ids crypto json me state response).1)
    (enterStart crypto json me).1

end Sides

/-! ## What a side that gets through has been told -/

variable {ids : PeerIdText} {crypto : Crypto} {json : Json F} {me : Local}

/-- The frame is a message of the protocol with this body. -/
def Carries (json : Json F) (frame : F) (body : WireBody) : Prop :=
  json.decodeWire frame = .ok ⟨wireMagic, body⟩

theorem Carries.unique {frame : F} {body body' : WireBody} (h : Carries json frame body)
    (h' : Carries json frame body') : body = body' := by
  have heq := Except.ok.inj (h.symm.trans h')
  exact congrArg WireMsg.body heq

theorem Carries.iff {frame : F} {body : WireBody} (h : Carries json frame body) (b : WireBody) :
    Carries json frame b ↔ body = b :=
  ⟨h.unique, fun hb => hb ▸ h⟩

theorem carries_encodeWire (body : WireBody) : Carries json (json.encodeWire body) body :=
  json.decodeWire_encodeWire body

/-- A frame that decodes carries what it decodes to. -/
theorem decodeWire_cases (json : Json F) (frame : F) :
    (∃ e, json.decodeWire frame = .error e) ∨ ∃ body, Carries json frame body := by
  unfold Carries Json.decodeWire
  cases json.fromSlice frame with
  | error e => exact Or.inl ⟨_, rfl⟩
  | ok msg =>
    obtain ⟨magic, body⟩ := msg
    by_cases hmagic : magic = wireMagic
    · subst hmagic
      exact Or.inr ⟨body, if_neg fun h => h rfl⟩
    · exact Or.inl ⟨_, if_pos hmagic⟩

variable {frame reply : F} {m k : Bytes} {paired : PairedPeer}

theorem showFirst_eq_ok : showFirst crypto json me frame = .ok (m, k, reply) ↔
    Carries json frame (.spake m) ∧ crypto.finish (crypto.start me).1 m = .ok k ∧
      reply = json.encodeWire (.spakeAck (crypto.start me).2
        (crypto.confirmationTag k showConfirms)) := by
  unfold showFirst
  rcases decodeWire_cases json frame with ⟨e, he⟩ | ⟨body, hbody⟩
  · simp [bind, Except.bind, Carries, he]
  have hcarries := hbody.iff
  rw [hcarries, hbody]
  cases body with
  | spake m' =>
    cases hfinish : crypto.finish (crypto.start me).1 m' with
    | error e =>
      simp only [bind, Except.bind, Except.mapError, hfinish, WireBody.spake.injEq, reduceCtorEq,
        false_iff]
      rintro ⟨rfl, hk, -⟩
      rw [hfinish] at hk
      cases hk
    | ok k' =>
      simp only [bind, Except.bind, Except.mapError, hfinish, WireBody.spake.injEq, pure,
        Except.pure, Except.ok.injEq, Prod.mk.injEq]
      constructor
      · rintro ⟨rfl, rfl, rfl⟩
        exact ⟨rfl, hfinish, rfl⟩
      · rintro ⟨rfl, hk, rfl⟩
        obtain rfl := Except.ok.inj (hfinish.symm.trans hk)
        exact ⟨rfl, rfl, rfl⟩
  | _ => simp [bind, Except.bind, throw, throwThe, MonadExceptOf.throw]

theorem showSecond_eq_ok : showSecond ids crypto json me k frame = .ok (paired, reply) ↔
    ∃ bundle, Carries json frame (.identity (crypto.confirmationTag k enterConfirms) bundle) ∧
      paired = .ofBundle bundle me.now_rfc3339 ∧
      reply = json.encodeWire (.identityAck (.fromLocal ids me)) := by
  unfold showSecond
  rcases decodeWire_cases json frame with ⟨e, he⟩ | ⟨body, hbody⟩
  · simp [bind, Except.bind, Carries, he]
  have hcarries := hbody.iff
  simp only [hcarries]
  rw [hbody]
  cases body with
  | identity their_conf remote_bundle =>
    by_cases htag : their_conf = crypto.confirmationTag k enterConfirms
    · have heq := constantTimeEq_iff.2 htag
      subst htag
      simp [bind, Except.bind, heq, pure, Except.pure, eq_comm]
    · have hne : constantTimeEq their_conf (crypto.confirmationTag k enterConfirms) = false := by
        rw [← Bool.not_eq_true, constantTimeEq_iff]
        exact htag
      simp [bind, Except.bind, hne, htag, throw, throwThe, MonadExceptOf.throw]
  | _ => simp [bind, Except.bind, throw, throwThe, MonadExceptOf.throw]

theorem enterFirst_eq_ok : enterFirst ids crypto json me frame = .ok (m, k, reply) ↔
    Carries json frame (.spakeAck m (crypto.confirmationTag k showConfirms)) ∧
      crypto.finish (crypto.start me).1 m = .ok k ∧
      reply = json.encodeWire (.identity (crypto.confirmationTag k enterConfirms)
        (.fromLocal ids me)) := by
  unfold enterFirst
  rcases decodeWire_cases json frame with ⟨e, he⟩ | ⟨body, hbody⟩
  · simp [bind, Except.bind, Carries, he]
  have hcarries := hbody.iff
  rw [hcarries, hbody]
  cases body with
  | spakeAck m' t =>
    cases hfinish : crypto.finish (crypto.start me).1 m' with
    | error e =>
      simp only [bind, Except.bind, Except.mapError, hfinish, WireBody.spakeAck.injEq,
        reduceCtorEq, false_iff]
      rintro ⟨⟨rfl, -⟩, hk, -⟩
      rw [hfinish] at hk
      cases hk
    | ok k' =>
      by_cases htag : t = crypto.confirmationTag k' showConfirms
      · have heq := constantTimeEq_iff.2 htag
        simp only [bind, Except.bind, Except.mapError, hfinish, heq, Bool.not_true,
          Bool.false_eq_true, if_false, WireBody.spakeAck.injEq, pure, Except.pure,
          Except.ok.injEq, Prod.mk.injEq]
        constructor
        · rintro ⟨rfl, rfl, rfl⟩
          exact ⟨⟨rfl, htag⟩, hfinish, rfl⟩
        · rintro ⟨⟨rfl, -⟩, hk, rfl⟩
          obtain rfl := Except.ok.inj (hfinish.symm.trans hk)
          exact ⟨rfl, rfl, rfl⟩
      · have hne : constantTimeEq t (crypto.confirmationTag k' showConfirms) = false := by
          rw [← Bool.not_eq_true, constantTimeEq_iff]
          exact htag
        simp only [bind, Except.bind, Except.mapError, hfinish, hne, Bool.not_false, if_true,
          throw, throwThe, MonadExceptOf.throw, reduceCtorEq, WireBody.spakeAck.injEq, false_iff]
        rintro ⟨⟨rfl, rfl⟩, hk, -⟩
        obtain rfl := Except.ok.inj (hfinish.symm.trans hk)
        exact htag rfl
  | _ => simp [bind, Except.bind, throw, throwThe, MonadExceptOf.throw]

theorem enterSecond_eq_ok : enterSecond json me frame = .ok paired ↔
    ∃ bundle, Carries json frame (.identityAck bundle) ∧
      paired = .ofBundle bundle me.now_rfc3339 := by
  unfold enterSecond
  rcases decodeWire_cases json frame with ⟨e, he⟩ | ⟨body, hbody⟩
  · simp [bind, Except.bind, Carries, he]
  have hcarries := hbody.iff
  simp only [hcarries]
  rw [hbody]
  cases body with
  | identityAck bundle => simp [bind, Except.bind, pure, Except.pure, eq_comm]
  | _ => simp [bind, Except.bind, throw, throwThe, MonadExceptOf.throw]

/-! ## An instance -/

/-- Messages that are their own frames. -/
def plainJson : Json WireMsg := ⟨id, .ok, fun _ => rfl⟩

/-- An ideal exchange of one byte: the key is the password with the two messages in order. The hash
keeps what it is given, up to 32 bytes after the prefix. A key is an encoded Ed25519 key. -/
def plainCrypto : Crypto where
  State := Bytes × UInt8
  startSymmetric password _ seed := ((password, UInt8.ofNat seed), [UInt8.ofNat seed])
  finish state msg := match msg with
    | [x] => .ok (state.1 ++ if state.2 ≤ x then [state.2, x] else [x, state.2])
    | _ => .error "WrongLength".toList
  sha256 input := Vector.ofFn fun i => (input.drop 14)[i]?.getD 0
  keyPeerId key := if key.length = 36 ∧ key.take 4 = [8, 1, 18, 32] then some ([0, 36] ++ key) else none

/-- The phone shows the PIN, and the laptop is where it is entered. -/
def phoneSide : Local :=
  ⟨"528491".toList, phone.drop 2, phone, "phone".toList, 1, "2026-01-01T00:00:00Z".toList⟩

def laptopSide : Local :=
  ⟨"528491".toList, laptop.drop 2, laptop, "laptop".toList, 2, "2026-01-01T00:00:00Z".toList⟩

/-- The key of the phone and the laptop. -/
def pairKey : Bytes := utf8Encode "528491".toList ++ [1, 2]

/-- **The two sides of a pairing get through**, and each records the other. -/
example :
    let spake := (enterStart plainCrypto plainJson laptopSide).2
    let ack := (showStep deviceIds plainCrypto plainJson phoneSide .listening
      ((spake.head?.map fun f => (laptop, f)).elim (.error []) .ok)).2
    let request := (enterStep deviceIds plainCrypto plainJson laptopSide .asking
      (ack.head?.elim (.error []) .ok)).2
    let inbox := (spake ++ request).map fun f => .ok (laptop, f)
    runShowSide deviceIds plainCrypto plainJson phoneSide inbox =
      .returned [2] pairKey (.ok
        (.ofBundle (.fromLocal deviceIds laptopSide) phoneSide.now_rfc3339)) := by
  decide +kernel

end Pairing

end Bypass
