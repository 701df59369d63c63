import Bypass.Sync.Pairing

/-!
# Agreement of a pairing

The two sides of one pairing, with everything between them in the hands of an adversary: it decides
what the next request or response of a side is, and from whom. It can repeat, reorder and replace
messages; what it cannot do is make the tag of a key that it does not know, which is a key that one
side got from the other side's message.

* `session_acks`: the showing side sends one `SpakeAck` at most.
* `Confirmed`: whatever the adversary does, an entering side that goes on has a key whose tag the
  showing side has sent.
* `pairing_agreement_iff`: two sides that get through agree on PIN and key, and on the identities
  exactly if these arrive as they were sent.
-/

namespace Bypass

namespace Pairing

open Machine

/-- The two sides, and the frames that they have sent. -/
structure Session (F : Type) where
  show_ : ShowState
  enter : EnterState
  sent : List F

/-- What the adversary does: end a wait of one of the sides. -/
inductive Delivery (F : Type) where
  | toShow (inbound : Except Str (PeerId × F))
  | toEnter (response : Except Str F)
  deriving DecidableEq

/-- What a side sends. -/
inductive Emitted (F : Type) where
  | byShow (frame : F)
  | byEnter (frame : F)
  deriving DecidableEq

variable {F : Type}

section Session

variable (ids : PeerIdText) (crypto : Crypto) (json : Json F) (shower enterer : Local)

/-- The sides step as they do alone. -/
def session : Machine (Session F) (Delivery F) (Emitted F)
  | s, .toShow inbound =>
    let step := showStep ids crypto json shower s.show_ inbound
    some ({ s with show_ := step.1, sent := s.sent ++ step.2 }, step.2.map .byShow)
  | s, .toEnter response =>
    let step := enterStep ids crypto json enterer s.enter response
    some ({ s with enter := step.1, sent := s.sent ++ step.2 }, step.2.map .byEnter)

/-- Both sides wait, and the first request has been sent. -/
def Session.start : Session F where
  show_ := showStart shower
  enter := (enterStart crypto json enterer).1
  sent := (enterStart crypto json enterer).2

/-! ## The adversary -/

/-- The tag in a message. -/
def WireBody.confirmation : WireBody → Option Tag
  | .spake _ => none
  | .spakeAck _ t => some t
  | .identity t _ => some t
  | .identityAck _ => none

/-- The tag in a frame. -/
def Json.tagOf (json : Json F) (frame : F) : Option Tag :=
  match json.decodeWire frame with
  | .ok msg => msg.body.confirmation
  | .error _ => none

/-- A key that one of the sides gets from the message of the other: the adversary does not know
it. -/
def Secret (key : Bytes) : Prop :=
  crypto.finish (crypto.start shower).1 (crypto.start enterer).2 = .ok key ∨
    crypto.finish (crypto.start enterer).1 (crypto.start shower).2 = .ok key

/-- The adversary can come by the tag of a frame: that of a secret key it has from a frame that was
sent. -/
def Producible (sent : List F) (frame : F) : Prop :=
  ∀ key domain, Secret crypto shower enterer key →
    json.tagOf frame = some (crypto.confirmationTag key domain) →
    json.tagOf frame ∈ sent.map json.tagOf

/-- What is delivered can be produced. -/
def CanDeliver (s : Session F) : Delivery F → Prop
  | .toShow (.ok (_, frame)) => Producible crypto json shower enterer s.sent frame
  | .toEnter (.ok frame) => Producible crypto json shower enterer s.sent frame
  | .toShow (.error _) => True
  | .toEnter (.error _) => True

/-- Ideal SPAKE2: the two sides have one key exactly if they were run with one PIN and each has
received the other's message. -/
def IdealSpake : Prop :=
  ∀ mS mE kS kE, crypto.finish (crypto.start shower).1 mS = .ok kS →
    crypto.finish (crypto.start enterer).1 mE = .ok kE →
    (kS = kE ↔ shower.pin = enterer.pin ∧ mS = (crypto.start enterer).2 ∧
      mE = (crypto.start shower).2)

end Session

variable {ids : PeerIdText} {crypto : Crypto} {json : Json F} {shower enterer : Local}

theorem Carries.tagOf {frame : F} {body : WireBody} (h : Carries json frame body) :
    json.tagOf frame = body.confirmation := by
  unfold Carries at h
  rw [Json.tagOf, h]

/-! ## One acknowledgement -/

/-- This is an acknowledgement of the showing side. -/
def isSpakeAck (json : Json F) : Emitted F → Bool
  | .byShow frame => match json.decodeWire frame with
    | .ok ⟨_, .spakeAck _ _⟩ => true
    | _ => false
  | .byEnter _ => false

/-- How many acknowledgements are still to come. -/
def ShowState.toAck : ShowState → ℕ
  | .listening => 1
  | .confirming _ _ => 0
  | .returned _ _ _ => 0
  | .failed _ => 0

theorem showStep_toAck (state : ShowState) (inbound : Except Str (PeerId × F)) :
    (showStep ids crypto json shower state inbound).1.toAck ≤ state.toAck := by
  rcases state with _ | ⟨m, k⟩ | ⟨m, k, result⟩ | e
  · generalize (showStep ids crypto json shower .listening inbound).1 = state
    cases state with
    | listening => exact le_refl _
    | confirming _ _ => exact Nat.zero_le _
    | returned _ _ _ => exact Nat.zero_le _
    | failed _ => exact Nat.zero_le _
  · rcases inbound with e | ⟨sender, request⟩
    · exact le_refl _
    · rw [showStep]
      split <;> exact le_refl _
  · exact le_refl _
  · exact le_refl _

variable (ids crypto json shower) in
/-- The first reply of the showing side, and its second one. -/
theorem showStep_replies (state : ShowState) (inbound : Except Str (PeerId × F)) (frame : F)
    (h : frame ∈ (showStep ids crypto json shower state inbound).2) :
    (∃ m k, state = .listening ∧
        (showStep ids crypto json shower state inbound).1 = .confirming m k ∧
        crypto.finish (crypto.start shower).1 m = .ok k ∧
        (showStep ids crypto json shower state inbound).2 = [frame] ∧
        Carries json frame (.spakeAck (crypto.start shower).2
          (crypto.confirmationTag k showConfirms))) ∨
      ∃ m k sender request bundle, state = .confirming m k ∧ inbound = .ok (sender, request) ∧
        Carries json request (.identity (crypto.confirmationTag k enterConfirms) bundle) ∧
        (showStep ids crypto json shower state inbound).2 = [frame] ∧
        Carries json frame (.identityAck (.fromLocal ids shower)) := by
  rcases state with _ | ⟨m, k⟩ | ⟨m, k, result⟩ | e
  · rcases inbound with e | ⟨sender, request⟩
    · cases h
    · simp only [showStep] at h ⊢
      rcases hfirst : showFirst crypto json shower request with e | ⟨m, k, reply⟩
      · rw [hfirst] at h
        cases h
      · rw [hfirst] at h
        obtain rfl := List.mem_singleton.1 h
        obtain ⟨-, hfinish, rfl⟩ := showFirst_eq_ok.1 hfirst
        exact Or.inl ⟨m, k, trivial, rfl, hfinish, rfl, carries_encodeWire _⟩
  · rcases inbound with e | ⟨sender, request⟩
    · cases h
    · simp only [showStep] at h ⊢
      rcases hsecond : showSecond ids crypto json shower k request with e | ⟨paired, reply⟩
      · rw [hsecond] at h
        cases h
      · rw [hsecond] at h
        obtain rfl := List.mem_singleton.1 h
        obtain ⟨bundle, hidentity, -, rfl⟩ := showSecond_eq_ok.1 hsecond
        exact Or.inr ⟨m, k, sender, request, bundle, rfl, rfl, hidentity, rfl,
          carries_encodeWire _⟩
  · cases h
  · cases h

/-- The acknowledgement is used up when it is sent. -/
theorem session_acks {s s' : Session F} {event : Delivery F} {shown : List (Emitted F)}
    (hx : session ids crypto json shower enterer s event = some (s', shown)) :
    shown.countP (isSpakeAck json) + s'.show_.toAck ≤ s.show_.toAck := by
  cases event with
  | toEnter response =>
    obtain ⟨rfl, rfl⟩ := Prod.mk.inj (Option.some.inj hx)
    have hnone : ((enterStep ids crypto json enterer s.enter response).2.map
        Emitted.byEnter).countP (isSpakeAck json) = 0 := by
      rw [List.countP_eq_zero]
      intro out hout
      obtain ⟨frame, -, rfl⟩ := List.mem_map.1 hout
      exact Bool.false_ne_true
    rw [hnone, zero_add]
  | toShow inbound =>
    obtain ⟨rfl, rfl⟩ := Prod.mk.inj (Option.some.inj hx)
    show ((showStep ids crypto json shower s.show_ inbound).2.map Emitted.byShow).countP
        (isSpakeAck json) + (showStep ids crypto json shower s.show_ inbound).1.toAck ≤
      s.show_.toAck
    rcases hreplies : (showStep ids crypto json shower s.show_ inbound).2 with _ | ⟨frame, rest⟩
    · rw [List.map_nil, List.countP_nil, zero_add]
      exact showStep_toAck _ _
    · rcases showStep_replies ids crypto json shower s.show_ inbound frame
          (by rw [hreplies]; exact List.mem_cons_self) with
        ⟨m, k, hstate, hafter, -, hone, hack⟩ |
        ⟨m, k, sender, request, bundle, hstate, -, -, hone, hack⟩
      · rw [← hreplies, hone, hafter, hstate, List.map_singleton, List.countP_singleton]
        split
        · exact le_refl _
        · exact Nat.zero_le _
      · have hno : isSpakeAck json (.byShow frame) = false := by
          unfold Carries at hack
          rw [isSpakeAck, hack]
        rw [← hreplies, hone, List.map_singleton, List.countP_singleton, hno,
          if_neg Bool.false_ne_true, zero_add]
        exact showStep_toAck _ _

/-! ## Keys that are confirmed -/

/-- The message that a side has received, and the key. -/
def ShowState.heard : ShowState → Option (Bytes × Bytes)
  | .listening => none
  | .confirming m k => some (m, k)
  | .returned m k _ => some (m, k)
  | .failed _ => none

def EnterState.heard : EnterState → Option (Bytes × Bytes)
  | .asking => none
  | .confirmed m k => some (m, k)
  | .returned m k _ => some (m, k)
  | .failed _ => none

variable (ids crypto json shower) in
/-- **A step of the showing side**: it gets its key and sends the tag of it, or it keeps what it has
and sends no tag. -/
theorem showStep_heard (state : ShowState) (inbound : Except Str (PeerId × F)) :
    (∃ m k frame, state.heard = none ∧
        (showStep ids crypto json shower state inbound).1.heard = some (m, k) ∧
        crypto.finish (crypto.start shower).1 m = .ok k ∧
        (showStep ids crypto json shower state inbound).2 = [frame] ∧
        json.tagOf frame = some (crypto.confirmationTag k showConfirms)) ∨
      (showStep ids crypto json shower state inbound).1.heard = state.heard ∧
        ∀ frame ∈ (showStep ids crypto json shower state inbound).2, json.tagOf frame = none := by
  have hreplies := showStep_replies ids crypto json shower state inbound
  rcases state with _ | ⟨m, k⟩ | ⟨m, k, result⟩ | e
  · rcases inbound with e | ⟨sender, request⟩
    · exact Or.inr ⟨rfl, fun frame hframe => absurd hframe List.not_mem_nil⟩
    · rw [showStep] at hreplies ⊢
      rcases hfirst : showFirst crypto json shower request with e | ⟨m, k, reply⟩
      · exact Or.inr ⟨rfl, fun frame hframe => absurd hframe List.not_mem_nil⟩
      · obtain ⟨-, hfinish, rfl⟩ := showFirst_eq_ok.1 hfirst
        exact Or.inl ⟨m, k, _, rfl, rfl, hfinish, rfl, (carries_encodeWire _).tagOf⟩
  · refine Or.inr ⟨?_, fun frame hframe => ?_⟩
    · rcases inbound with e | ⟨sender, request⟩
      · rfl
      · rw [showStep]
        split <;> rfl
    · rcases hreplies frame hframe with ⟨m', k', hstate, -⟩ | ⟨m', k', _, _, _, -, -, -, -, hack⟩
      · cases hstate
      · exact hack.tagOf
  · exact Or.inr ⟨rfl, fun frame hframe => absurd hframe List.not_mem_nil⟩
  · exact Or.inr ⟨rfl, fun frame hframe => absurd hframe List.not_mem_nil⟩

variable (ids crypto json enterer) in
/-- **A step of the entering side**: it gets its key, from a message with the tag of it, and sends a
tag of its own; or it keeps what it has and sends nothing. -/
theorem enterStep_heard (state : EnterState) (response : Except Str F) :
    (∃ m k frame request, state.heard = none ∧ response = .ok frame ∧
        (enterStep ids crypto json enterer state response).1.heard = some (m, k) ∧
        crypto.finish (crypto.start enterer).1 m = .ok k ∧
        json.tagOf frame = some (crypto.confirmationTag k showConfirms) ∧
        (enterStep ids crypto json enterer state response).2 = [request] ∧
        json.tagOf request = some (crypto.confirmationTag k enterConfirms)) ∨
      (enterStep ids crypto json enterer state response).1.heard = state.heard ∧
        (enterStep ids crypto json enterer state response).2 = [] := by
  rcases state with _ | ⟨m, k⟩ | ⟨m, k, result⟩ | e
  · rcases response with e | frame
    · exact Or.inr ⟨rfl, rfl⟩
    · rw [enterStep]
      rcases hfirst : enterFirst ids crypto json enterer frame with e | ⟨m, k, request⟩
      · exact Or.inr ⟨rfl, rfl⟩
      · obtain ⟨hack, hfinish, rfl⟩ := enterFirst_eq_ok.1 hfirst
        exact Or.inl ⟨m, k, frame, _, rfl, rfl, rfl, hfinish, hack.tagOf, rfl,
          (carries_encodeWire _).tagOf⟩
  · rcases response with e | frame <;> exact Or.inr ⟨rfl, rfl⟩
  · exact Or.inr ⟨rfl, rfl⟩
  · exact Or.inr ⟨rfl, rfl⟩

/-- **Where the tags come from.** Each tag that was sent is that of a side's own key; and if the
entering side has a key from the message of the showing side, then the showing side has a key whose
tag is the same. -/
structure Confirmed (crypto : Crypto) (json : Json F) (shower enterer : Local) (s : Session F) :
    Prop where
  tags : ∀ frame ∈ s.sent, ∀ t, json.tagOf frame = some t →
    (∃ m k, s.show_.heard = some (m, k) ∧ t = crypto.confirmationTag k showConfirms) ∨
      ∃ m k, s.enter.heard = some (m, k) ∧ t = crypto.confirmationTag k enterConfirms
  show_key : ∀ m k, s.show_.heard = some (m, k) → crypto.finish (crypto.start shower).1 m = .ok k
  enter_key : ∀ m k, s.enter.heard = some (m, k) → crypto.finish (crypto.start enterer).1 m = .ok k
  confirmed : ∀ k, s.enter.heard = some ((crypto.start shower).2, k) →
    ∃ m' k', s.show_.heard = some (m', k') ∧
      crypto.confirmationTag k showConfirms = crypto.confirmationTag k' showConfirms

theorem confirmed_start : Confirmed crypto json shower enterer
    (Session.start crypto json shower enterer) := by
  have hshow : (showStart shower).heard = none := by
    unfold showStart
    split <;> rfl
  have henter : (enterStart crypto json enterer).1.heard = none := by
    unfold enterStart
    split <;> rfl
  have hsent : ∀ frame ∈ (enterStart crypto json enterer).2, json.tagOf frame = none := by
    intro frame hframe
    unfold enterStart at hframe
    split at hframe
    · cases hframe
    · rw [List.mem_singleton.1 hframe]
      exact (carries_encodeWire _).tagOf
  refine ⟨fun frame hframe t ht => ?_, fun m k h => ?_, fun m k h => ?_, fun k h => ?_⟩
  · rw [hsent frame hframe] at ht
    cases ht
  · exact absurd (hshow.symm.trans h) (Option.some_ne_none _).symm
  · exact absurd (henter.symm.trans h) (Option.some_ne_none _).symm
  · exact absurd (henter.symm.trans h) (Option.some_ne_none _).symm

/-- **The adversary cannot break it.** -/
theorem session_confirmed {s s' : Session F} {event : Delivery F} {shown : List (Emitted F)}
    (hx : session ids crypto json shower enterer s event = some (s', shown))
    (hdeliver : CanDeliver crypto json shower enterer s event)
    (h : Confirmed crypto json shower enterer s) : Confirmed crypto json shower enterer s' := by
  cases event with
  | toShow inbound =>
    obtain ⟨rfl, -⟩ := Prod.mk.inj (Option.some.inj hx)
    rcases showStep_heard ids crypto json shower s.show_ inbound with
      ⟨m, k, frame, hnone, hheard, hfinish, hone, htag⟩ | ⟨hheard, hnotag⟩
    · refine ⟨?_, ?_, h.enter_key, ?_⟩
      · intro f hf t ht
        rcases List.mem_append.1 hf with hf | hf
        · rcases h.tags f hf t ht with ⟨m', k', hm', -⟩ | henter
          · rw [hnone] at hm'
            cases hm'
          · exact Or.inr henter
        · rw [hone, List.mem_singleton] at hf
          rw [hf, htag] at ht
          exact Or.inl ⟨m, k, hheard, (Option.some.inj ht).symm⟩
      · intro m' k' hm'
        obtain ⟨rfl, rfl⟩ := Prod.mk.inj (Option.some.inj (hheard.symm.trans hm'))
        exact hfinish
      · intro k' hk'
        obtain ⟨m', k'', hm', -⟩ := h.confirmed k' hk'
        rw [hnone] at hm'
        cases hm'
    · refine ⟨?_, ?_, h.enter_key, ?_⟩
      · intro f hf t ht
        show (∃ m k, _ = _ ∧ _) ∨ _
        rw [hheard]
        rcases List.mem_append.1 hf with hf | hf
        · exact h.tags f hf t ht
        · rw [hnotag f hf] at ht
          cases ht
      · intro m k hm
        exact h.show_key m k (hheard ▸ hm)
      · intro k hk
        show ∃ m' k', _ = _ ∧ _
        rw [hheard]
        exact h.confirmed k hk
  | toEnter response =>
    obtain ⟨rfl, -⟩ := Prod.mk.inj (Option.some.inj hx)
    rcases enterStep_heard ids crypto json enterer s.enter response with
      ⟨m, k, frame, request, hnone, rfl, hheard, hfinish, htag, hone, hown⟩ | ⟨hheard, hnil⟩
    · refine ⟨?_, h.show_key, ?_, ?_⟩
      · intro f hf t ht
        rcases List.mem_append.1 hf with hf | hf
        · rcases h.tags f hf t ht with hshow | ⟨m', k', hm', -⟩
          · exact Or.inl hshow
          · rw [hnone] at hm'
            cases hm'
        · rw [hone, List.mem_singleton] at hf
          rw [hf, hown] at ht
          exact Or.inr ⟨m, k, hheard, (Option.some.inj ht).symm⟩
      · intro m' k' hm'
        obtain ⟨rfl, rfl⟩ := Prod.mk.inj (Option.some.inj (hheard.symm.trans hm'))
        exact hfinish
      · intro k' hk'
        obtain ⟨rfl, rfl⟩ := Prod.mk.inj (Option.some.inj (hheard.symm.trans hk'))
        -- the key is secret, so its tag was sent, and only the showing side can have sent it
        have hsent := hdeliver k showConfirms (Or.inr hfinish) htag
        rw [htag] at hsent
        obtain ⟨f, hf, hft⟩ := List.mem_map.1 hsent
        rcases h.tags f hf _ hft with ⟨m', k', hm', htags⟩ | ⟨m', k', hm', -⟩
        · exact ⟨m', k', hm', htags⟩
        · rw [hnone] at hm'
          cases hm'
    · refine ⟨?_, h.show_key, ?_, ?_⟩
      · intro f hf t ht
        rw [hnil, List.append_nil] at hf
        show _ ∨ ∃ m k, _ = _ ∧ _
        rw [hheard]
        exact h.tags f hf t ht
      · intro m k hm
        exact h.enter_key m k (hheard ▸ hm)
      · intro k hk
        exact h.confirmed k (hheard ▸ hk)

/-! ## Agreement -/

/-- The tags of the two keys do not collide. -/
def CollisionFree (crypto : Crypto) (s : Session F) : Prop :=
  ∀ mS kS mE kE, s.show_.heard = some (mS, kS) → s.enter.heard = some (mE, kE) →
    ∀ x ∈ [tagInput kS showConfirms, tagInput kS enterConfirms, tagInput kE showConfirms,
      tagInput kE enterConfirms],
    ∀ y ∈ [tagInput kS showConfirms, tagInput kS enterConfirms, tagInput kE showConfirms,
      tagInput kE enterConfirms], crypto.sha256 x = crypto.sha256 y → x = y

/-- Both sides have got through, each with the message of the other. -/
def Through (crypto : Crypto) (shower enterer : Local) (s : Session F) (kS kE : Bytes)
    (pS pE : PairedPeer) : Prop :=
  s.show_ = .returned (crypto.start enterer).2 kS (.ok pS) ∧
    s.enter = .returned (crypto.start shower).2 kE (.ok pE)

/-- **What a pairing promises**: one acknowledgement at most; an identity only for the right tag;
and two sides that get through agree on PIN and key, and have each the identity that the other
sent. -/
structure Agreement (ids : PeerIdText) (crypto : Crypto) (json : Json F) (shower enterer : Local)
    (run : List (Move (Session F) (Delivery F) (Emitted F))) (s : Session F) : Prop where
  one_ack : (run.map fun x => x.outputs.countP (isSpakeAck json)).sum ≤ 1
  ack_confirmed : ∀ x ∈ run, ∀ frame bundle, .byShow frame ∈ x.outputs →
    Carries json frame (.identityAck bundle) →
    ∃ m k sender request remote, x.before.show_ = .confirming m k ∧
      x.event = .toShow (.ok (sender, request)) ∧
      Carries json request (.identity (crypto.confirmationTag k enterConfirms) remote)
  agree : ∀ kS kE pS pE, Through crypto shower enterer s kS kE pS pE →
    shower.pin = enterer.pin ∧ kS = kE ∧
      pS = .ofBundle (.fromLocal ids enterer) shower.now_rfc3339 ∧
      pE = .ofBundle (.fromLocal ids shower) enterer.now_rfc3339

/-- **The identities arrive as they were sent**: the one that the showing side accepts, with the
right tag, and the one that the entering side waits for. -/
def Genuine (ids : PeerIdText) (crypto : Crypto) (json : Json F) (shower enterer : Local)
    (x : Move (Session F) (Delivery F) (Emitted F)) : Prop :=
  (∀ m k sender request remote, x.before.show_ = .confirming m k →
    x.event = .toShow (.ok (sender, request)) →
    Carries json request (.identity (crypto.confirmationTag k enterConfirms) remote) →
    remote = .fromLocal ids enterer) ∧
  ∀ m k response remote, x.before.enter = .confirmed m k → x.event = .toEnter (.ok response) →
    Carries json response (.identityAck remote) → remote = .fromLocal ids shower

section Agreement

variable {s t : Session F} {run : List (Move (Session F) (Delivery F) (Emitted F))}

/-- A side that has returned stays as it is. -/
theorem Runs.returned (hrun : Runs (session ids crypto json shower enterer) s run t) :
    (∀ m k r, s.show_ = .returned m k r → t.show_ = .returned m k r) ∧
      ∀ m k r, s.enter = .returned m k r → t.enter = .returned m k r := by
  induction hrun with
  | nil => exact ⟨fun _ _ _ => id, fun _ _ _ => id⟩
  | @cons x run u hx _ ih =>
    obtain ⟨s, event, s', shown⟩ := x
    obtain ⟨ihS, ihE⟩ := ih
    have hx : session ids crypto json shower enterer s event = some (s', shown) := hx
    refine ⟨fun m k r h => ihS m k r ?_, fun m k r h => ihE m k r ?_⟩
    · show s'.show_ = _
      replace h : s.show_ = .returned m k r := h
      cases event with
      | toShow inbound =>
        obtain ⟨rfl, -⟩ := Prod.mk.inj (Option.some.inj hx)
        show (showStep ids crypto json shower s.show_ inbound).1 = _
        rw [h, showStep]
      | toEnter response =>
        obtain ⟨rfl, -⟩ := Prod.mk.inj (Option.some.inj hx)
        exact h
    · show s'.enter = _
      replace h : s.enter = .returned m k r := h
      cases event with
      | toShow inbound =>
        obtain ⟨rfl, -⟩ := Prod.mk.inj (Option.some.inj hx)
        exact h
      | toEnter response =>
        obtain ⟨rfl, -⟩ := Prod.mk.inj (Option.some.inj hx)
        show (enterStep ids crypto json enterer s.enter response).1 = _
        rw [h, enterStep]

/-- What the sides have recorded is what was sent. -/
def Honest (ids : PeerIdText) (shower enterer : Local) (s : Session F) : Prop :=
  (∀ m k p, s.show_ = .returned m k (.ok p) →
    p = .ofBundle (.fromLocal ids enterer) shower.now_rfc3339) ∧
  ∀ m k p, s.enter = .returned m k (.ok p) →
    p = .ofBundle (.fromLocal ids shower) enterer.now_rfc3339

/-- **A step that delivers what was sent.** -/
theorem session_honest {s' : Session F} {event : Delivery F} {shown : List (Emitted F)}
    (hx : session ids crypto json shower enterer s event = some (s', shown))
    (hgenuine : Genuine ids crypto json shower enterer ⟨s, event, s', shown⟩)
    (h : Honest ids shower enterer s) : Honest ids shower enterer s' := by
  cases event with
  | toShow inbound =>
    obtain ⟨rfl, -⟩ := Prod.mk.inj (Option.some.inj hx)
    refine ⟨fun m k p hp => ?_, h.2⟩
    replace hp : (showStep ids crypto json shower s.show_ inbound).1 = .returned m k (.ok p) := hp
    rcases hstate : s.show_ with _ | ⟨m', k'⟩ | ⟨m', k', result⟩ | e
    · rw [hstate] at hp
      rcases inbound with e | ⟨sender, request⟩
      · cases hp
      · rw [showStep] at hp
        split at hp <;> cases hp
    · rw [hstate] at hp
      rcases inbound with e | ⟨sender, request⟩
      · cases hp
      · rw [showStep] at hp
        rcases hsecond : showSecond ids crypto json shower k' request with e | ⟨paired, reply⟩
        · rw [hsecond] at hp
          cases hp
        · rw [hsecond] at hp
          cases hp
          obtain ⟨remote, hidentity, rfl, -⟩ := showSecond_eq_ok.1 hsecond
          rw [hgenuine.1 m k sender request remote hstate rfl hidentity]
    · rw [hstate, showStep] at hp
      exact h.1 m k p (hstate.trans hp)
    · rw [hstate] at hp
      cases hp
  | toEnter response =>
    obtain ⟨rfl, -⟩ := Prod.mk.inj (Option.some.inj hx)
    refine ⟨h.1, fun m k p hp => ?_⟩
    replace hp : (enterStep ids crypto json enterer s.enter response).1 =
      .returned m k (.ok p) := hp
    rcases hstate : s.enter with _ | ⟨m', k'⟩ | ⟨m', k', result⟩ | e
    · rw [hstate] at hp
      rcases response with e | frame
      · cases hp
      · rw [enterStep] at hp
        split at hp <;> cases hp
    · rw [hstate] at hp
      rcases response with e | frame
      · cases hp
      · rw [enterStep] at hp
        obtain ⟨rfl, rfl, hsecond⟩ := EnterState.returned.inj hp
        obtain ⟨remote, hidentity, rfl⟩ := enterSecond_eq_ok.1 hsecond
        rw [hgenuine.2 _ _ frame remote hstate rfl hidentity]
    · rw [hstate, enterStep] at hp
      exact h.2 m k p (hstate.trans hp)
    · rw [hstate] at hp
      cases hp

theorem honest_start : Honest ids shower enterer (Session.start crypto json shower enterer) := by
  refine ⟨fun m k p h => ?_, fun m k p h => ?_⟩
  · replace h : showStart shower = .returned m k (.ok p) := h
    unfold showStart at h
    split at h <;> cases h
  · replace h : (enterStart crypto json enterer).1 = .returned m k (.ok p) := h
    unfold enterStart at h
    split at h <;> cases h

/-- **Where the sides got through with what was sent**, all that counted arrived as it was sent. -/
theorem genuine_of_through {kS kE : Bytes} {pS pE : PairedPeer}
    (hrun : Runs (session ids crypto json shower enterer) s run t)
    (hthrough : Through crypto shower enterer t kS kE pS pE)
    (hS : pS = .ofBundle (.fromLocal ids enterer) shower.now_rfc3339)
    (hE : pE = .ofBundle (.fromLocal ids shower) enterer.now_rfc3339) :
    ∀ x ∈ run, Genuine ids crypto json shower enterer x := by
  intro x hx
  have hmakes := hrun.makes x hx
  obtain ⟨rest, -, hrest⟩ := hrun.rest x hx
  obtain ⟨hshow, henter⟩ := Runs.returned hrest
  obtain ⟨before, event, after, shown⟩ := x
  replace hmakes : session ids crypto json shower enterer before event = some (after, shown) := hmakes
  refine ⟨fun m k sender request remote hstate hevent hidentity => ?_,
    fun m k response remote hstate hevent hidentity => ?_⟩
  · obtain rfl : event = .toShow (.ok (sender, request)) := hevent
    obtain ⟨rfl, -⟩ := Prod.mk.inj (Option.some.inj hmakes)
    have hsecond : showSecond ids crypto json shower k request =
        .ok (.ofBundle remote shower.now_rfc3339, _) :=
      showSecond_eq_ok.2 ⟨remote, hidentity, rfl, rfl⟩
    have hend := hshow m k (.ok (.ofBundle remote shower.now_rfc3339)) (by
      show (showStep ids crypto json shower before.show_ (.ok (sender, request))).1 = _
      rw [show before.show_ = .confirming m k from hstate, showStep, hsecond])
    rw [hthrough.1, hS] at hend
    exact (congrArg PairedPeer.remote (Except.ok.inj (ShowState.returned.inj hend).2.2)).symm
  · obtain rfl : event = .toEnter (.ok response) := hevent
    obtain ⟨rfl, -⟩ := Prod.mk.inj (Option.some.inj hmakes)
    have hsecond : enterSecond json enterer response =
        .ok (.ofBundle remote enterer.now_rfc3339) := enterSecond_eq_ok.2 ⟨remote, hidentity, rfl⟩
    have hend := henter m k (.ok (.ofBundle remote enterer.now_rfc3339)) (by
      show (enterStep ids crypto json enterer before.enter (.ok response)).1 = _
      rw [show before.enter = .confirmed m k from hstate, enterStep, hsecond])
    rw [hthrough.2, hE] at hend
    exact (congrArg PairedPeer.remote (Except.ok.inj (EnterState.returned.inj hend).2.2)).symm

end Agreement

/-- **When a pairing keeps its promise.** SPAKE2 is ideal, tags do not collide, and the adversary
delivers what it can produce: then everything but the identities is agreed on in every run, and the
identities are if and only if two sides that got through were given them as they were sent. -/
theorem pairing_agreement_iff {F : Type} {ids : PeerIdText} {crypto : Crypto} {json : Json F}
    {shower enterer : Local} {run : List (Move (Session F) (Delivery F) (Emitted F))}
    {s : Session F} (hideal : IdealSpake crypto shower enterer)
    (hrun : Runs (session ids crypto json shower enterer) (Session.start crypto json shower enterer)
      run s)
    (hdeliver : ∀ x ∈ run, CanDeliver crypto json shower enterer x.before x.event)
    (hsha : CollisionFree crypto s) :
    Agreement ids crypto json shower enterer run s ↔
      ∀ kS kE pS pE, Through crypto shower enterer s kS kE pS pE →
        ∀ x ∈ run, Genuine ids crypto json shower enterer x := by
  have hconfirmed : Confirmed crypto json shower enterer s :=
    hrun.invariant (fun x hx => session_confirmed hx) hdeliver confirmed_start
  constructor
  · intro h kS kE pS pE hthrough
    obtain ⟨-, -, hS, hE⟩ := h.agree kS kE pS pE hthrough
    exact genuine_of_through hrun hthrough hS hE
  · intro hgenuine
    refine ⟨?_, ?_, ?_⟩
    · have hbudget := hrun.budget (fun s => s.show_.toAck)
        (fun x => x.outputs.countP (isSpakeAck json)) fun x hx => session_acks (hrun.makes x hx)
      have hone : (Session.start crypto json shower enterer).show_.toAck ≤ 1 := by
        show (showStart shower).toAck ≤ 1
        unfold showStart
        split
        · exact Nat.zero_le _
        · exact le_refl _
      omega
    · intro x hx frame bundle hout hack
      have hmakes := hrun.makes x hx
      obtain ⟨before, event, after, shown⟩ := x
      replace hmakes : session ids crypto json shower enterer before event = some (after, shown) :=
        hmakes
      cases event with
      | toEnter response =>
        obtain ⟨-, rfl⟩ := Prod.mk.inj (Option.some.inj hmakes)
        obtain ⟨f, -, hf⟩ := List.mem_map.1 hout
        cases hf
      | toShow inbound =>
        obtain ⟨-, rfl⟩ := Prod.mk.inj (Option.some.inj hmakes)
        obtain ⟨f, hf, hframe⟩ := List.mem_map.1 hout
        obtain rfl := (Emitted.byShow.inj hframe)
        rcases showStep_replies ids crypto json shower before.show_ inbound f hf with
          ⟨m, k, -, -, -, -, hspake⟩ | ⟨m, k, sender, request, remote, hstate, rfl, hid, -, -⟩
        · cases hspake.unique hack
        · exact ⟨m, k, sender, request, remote, hstate, rfl, hid⟩
    · intro kS kE pS pE hthrough
      have hhonest : Honest ids shower enterer s :=
        hrun.invariant (fun x (hx : session ids crypto json shower enterer x.before x.event = _) =>
          session_honest hx) (hgenuine kS kE pS pE hthrough) honest_start
      have hheardS : s.show_.heard = some ((crypto.start enterer).2, kS) := by
        rw [hthrough.1]
        rfl
      have hheardE : s.enter.heard = some ((crypto.start shower).2, kE) := by
        rw [hthrough.2]
        rfl
      -- the tags are those of one key
      obtain ⟨m', k', hm', htag⟩ := hconfirmed.confirmed kE hheardE
      obtain ⟨rfl, rfl⟩ := Prod.mk.inj (Option.some.inj (hheardS.symm.trans hm'))
      have hinput := hsha _ _ _ _ hheardS hheardE (tagInput kE showConfirms) (by simp)
        (tagInput kS showConfirms) (by simp) htag
      have hkeys : kS = kE := (List.append_cancel_left hinput).symm
      obtain ⟨hpin, -, -⟩ := (hideal _ _ _ _ (hconfirmed.show_key _ _ hheardS)
        (hconfirmed.enter_key _ _ hheardE)).1 hkeys
      exact ⟨hpin, hkeys, hhonest.1 _ _ _ hthrough.1, hhonest.2 _ _ _ hthrough.2⟩

/-! ## A stranger in between -/

/-- The frame that is delivered. -/
def Delivery.frame : Delivery F → Option F
  | .toShow (.ok (_, frame)) => some frame
  | .toEnter (.ok frame) => some frame
  | .toShow (.error _) => none
  | .toEnter (.error _) => none

/-- Who repeats the tags of frames that were sent makes none. -/
theorem canDeliver_of_sent {s : Session F} {event : Delivery F}
    (h : ∀ frame ∈ event.frame, json.tagOf frame = none ∨
      json.tagOf frame ∈ s.sent.map json.tagOf) :
    CanDeliver crypto json shower enterer s event := by
  have hproducible : ∀ frame ∈ event.frame,
      Producible crypto json shower enterer s.sent frame := by
    intro frame hframe key domain _ htag
    rcases h frame hframe with hnone | hsent
    · rw [hnone] at htag
      cases htag
    · exact hsent
  rcases event with (e | ⟨sender, frame⟩) | (e | frame)
  · trivial
  · exact hproducible frame rfl
  · trivial
  · exact hproducible frame rfl

theorem plain_ideal : IdealSpake plainCrypto phoneSide laptopSide := by
  intro mS mE kS kE hS hE
  rcases mS with _ | ⟨x, _ | ⟨x', mS⟩⟩
  · cases hS
  rotate_left
  · cases hS
  rcases mE with _ | ⟨y, _ | ⟨y', mE⟩⟩
  · cases hE
  rotate_left
  · cases hE
  -- the keys end in the two messages in order, on each side
  obtain rfl := Except.ok.inj hS
  obtain rfl := Except.ok.inj hE
  show utf8Encode "528491".toList ++ (if (1 : UInt8) ≤ x then [1, x] else [x, 1]) =
    utf8Encode "528491".toList ++ (if (2 : UInt8) ≤ y then [2, y] else [y, 2]) ↔
      "528491".toList = "528491".toList ∧ [x] = [2] ∧ [y] = [1]
  rw [List.append_cancel_left_eq]
  split_ifs with hx hy hy
  · simp only [List.cons.injEq, and_true, true_and]
    constructor
    · rintro ⟨h, -⟩
      exact absurd h (by decide)
    · rintro ⟨-, rfl⟩
      exact absurd hy (by decide)
  · simp only [List.cons.injEq, and_true, true_and]
    exact ⟨fun ⟨h, h'⟩ => ⟨h', h.symm⟩, fun ⟨h, h'⟩ => ⟨h'.symm, h⟩⟩
  · simp only [List.cons.injEq, and_true, true_and]
    constructor
    · rintro ⟨rfl, -⟩
      exact absurd hx (by decide)
    · rintro ⟨rfl, -⟩
      exact absurd hx (by decide)
  · simp only [List.cons.injEq, and_true, true_and]
    constructor
    · rintro ⟨-, h⟩
      exact absurd h (by decide)
    · rintro ⟨rfl, -⟩
      exact absurd hx (by decide)

/-- The deliveries of a pairing of the phone and the laptop, with these identities. -/
def pairDeliveries (forShow forEnter : IdentityBundle) : List (Delivery WireMsg) :=
  [.toShow (.ok (laptop, ⟨wireMagic, .spake [2]⟩)),
    .toEnter (.ok ⟨wireMagic, .spakeAck [1] (plainCrypto.confirmationTag pairKey showConfirms)⟩),
    .toShow (.ok (laptop,
      ⟨wireMagic, .identity (plainCrypto.confirmationTag pairKey enterConfirms) forShow⟩)),
    .toEnter (.ok ⟨wireMagic, .identityAck forEnter⟩)]

abbrev pairSession : Machine (Session WireMsg) (Delivery WireMsg) (Emitted WireMsg) :=
  session deviceIds plainCrypto plainJson phoneSide laptopSide

def pairStart : Session WireMsg := Session.start plainCrypto plainJson phoneSide laptopSide

def pairRun (forShow forEnter : IdentityBundle) :
    Option (List (Move (Session WireMsg) (Delivery WireMsg) (Emitted WireMsg)) × Session WireMsg) :=
  exec pairSession pairStart (pairDeliveries forShow forEnter)

/-- The identities as they were sent. -/
def fairRun : List (Move (Session WireMsg) (Delivery WireMsg) (Emitted WireMsg)) × Session WireMsg :=
  (pairRun (.fromLocal deviceIds laptopSide) (.fromLocal deviceIds phoneSide)).get
    (by decide +kernel)

/-- The identity of a stranger. -/
def strangerBundle : IdentityBundle :=
  ⟨"tablet".toList, "12D3KooWD3eckifWpRn9wQpMG9R9hX3sD158z7EqHWmweQAJU5SA".toList,
    "080112202ffa35a99d3a3cfbb17bb7c1dc5561b18a8dcca4df38dc613ea859c37eb1336b".toList⟩

/-- The identity of a stranger in place of both. -/
def foulRun : List (Move (Session WireMsg) (Delivery WireMsg) (Emitted WireMsg)) × Session WireMsg :=
  (pairRun strangerBundle strangerBundle).get (by decide +kernel)

theorem foulRun_heard : foulRun.2.show_.heard = some ([2], pairKey) ∧
    foulRun.2.enter.heard = some ([1], pairKey) := by decide +kernel

theorem fairRun_heard : fairRun.2.show_.heard = some ([2], pairKey) ∧
    fairRun.2.enter.heard = some ([1], pairKey) := by decide +kernel

theorem collisionFree_pairKey {s : Session WireMsg} (h : s.show_.heard = some ([2], pairKey) ∧
    s.enter.heard = some ([1], pairKey)) : CollisionFree plainCrypto s := by
  intro mS kS mE kE hS hE
  obtain ⟨-, rfl⟩ := Prod.mk.inj (Option.some.inj (h.1.symm.trans hS))
  obtain ⟨-, rfl⟩ := Prod.mk.inj (Option.some.inj (h.2.symm.trans hE))
  decide +kernel

theorem foulRun_delivers : ∀ x ∈ foulRun.1, ∀ frame ∈ x.event.frame, plainJson.tagOf frame = none ∨
    plainJson.tagOf frame ∈ x.before.sent.map plainJson.tagOf := by decide +kernel

theorem fairRun_delivers : ∀ x ∈ fairRun.1, ∀ frame ∈ x.event.frame, plainJson.tagOf frame = none ∨
    plainJson.tagOf frame ∈ x.before.sent.map plainJson.tagOf := by decide +kernel

/-- **Two sides that get through can record a stranger**: the tags are repeated, and the identities
replaced. -/
theorem pairing_can_be_joined :
    IdealSpake plainCrypto phoneSide laptopSide ∧ Runs pairSession pairStart foulRun.1 foulRun.2 ∧
      (∀ x ∈ foulRun.1,
        CanDeliver plainCrypto plainJson phoneSide laptopSide x.before x.event) ∧
      CollisionFree plainCrypto foulRun.2 ∧
      ¬ Agreement deviceIds plainCrypto plainJson phoneSide laptopSide foulRun.1 foulRun.2 := by
  refine ⟨plain_ideal, get_runs _, fun x hx => canDeliver_of_sent (foulRun_delivers x hx),
    collisionFree_pairKey foulRun_heard, fun h => ?_⟩
  have hthrough : Through plainCrypto phoneSide laptopSide foulRun.2 pairKey pairKey
      (.ofBundle strangerBundle phoneSide.now_rfc3339)
      (.ofBundle strangerBundle laptopSide.now_rfc3339) :=
    ⟨by decide +kernel, by decide +kernel⟩
  obtain ⟨-, -, hS, -⟩ := h.agree _ _ _ _ hthrough
  exact absurd hS (by decide +kernel)

theorem pairing_agreement_iff_fair :
    Agreement deviceIds plainCrypto plainJson phoneSide laptopSide fairRun.1 fairRun.2 ↔
      ∀ kS kE pS pE, Through plainCrypto phoneSide laptopSide fairRun.2 kS kE pS pE →
        ∀ x ∈ fairRun.1, Genuine deviceIds plainCrypto plainJson phoneSide laptopSide x :=
  pairing_agreement_iff plain_ideal
    (show Runs pairSession pairStart fairRun.1 fairRun.2 from get_runs _)
    (fun x hx => canDeliver_of_sent (fairRun_delivers x hx)) (collisionFree_pairKey fairRun_heard)

end Pairing

end Bypass
