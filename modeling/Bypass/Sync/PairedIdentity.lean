import Bypass.Sync.Pairing

/-!
# Whom a pairing pins

The transport says who sent a message, and both sides of a pairing drop it: what they record is what
the other side says of itself.

* `runShowSide_ok`, `runEnterSide_ok`: when a side returns a peer, and which.
* `pairing_pins_iff`: when this is the peer that it talked to.
-/

namespace Bypass

namespace Pairing

variable {F : Type} {ids : PeerIdText} {crypto : Crypto} {json : Json F} {me : Local}
  {inbox : List (Except Str (PeerId × F))} {responses : List (Except Str F)}
  {bundle : IdentityBundle} {paired : PairedPeer}

/-! ## A side that has returned -/

theorem showFold_returned (m k : Bytes) (result : Except PairingError PairedPeer) :
    inbox.foldl (fun state inbound => (showStep ids crypto json me state inbound).1)
      (.returned m k result) = .returned m k result := by
  induction inbox with
  | nil => rfl
  | cons _ _ ih => exact ih

theorem showFold_failed (e : PairingError) :
    inbox.foldl (fun state inbound => (showStep ids crypto json me state inbound).1)
      (.failed e) = .failed e := by
  induction inbox with
  | nil => rfl
  | cons _ _ ih => exact ih

theorem enterFold_returned (m k : Bytes) (result : Except PairingError PairedPeer) :
    responses.foldl (fun state response => (enterStep ids crypto json me state response).1)
      (.returned m k result) = .returned m k result := by
  induction responses with
  | nil => rfl
  | cons _ _ ih => exact ih

theorem enterFold_failed (e : PairingError) :
    responses.foldl (fun state response => (enterStep ids crypto json me state response).1)
      (.failed e) = .failed e := by
  induction responses with
  | nil => rfl
  | cons _ _ ih => exact ih

/-- The requests that get the showing side through: a SPAKE2 message, and an identity with the tag
of the key. -/
def ShowHears (crypto : Crypto) (json : Json F) (me : Local) (inbox : List (Except Str (PeerId × F)))
    (p₁ p₂ : PeerId) (bundle : IdentityBundle) : Prop :=
  validatePin me.pin = .ok () ∧ ∃ f₁ f₂ rest m k,
    inbox = .ok (p₁, f₁) :: .ok (p₂, f₂) :: rest ∧ Carries json f₁ (.spake m) ∧
      crypto.finish (crypto.start me).1 m = .ok k ∧
      Carries json f₂ (.identity (crypto.confirmationTag k enterConfirms) bundle)

/-- The responses that get the entering side through. -/
def EnterHears (crypto : Crypto) (json : Json F) (me : Local) (responses : List (Except Str F))
    (bundle : IdentityBundle) : Prop :=
  validatePin me.pin = .ok () ∧ ∃ f₁ f₂ rest m k,
    responses = .ok f₁ :: .ok f₂ :: rest ∧
      Carries json f₁ (.spakeAck m (crypto.confirmationTag k showConfirms)) ∧
      crypto.finish (crypto.start me).1 m = .ok k ∧ Carries json f₂ (.identityAck bundle)

/-- **When the showing side returns a peer**: what the second request says of its sender. -/
theorem runShowSide_ok :
    (∃ m k, runShowSide ids crypto json me inbox = .returned m k (.ok paired)) ↔
      ∃ p₁ p₂ bundle, ShowHears crypto json me inbox p₁ p₂ bundle ∧
        paired = .ofBundle bundle me.now_rfc3339 := by
  unfold runShowSide showStart ShowHears
  constructor
  · rintro ⟨m, k, h⟩
    cases hpin : validatePin me.pin with
    | error e =>
      rw [hpin, showFold_failed] at h
      cases h
    | ok _ =>
      rw [hpin] at h
      rcases inbox with _ | ⟨e | ⟨p₁, f₁⟩, inbox⟩
      · cases h
      · rw [List.foldl_cons, showStep, showFold_failed] at h
        cases h
      rw [List.foldl_cons, showStep] at h
      rcases hfirst : showFirst crypto json me f₁ with e | ⟨m₁, k₁, reply₁⟩
      · rw [hfirst, showFold_failed] at h
        cases h
      rw [hfirst] at h
      obtain ⟨hspake, hfinish, -⟩ := showFirst_eq_ok.1 hfirst
      rcases inbox with _ | ⟨e | ⟨p₂, f₂⟩, inbox⟩
      · cases h
      · rw [List.foldl_cons, showStep, showFold_returned] at h
        cases h
      rw [List.foldl_cons, showStep] at h
      rcases hsecond : showSecond ids crypto json me k₁ f₂ with e | ⟨paired', reply₂⟩
      · rw [hsecond, showFold_returned] at h
        cases h
      rw [hsecond, showFold_returned] at h
      cases h
      obtain ⟨bundle, hidentity, rfl, -⟩ := showSecond_eq_ok.1 hsecond
      exact ⟨p₁, p₂, bundle, ⟨rfl, f₁, f₂, inbox, m, k, rfl, hspake, hfinish, hidentity⟩, rfl⟩
  · rintro ⟨p₁, p₂, bundle, ⟨hpin, f₁, f₂, rest, m, k, rfl, hspake, hfinish, hidentity⟩, rfl⟩
    have hfirst := showFirst_eq_ok.2 ⟨hspake, hfinish, rfl⟩
    have hsecond : showSecond ids crypto json me k f₂ = .ok (.ofBundle bundle me.now_rfc3339, _) :=
      showSecond_eq_ok.2 ⟨bundle, hidentity, rfl, rfl⟩
    refine ⟨m, k, ?_⟩
    rw [hpin, List.foldl_cons, showStep, hfirst, List.foldl_cons, showStep, hsecond,
      showFold_returned]

/-- **When the entering side returns a peer**: what the second response says of its sender. -/
theorem runEnterSide_ok :
    (∃ m k, runEnterSide ids crypto json me responses = .returned m k (.ok paired)) ↔
      ∃ bundle, EnterHears crypto json me responses bundle ∧
        paired = .ofBundle bundle me.now_rfc3339 := by
  unfold runEnterSide enterStart EnterHears
  constructor
  · rintro ⟨m, k, h⟩
    cases hpin : validatePin me.pin with
    | error e =>
      rw [hpin, enterFold_failed] at h
      cases h
    | ok _ =>
      rw [hpin] at h
      rcases responses with _ | ⟨e | f₁, responses⟩
      · cases h
      · rw [List.foldl_cons, enterStep, enterFold_failed] at h
        cases h
      rw [List.foldl_cons, enterStep] at h
      rcases hfirst : enterFirst ids crypto json me f₁ with e | ⟨m₁, k₁, request⟩
      · rw [hfirst, enterFold_failed] at h
        cases h
      rw [hfirst] at h
      obtain ⟨hack, hfinish, -⟩ := enterFirst_eq_ok.1 hfirst
      rcases responses with _ | ⟨e | f₂, responses⟩
      · cases h
      · rw [List.foldl_cons, enterStep, enterFold_returned] at h
        cases h
      rw [List.foldl_cons, enterStep, enterFold_returned] at h
      obtain ⟨rfl, rfl, hsecond⟩ := EnterState.returned.inj h
      obtain ⟨bundle, hidentity, rfl⟩ := enterSecond_eq_ok.1 hsecond
      exact ⟨bundle, ⟨rfl, f₁, f₂, responses, _, _, rfl, hack, hfinish, hidentity⟩, rfl⟩
  · rintro ⟨bundle, ⟨hpin, f₁, f₂, rest, m, k, rfl, hack, hfinish, hidentity⟩, rfl⟩
    have hfirst : enterFirst ids crypto json me f₁ = .ok (m, k, _) :=
      enterFirst_eq_ok.2 ⟨hack, hfinish, rfl⟩
    have hsecond : enterSecond json me f₂ = .ok (.ofBundle bundle me.now_rfc3339) :=
      enterSecond_eq_ok.2 ⟨bundle, hidentity, rfl⟩
    refine ⟨m, k, ?_⟩
    rw [hpin, List.foldl_cons, enterStep, hfirst, List.foldl_cons, enterStep, enterFold_returned,
      hsecond]

/-! ## Whom it pins -/

/-- The peer id derives from the key, in its written form. -/
def DerivesId (crypto : Crypto) (key_hex : Str) (peer : PeerId) : Prop :=
  ∃ key, hexEncode key = key_hex ∧ crypto.keyPeerId key = some peer

/-- If the showing side returns a peer, both messages came from one sender, and the record has the
id of this sender and a key of it. -/
def ShowPinsSender (ids : PeerIdText) (crypto : Crypto) (json : Json F) (me : Local)
    (inbox : List (Except Str (PeerId × F))) : Prop :=
  ∀ m k paired, runShowSide ids crypto json me inbox = .returned m k (.ok paired) →
    ∃ p f₁ f₂ rest, inbox = .ok (p, f₁) :: .ok (p, f₂) :: rest ∧
      paired.record.peer_id = ids.toBase58 p ∧ DerivesId crypto paired.record.noise_static_key p

/-- If the entering side returns a peer, the record has the id of the peer that it dialled. -/
def EnterPinsDialled (ids : PeerIdText) (crypto : Crypto) (json : Json F) (me : Local)
    (peer : PeerId) (responses : List (Except Str F)) : Prop :=
  ∀ m k paired, runEnterSide ids crypto json me responses = .returned m k (.ok paired) →
    paired.record.peer_id = ids.toBase58 peer

/-- **When a pairing pins the device that was talked to.** The showing side: if the messages that
get it through come from one sender, and the second one has the id and the key of this sender. The
entering side: if the last response has the id of the peer that was dialled. -/
theorem pairing_pins_iff {F : Type} (ids : PeerIdText) (crypto : Crypto) (json : Json F)
    (me : Local) (inbox : List (Except Str (PeerId × F))) (peer : PeerId)
    (responses : List (Except Str F)) :
    (ShowPinsSender ids crypto json me inbox ↔
      ∀ p₁ p₂ bundle, ShowHears crypto json me inbox p₁ p₂ bundle →
        p₁ = p₂ ∧ bundle.peer_id = ids.toBase58 p₁ ∧
          DerivesId crypto bundle.identity_pubkey_hex p₁) ∧
    (EnterPinsDialled ids crypto json me peer responses ↔
      ∀ bundle, EnterHears crypto json me responses bundle →
        bundle.peer_id = ids.toBase58 peer) := by
  refine ⟨⟨fun hpins p₁ p₂ bundle hhears => ?_, fun hcond m k paired hrun => ?_⟩,
    fun hpins bundle hhears => ?_, fun hcond m k paired hrun => ?_⟩
  · obtain ⟨m, k, hrun⟩ := runShowSide_ok.2 ⟨p₁, p₂, bundle, hhears, rfl⟩
    obtain ⟨p, g₁, g₂, rest', hinbox, hid, hkey⟩ := hpins m k _ hrun
    obtain ⟨-, f₁, f₂, rest, m', k', rfl, -⟩ := hhears
    obtain ⟨h₁, hinbox⟩ := List.cons.inj hinbox
    obtain ⟨h₂, -⟩ := List.cons.inj hinbox
    obtain ⟨rfl, -⟩ := Prod.mk.inj (Except.ok.inj h₁)
    obtain ⟨rfl, -⟩ := Prod.mk.inj (Except.ok.inj h₂)
    exact ⟨rfl, hid, hkey⟩
  · obtain ⟨p₁, p₂, bundle, hhears, rfl⟩ := runShowSide_ok.1 ⟨m, k, hrun⟩
    obtain ⟨rfl, hid, hkey⟩ := hcond p₁ p₂ bundle hhears
    obtain ⟨-, f₁, f₂, rest, -, -, hinbox, -⟩ := hhears
    exact ⟨p₁, f₁, f₂, rest, hinbox, hid, hkey⟩
  · obtain ⟨m, k, hrun⟩ := runEnterSide_ok.2 ⟨bundle, hhears, rfl⟩
    exact hpins m k _ hrun
  · obtain ⟨bundle, hhears, rfl⟩ := runEnterSide_ok.1 ⟨m, k, hrun⟩
    exact hcond bundle hhears

/-! ## A device that speaks for another -/

/-- A bundle with the id of one device and the key of another. -/
def otherBundle : IdentityBundle := ⟨"laptop".toList, laptopText, hexEncode (phone.drop 2)⟩

/-- The laptop starts the pairing, and the phone's second request comes from elsewhere. -/
def otherInbox : List (Except Str (PeerId × WireMsg)) :=
  [.ok (laptop, ⟨wireMagic, .spake [2]⟩),
    .ok (phone, ⟨wireMagic,
      .identity (plainCrypto.confirmationTag pairKey enterConfirms) otherBundle⟩)]

/-- The phone was dialled, and the last response has the id of the laptop. -/
def otherResponses : List (Except Str WireMsg) :=
  [.ok ⟨wireMagic, .spakeAck [1] (plainCrypto.confirmationTag pairKey showConfirms)⟩,
    .ok ⟨wireMagic, .identityAck otherBundle⟩]

/-- **A pairing can pin another device**: the two requests have different senders, and the record
neither the id of the second one nor a key from which its id derives; and the entering side records
an id that it did not dial. -/
theorem pairing_can_pin_other :
    ¬ ShowPinsSender deviceIds plainCrypto plainJson phoneSide otherInbox ∧
      ¬ EnterPinsDialled deviceIds plainCrypto plainJson laptopSide phone otherResponses := by
  constructor
  · intro hpins
    obtain ⟨p, f₁, f₂, rest, hinbox, -⟩ := hpins [2] pairKey
      (.ofBundle otherBundle phoneSide.now_rfc3339) (by decide +kernel)
    obtain ⟨h₁, hinbox⟩ := List.cons.inj hinbox
    obtain ⟨h₂, -⟩ := List.cons.inj hinbox
    obtain ⟨hlaptop, -⟩ := Prod.mk.inj (Except.ok.inj h₁)
    obtain ⟨hphone, -⟩ := Prod.mk.inj (Except.ok.inj h₂)
    exact absurd (hlaptop.trans hphone.symm) (by decide)
  · intro hpins
    have hid := hpins [1] pairKey (.ofBundle otherBundle laptopSide.now_rfc3339) (by decide +kernel)
    exact absurd hid (by decide +kernel)

end Pairing

end Bypass
