import Bypass.Foundations.Text

/-!
# The sync wire format

The messages of the sync protocol (`wire.rs`): one request, and its two answers. A frame is a
message as `serde_json` writes it; what is needed of that library is that it reads back what it
wrote.
-/

namespace Bypass

/-- `WIRE_MAGIC`. -/
def wireMagic : Bytes := utf8Encode "BYPS-SYN".toList

/-- `WireBody`. -/
inductive WireBody where
  | wantPackFrom (localHead peerHeadSeen : Option Str)
  | pack (peerHead : Option Str) (bytes : Bytes)
  | err (reason : Str)
  deriving DecidableEq

/-- `WireMsg`. -/
structure WireMsg where
  magic : Bytes
  body : WireBody
  deriving DecidableEq

/-- `WireError`. -/
inductive WireError where
  | decode (e : Str)
  | badMagic
  deriving DecidableEq

/-- `serde_json`, with frames of a type `F`. -/
structure Json (F : Type) where
  toVec : WireMsg → F
  fromSlice : F → Except Str WireMsg
  fromSlice_toVec : ∀ msg, fromSlice (toVec msg) = .ok msg

variable {F : Type} (json : Json F)

/-- `encode`. -/
def Json.encode (msg : WireMsg) : F := json.toVec msg

/-- `decode`: a frame of another protocol is refused. -/
def Json.decode (frame : F) : Except WireError WireMsg :=
  match json.fromSlice frame with
  | .error e => .error (.decode e)
  | .ok msg => if msg.magic ≠ wireMagic then .error .badMagic else .ok msg

/-- `want_pack_from`. -/
def wantPackFrom (localHead peerHeadSeen : Option Str) : WireMsg :=
  ⟨wireMagic, .wantPackFrom localHead peerHeadSeen⟩

/-- `pack`. -/
def packMsg (peerHead : Option Str) (bytes : Bytes) : WireMsg := ⟨wireMagic, .pack peerHead bytes⟩

/-- `err`. -/
def errMsg (reason : Str) : WireMsg := ⟨wireMagic, .err reason⟩

/-- **A frame of this protocol reads back.** -/
theorem Json.decode_encode (body : WireBody) :
    json.decode (json.encode ⟨wireMagic, body⟩) = .ok ⟨wireMagic, body⟩ := by
  rw [Json.decode, Json.encode, json.fromSlice_toVec]
  exact if_neg fun h => h rfl

/-- Frames that are the messages themselves. -/
def plainJson : Json WireMsg := ⟨id, .ok, fun _ => rfl⟩

end Bypass
