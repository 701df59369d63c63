import Bypass.Cli.Framing
import Bypass.Core.Bundle
import Bypass.Core.Entry
import Bypass.Core.Store

/-!
# The messaging host

The browser's extension talks to `bypass messaging-host` (`messaging_host.rs`): it sends requests,
each with an id, and the host answers them one after the other. A reply that is too long for the
browser is replaced by an error, which does not have the id of the request.

`serde_json` is a parameter (`SerdeJson`). So are the texts of errors and the lower case of a
string; the time and the random numbers are brought by a `Moment`, one for each request.

* `dispatch_replies`: every branch of `dispatch` keeps the id.
* `hostReply_run`: what the host writes for a request.
* `hostLoop_framed`: the loop, on a stream of requests, writes these replies in order.
-/

namespace Bypass

/-! ## Messages -/

/-- `RequestBody`. -/
inductive RequestBody where
  | ls (subpath : Option Str)
  | find (pattern : Str)
  | «show» (path : Str) (field : Option Str)
  | insert (path plaintext : Str) (overwrite : Bool)
  | generate (path : Str) (length : Option ℕ) (symbols : Option Bool) (inPlace force : Bool)
  | otp (path : Str)
  | rm (path : Str) (recursive : Bool)
  deriving DecidableEq

/-- `Request`. -/
structure Request where
  id : ℕ
  body : RequestBody
  deriving DecidableEq

/-- `OkBody`. -/
inductive OkBody where
  | entries (entries : List Str)
  | plaintext (plaintext : Str)
  | field (value : Str)
  | password (password : Str)
  | code (code : Str)
  | empty
  deriving DecidableEq

/-- `Reply`. -/
inductive Reply where
  | ok (id : ℕ) (body : OkBody)
  | err (id : ℕ) (error : Str)
  deriving DecidableEq

def Reply.id : Reply → ℕ
  | ok id _ => id
  | err id _ => id

/-- `serde_json`, for requests and replies; why a request is malformed is not looked at. -/
structure SerdeJson (JE : Type) where
  fromSlice : Bytes → Option Request
  toVec : Reply → Except JE Bytes

/-- Every reply can be encoded. -/
def SerdeJson.Encodes {JE : Type} (json : SerdeJson JE) : Prop :=
  ∀ reply, ∃ bytes, json.toVec reply = .ok bytes

/-- What the host takes from elsewhere. -/
structure HostPlatform (CE SE VE : Type) where
  debug : Str → Str
  lower : Str → Str
  cryptoText : CE → Str
  storageText : SE → Str
  vcsText : VE → Str

/-- What a request meets: the codes of the present time, and what is drawn at random. -/
structure Moment where
  code : Str → Except OtpError Str
  draw : ℕ → ℕ

/-- The errors of the host. -/
inductive HostError (JE IE : Type) where
  | readRequestFrame (e : FrameError IE)
  | encodeReply (e : JE)
  | unserialisable (e : JE)
  | writeReplyFrame (e : FrameError IE)
  deriving DecidableEq

/-! ## Requests -/

section Dispatch

variable {W CE SE VE : Type} (platform : HostPlatform CE SE VE)

/-- `store_err_to_user`: the error as it displays itself. -/
def storeErrToUser : StoreError CE SE VE → Str
  | .notFound entry => "entry not found: ".toList ++ entry
  | .alreadyExists entry => "entry already exists: ".toList ++ entry
  | .notInitialized =>
    "password store has no .gpg-id; run `bypass init <gpg-id>` first".toList
  | .gpgIdMalformed reason => "malformed .gpg-id: ".toList ++ reason
  | .crypto e => "crypto: ".toList ++ platform.cryptoText e
  | .storage e => "storage: ".toList ++ platform.storageText e
  | .vcs e => "version control: ".toList ++ platform.vcsText e

/-- `parse_path`. -/
def parsePath (s : Str) : Except Str RelPath :=
  (RelPath.new s).mapError fun e =>
    "invalid entry path: invalid store path: ".toList ++ e.message platform.debug

/-- `parse_optional_path`. -/
def parseOptionalPath : Option Str → Except Str (Option RelPath)
  | none => .ok none
  | some s => if s = [] then .ok none else (parsePath platform s).map some

/-- `extract_field`. -/
def extractField (id : ℕ) (plaintext : Bytes) (field : Str) : Reply :=
  match Entry.parse platform.lower plaintext with
  | .error e => .err id ("parse entry body: ".toList ++ e.message)
  | .ok parsed =>
    match parsed.field platform.lower field with
    | some value => .ok id (.field value)
    | none => .err id ("entry has no field ".toList ++ platform.debug field)

/-- A request is always answered. -/
abbrev HostM (W CE SE VE α : Type) := Prog (Event CE SE VE) W Empty α

variable (store : Store W CE SE VE)

/-- `generate_op`. -/
def generateOp (moment : Moment) (id : ℕ) (rel : RelPath) (length : Option ℕ)
    (symbols : Option Bool) (inPlace force : Bool) : HostM W CE SE VE Reply := do
  let password := generate (length.getD defaultLength) (symbols.getD true) moment.draw
  if inPlace then
    match ← (store.show rel).attempt with
    | .error e => pure (.err id (storeErrToUser platform e))
    | .ok existing =>
      match ← (store.insert rel (replaceFirstLine existing password) true).attempt with
      | .ok () => pure (.ok id (.password password))
      | .error e => pure (.err id (storeErrToUser platform e))
  else
    match ← (store.insert rel (utf8Encode password) force).attempt with
    | .ok () => pure (.ok id (.password password))
    | .error e => pure (.err id (storeErrToUser platform e))

/-- `dispatch`. -/
def dispatch (moment : Moment) (req : Request) : HostM W CE SE VE Reply :=
  let id := req.id
  match req.body with
  | .ls subpath =>
    match parseOptionalPath platform subpath with
    | .error e => pure (.err id e)
    | .ok sub => do
      match ← (store.list sub).attempt with
      | .ok entries => pure (.ok id (.entries (entries.map RelPath.str)))
      | .error e => pure (.err id (storeErrToUser platform e))
  | .find pattern => do
    match ← (store.find pattern).attempt with
    | .ok entries => pure (.ok id (.entries (entries.map RelPath.str)))
    | .error e => pure (.err id (storeErrToUser platform e))
  | .show path field =>
    match parsePath platform path with
    | .error e => pure (.err id e)
    | .ok rel => do
      match ← (store.show rel).attempt with
      | .ok plaintext =>
        match field with
        | some name => pure (extractField platform id plaintext name)
        | none =>
          match utf8Decode? plaintext with
          | some s => pure (.ok id (.plaintext s))
          | none => pure (.err id "entry is not valid UTF-8".toList)
      | .error e => pure (.err id (storeErrToUser platform e))
  | .insert path plaintext overwrite =>
    match parsePath platform path with
    | .error e => pure (.err id e)
    | .ok rel => do
      match ← (store.insert rel (utf8Encode plaintext) overwrite).attempt with
      | .ok () => pure (.ok id .empty)
      | .error e => pure (.err id (storeErrToUser platform e))
  | .generate path length symbols inPlace force =>
    match parsePath platform path with
    | .error e => pure (.err id e)
    | .ok rel => generateOp platform store moment id rel length symbols inPlace force
  | .otp path =>
    match parsePath platform path with
    | .error e => pure (.err id e)
    | .ok rel => do
      match ← (store.show rel).attempt with
      | .ok plaintext =>
        match utf8Decode? plaintext with
        | none => pure (.err id "entry is not valid UTF-8".toList)
        | some text =>
          match currentCode moment.code text with
          | .ok code => pure (.ok id (.code code))
          | .error e => pure (.err id ("compute TOTP code: ".toList ++ e.message))
      | .error e => pure (.err id (storeErrToUser platform e))
  | .rm path recursive =>
    match parsePath platform path with
    | .error e => pure (.err id e)
    | .ok rel => do
      let result ←
        if recursive then do
          let removed ← (store.removeRecursive rel).attempt
          pure (removed.map fun _ => ())
        else (store.remove rel).attempt
      match result with
      | .ok () => pure (.ok id .empty)
      | .error e => pure (.err id (storeErrToUser platform e))

/-! ### Ids -/

/-- The program ends with a reply that has this id. -/
def RepliesWith (id : ℕ) (p : HostM W CE SE VE Reply) : Prop :=
  ∀ w, ∃ reply, (p.run w).1 = .ok reply ∧ reply.id = id

variable {platform store} {id : ℕ}

theorem replies_pure {reply : Reply} (h : reply.id = id) :
    RepliesWith id (pure reply : HostM W CE SE VE Reply) :=
  fun _ => ⟨reply, rfl, h⟩

@[simp] theorem replies_ok (body : OkBody) :
    RepliesWith id (pure (.ok id body) : HostM W CE SE VE Reply) := replies_pure rfl

@[simp] theorem replies_err (error : Str) :
    RepliesWith id (pure (.err id error) : HostM W CE SE VE Reply) := replies_pure rfl

/-- Whatever a call of the store returns, the program goes on. -/
theorem replies_attempt {ε α : Type} {p : Prog (Event CE SE VE) W ε α}
    {f : Except ε α → HostM W CE SE VE Reply} (h : ∀ r, RepliesWith id (f r)) :
    RepliesWith id (p.attempt >>= f) := by
  intro w
  rw [Prog.run_bind, Prog.run_attempt]
  exact h _ _

theorem id_extractField (plaintext : Bytes) (field : Str) :
    (extractField platform id plaintext field).id = id := by
  unfold extractField
  cases Entry.parse platform.lower plaintext with
  | error e => rfl
  | ok parsed => cases hfield : parsed.field platform.lower field <;> simp only [hfield] <;> rfl

/-- What a call of the store returned, is answered. -/
theorem replies_call {α : Type} {p : StoreM W CE SE VE α}
    {f : Except (StoreError CE SE VE) α → HostM W CE SE VE Reply}
    (hok : ∀ a, ∃ body, f (.ok a) = pure (.ok id body))
    (herr : ∀ e, ∃ error, f (.error e) = pure (.err id error)) :
    RepliesWith id (p.attempt >>= f) := by
  refine replies_attempt fun r => ?_
  cases r with
  | ok a =>
    obtain ⟨body, hbody⟩ := hok a
    rw [hbody]
    exact replies_ok body
  | error e =>
    obtain ⟨error, herror⟩ := herr e
    rw [herror]
    exact replies_err error

theorem generateOp_replies (moment : Moment) (rel : RelPath) (length : Option ℕ)
    (symbols : Option Bool) (inPlace force : Bool) :
    RepliesWith id (generateOp platform store moment id rel length symbols inPlace force) := by
  unfold generateOp
  cases inPlace with
  | true =>
    refine replies_attempt fun r => ?_
    cases r with
    | error e => exact replies_err _
    | ok existing => exact replies_call (fun _ => ⟨_, rfl⟩) fun _ => ⟨_, rfl⟩
  | false => exact replies_call (fun _ => ⟨_, rfl⟩) fun _ => ⟨_, rfl⟩

/-- **Every branch of `dispatch` keeps the id of the request.** -/
theorem dispatch_replies (moment : Moment) (req : Request) :
    RepliesWith req.id (dispatch platform store moment req) := by
  obtain ⟨id, body⟩ := req
  unfold dispatch
  cases body with
  | ls subpath =>
    cases hsub : parseOptionalPath platform subpath with
    | error e => simp only [hsub, replies_err]
    | ok sub =>
      simp only [hsub]
      exact replies_call (fun _ => ⟨_, rfl⟩) fun _ => ⟨_, rfl⟩
  | find pattern => exact replies_call (fun _ => ⟨_, rfl⟩) fun _ => ⟨_, rfl⟩
  | «show» path field =>
    cases hpath : parsePath platform path with
    | error e => simp only [hpath, replies_err]
    | ok rel =>
      simp only [hpath]
      refine replies_attempt fun r => ?_
      cases r with
      | error e => exact replies_err _
      | ok plaintext =>
        cases field with
        | some name => exact replies_pure (id_extractField plaintext name)
        | none => cases hutf8 : utf8Decode? plaintext <;> simp only [hutf8, replies_ok, replies_err]
  | insert path plaintext overwrite =>
    cases hpath : parsePath platform path with
    | error e => simp only [hpath, replies_err]
    | ok rel =>
      simp only [hpath]
      exact replies_call (fun _ => ⟨_, rfl⟩) fun _ => ⟨_, rfl⟩
  | generate path length symbols inPlace force =>
    cases hpath : parsePath platform path with
    | error e => simp only [hpath, replies_err]
    | ok rel =>
      simp only [hpath]
      exact generateOp_replies moment rel length symbols inPlace force
  | otp path =>
    cases hpath : parsePath platform path with
    | error e => simp only [hpath, replies_err]
    | ok rel =>
      simp only [hpath]
      refine replies_attempt fun r => ?_
      cases r with
      | error e => exact replies_err _
      | ok plaintext =>
        cases hutf8 : utf8Decode? plaintext with
        | none => simp only [hutf8, replies_err]
        | some text =>
          cases hcode : currentCode moment.code text <;>
            simp only [hutf8, hcode, replies_ok, replies_err]
  | rm path recursive =>
    cases hpath : parsePath platform path with
    | error e => simp only [hpath, replies_err]
    | ok rel =>
      simp only [hpath]
      cases recursive with
      | true =>
        simp only [if_true, pure_bind]
        refine replies_attempt fun r => ?_
        cases r with
        | ok entries => exact replies_ok _
        | error e => exact replies_err _
      | false => exact replies_call (fun _ => ⟨_, rfl⟩) fun _ => ⟨_, rfl⟩

end Dispatch

/-! ## The loop -/

section Loop

variable {W CE SE VE JE IE : Type} (platform : HostPlatform CE SE VE) (json : SerdeJson JE)
  (store : Store W CE SE VE)

/-- The text of the error that is sent for a reply that is too long. -/
def oversizeMessage (len : ℕ) : Str :=
  "reply too large (".toList ++ Nat.toDigits 10 len ++ " bytes; max ".toList ++
    Nat.toDigits 10 maxReplyBytes ++ "); use the CLI for this entry".toList

/-- The body of the loop of `run`: the bytes of the reply to a request. -/
def hostReply (moment : Moment) (reqBytes : Bytes) :
    Prog (Event CE SE VE) W (HostError JE IE) Bytes := do
  let reply ← match json.fromSlice reqBytes with
    | some req => (dispatch platform store moment req).mapErr Empty.elim
    | none => pure (.err 0 "malformed request".toList)
  let bytes ← orThrow .encodeReply (json.toVec reply)
  if maxReplyBytes < bytes.length then
    orThrow .unserialisable (json.toVec (.err 0 (oversizeMessage bytes.length)))
  else pure bytes

/-- What a run of the host wrote, its exit code or error, and the world it left. -/
structure HostRun (W JE IE : Type) where
  written : List Bytes
  result : Except (HostError JE IE) ℕ
  world : W

theorem readFrame_size {ds ds' : List (Delivery IE)} {body : Bytes}
    (h : readFrame ds = (.ok (some body), ds')) : deliverySize ds' < deliverySize ds := by
  have hprefix := (readExact_size 4 ds).2
  unfold readFrame at h
  split at h
  · cases h
  · cases h
  · next lenBuf ds₁ hread =>
    have hlt : deliverySize ds₁ < deliverySize ds := by
      have := hprefix lenBuf (by decide) (by rw [hread])
      rwa [hread] at this
    have hbody := (readExact_size (fromLeBytes lenBuf) ds₁).1
    dsimp only at h
    split_ifs at h
    · cases h
    · split at h
      · cases h
      · next buf ds₂ hread₂ =>
        obtain ⟨-, rfl⟩ := Prod.mk.inj h
        rw [hread₂] at hbody
        exact lt_of_le_of_lt hbody hlt

/-- The loop of `run`, when `n` requests have been answered. -/
def hostLoop (moments : ℕ → Moment) (n : ℕ) (ds : List (Delivery IE)) (w : W) : HostRun W JE IE :=
  match _h : readFrame ds with
  | (.error e, _) => ⟨[], .error (.readRequestFrame e), w⟩
  | (.ok none, _) => ⟨[], .ok 0, w⟩
  | (.ok (some reqBytes), ds') =>
    match (hostReply platform json store (moments n) reqBytes).run w with
    | (.error e, w) => ⟨[], .error e, w⟩
    | (.ok bytes, w) =>
      match writeFrame bytes with
      | .error e => ⟨[], .error (.writeReplyFrame e), w⟩
      | .ok frame =>
        let rest := hostLoop moments (n + 1) ds' w
        ⟨frame :: rest.written, rest.result, rest.world⟩
termination_by deliverySize ds
decreasing_by exact readFrame_size _h

/-- The replies to a list of requests, when `n` have been answered before. -/
def serveAll (moments : ℕ → Moment) :
    ℕ → List Bytes → Prog (Event CE SE VE) W (HostError JE IE) (List Bytes)
  | _, [] => pure []
  | n, reqBytes :: rest => do
    let bytes ← hostReply platform json store (moments n) reqBytes
    let replies ← serveAll moments (n + 1) rest
    pure (bytes :: replies)

/-- The reply of `dispatch`. -/
def replyTo (moment : Moment) (req : Request) (w : W) : Reply :=
  match ((dispatch platform store moment req).run w).1 with
  | .ok reply => reply
  | .error e => e.elim

/-- The reply to a request is not too long for the browser. -/
def ReplyFits (moment : Moment) (req : Request) (w : W) : Prop :=
  ∀ bytes, json.toVec (replyTo platform store moment req w) = .ok bytes →
    bytes.length ≤ maxReplyBytes

variable {platform json store}

theorem dispatch_run (moment : Moment) (req : Request) (w : W) :
    (dispatch platform store moment req).run w =
      (.ok (replyTo platform store moment req w),
        ((dispatch platform store moment req).run w).2) := by
  refine Prod.ext ?_ rfl
  unfold replyTo
  cases ((dispatch platform store moment req).run w).1 with
  | ok reply => rfl
  | error e => exact e.elim

theorem id_replyTo (moment : Moment) (req : Request) (w : W) :
    (replyTo platform store moment req w).id = req.id := by
  obtain ⟨reply, hreply, hid⟩ := @dispatch_replies W CE SE VE platform store moment req w
  rw [dispatch_run] at hreply
  rwa [Except.ok.inj hreply]

/-- **What the host writes for a request** whose reply is not too long. -/
theorem hostReply_run {moment : Moment} {reqBytes bytes : Bytes} {req : Request} {w : W}
    (hreq : json.fromSlice reqBytes = some req) (hfits : ReplyFits platform json store moment req w)
    (hbytes : json.toVec (replyTo platform store moment req w) = .ok bytes) :
    (hostReply platform json store moment reqBytes :
        Prog (Event CE SE VE) W (HostError JE IE) Bytes).run w =
      (.ok bytes, ((dispatch platform store moment req).run w).2) := by
  have hlen : ¬ maxReplyBytes < bytes.length := not_lt.2 (hfits bytes hbytes)
  simp only [hostReply, hreq]
  rw [Prog.run_bind, Prog.run_mapErr, dispatch_run]
  simp only [Except.mapError, hbytes, orThrow_ok, pure_bind, if_neg hlen, Prog.run_pure]

/-- What the host writes in place of a reply that is too long. -/
theorem hostReply_oversize {moment : Moment} {reqBytes bytes short : Bytes} {req : Request} {w : W}
    (hreq : json.fromSlice reqBytes = some req)
    (hbytes : json.toVec (replyTo platform store moment req w) = .ok bytes)
    (hlong : maxReplyBytes < bytes.length)
    (hshort : json.toVec (.err 0 (oversizeMessage bytes.length)) = .ok short) :
    (hostReply platform json store moment reqBytes :
        Prog (Event CE SE VE) W (HostError JE IE) Bytes).run w =
      (.ok short, ((dispatch platform store moment req).run w).2) := by
  simp only [hostReply, hreq]
  rw [Prog.run_bind, Prog.run_mapErr, dispatch_run]
  simp only [Except.mapError, hbytes, orThrow_ok, pure_bind, if_pos hlong, hshort, Prog.run_pure]

variable {moments : ℕ → Moment}

/-- One request more. -/
theorem serveAll_concat {bodies replies : List Bytes} {reqBytes bytes : Bytes} {n : ℕ} {w u t : W}
    (hall : (serveAll platform json store moments n bodies :
      Prog (Event CE SE VE) W (HostError JE IE) _).run w = (.ok replies, u))
    (hlast : (hostReply platform json store (moments (n + bodies.length)) reqBytes :
      Prog (Event CE SE VE) W (HostError JE IE) _).run u = (.ok bytes, t)) :
    (serveAll platform json store moments n (bodies ++ [reqBytes]) :
      Prog (Event CE SE VE) W (HostError JE IE) _).run w = (.ok (replies ++ [bytes]), t) := by
  induction bodies generalizing n w replies with
  | nil =>
    obtain ⟨hnil, rfl⟩ := Prod.mk.inj hall
    obtain rfl := Except.ok.inj hnil
    have hone : (hostReply platform json store (moments n) reqBytes :
      Prog (Event CE SE VE) W (HostError JE IE) _).run w = (.ok bytes, t) := hlast
    simp only [List.nil_append, serveAll, Prog.run_bind, hone, Prog.run_pure]
  | cons body bodies ih =>
    rw [serveAll] at hall
    obtain ⟨first, v, hfirst, hall⟩ := Prog.run_bind_ok hall
    obtain ⟨others, v', hothers, hall⟩ := Prog.run_bind_ok hall
    obtain ⟨hreplies, rfl⟩ := Prod.mk.inj hall
    obtain rfl := Except.ok.inj hreplies
    have hshift : n + 1 + bodies.length = n + (body :: bodies).length := by
      rw [List.length_cons]
      omega
    have hrest := ih hothers (by rwa [hshift])
    simp only [List.cons_append, serveAll, Prog.run_bind, hfirst, hrest, Prog.run_pure]

/-- **The loop answers the requests of a stream**, in order, until its end. -/
theorem hostLoop_framed {bodies replies : List Bytes} {n : ℕ} {w t : W}
    (hbodies : ∀ b ∈ bodies, b.length ≤ maxReplyBytes)
    (hreplies : ∀ b ∈ replies, b.length ≤ maxReplyBytes)
    (hall : (serveAll platform json store moments n bodies :
      Prog (Event CE SE VE) W (HostError JE IE) _).run w = (.ok replies, t))
    {ds : List (Delivery IE)} (h : Delivers ds (framed bodies)) :
    hostLoop platform json store moments n ds w =
      ⟨replies.map fun b => toLeBytes b.length ++ b, .ok 0, t⟩ := by
  induction bodies generalizing n w replies ds with
  | nil =>
    obtain ⟨hnil, rfl⟩ := Prod.mk.inj hall
    obtain rfl := Except.ok.inj hnil
    have heof := readFrame_eof h (by decide)
    rw [hostLoop]
    split
    · next e ds' hread =>
      rw [hread] at heof
      cases heof
    · rfl
    · next reqBytes ds' hread =>
      rw [hread] at heof
      cases heof
  | cons body bodies ih =>
    obtain ⟨hbody, hbodies⟩ := List.forall_mem_cons.1 hbodies
    rw [serveAll] at hall
    obtain ⟨first, v, hfirst, hall⟩ := Prog.run_bind_ok hall
    obtain ⟨others, v', hothers, hall⟩ := Prog.run_bind_ok hall
    obtain ⟨hcons, rfl⟩ := Prod.mk.inj hall
    obtain rfl := Except.ok.inj hcons
    obtain ⟨hlen, hothersLen⟩ := List.forall_mem_cons.1 hreplies
    rw [framed, List.flatMap_cons] at h
    obtain ⟨ds', hread, hrest⟩ := readFrame_frame hbody h
    have hloop := ih hbodies hothersLen hothers hrest
    rw [hostLoop]
    split
    · next e ds₁ hread₁ => cases hread.symm.trans hread₁
    · next ds₁ hread₁ => cases hread.symm.trans hread₁
    · next reqBytes ds₁ hread₁ =>
      obtain ⟨hbytes, rfl⟩ := Prod.mk.inj (hread.symm.trans hread₁)
      obtain rfl := Option.some.inj (Except.ok.inj hbytes)
      simp only [hfirst, writeFrame_ok hlen, hloop, List.map_cons]

end Loop

end Bypass
