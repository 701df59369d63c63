import Bypass.Cli.DiskStore
import Bypass.Extension.NativeClient

/-!
# A session of the messaging host

What the host is for, with nothing of how it does it: a session is a list of requests on the map of
entries and plaintexts, each with one reply (`EntryMap.serve`, `EntryMap.session`). The session of
the host begins with the bytes of a pipe, in whatever pieces they come, and ends in the files of a
storage.

* `dispatch_serves`: **one request** is answered as on the map.
* `host_session_is_map`: **a whole session**, from the pipe to the files.
-/

namespace Bypass

variable {W CE SE VE JE IE : Type}

/-! ## On the map -/

namespace EntryMap

variable (platform : HostPlatform CE SE VE) (m : EntryMap)

/-- The texts of an entry that is missing, and of one that is in the way. -/
def notFoundText (rel : RelPath) : Str := "entry not found: ".toList ++ rel.str

def alreadyExistsText (rel : RelPath) : Str := "entry already exists: ".toList ++ rel.str

/-- A plaintext, or a field of it, as a reply. -/
def showReply (id : ℕ) (field : Option Str) (plaintext : Bytes) : Reply :=
  match field with
  | some name => extractField platform id plaintext name
  | none =>
    match utf8Decode? plaintext with
    | some s => .ok id (.plaintext s)
    | none => .err id "entry is not valid UTF-8".toList

/-- The code of a plaintext, as a reply. -/
def otpReply (moment : Moment) (id : ℕ) (plaintext : Bytes) : Reply :=
  match utf8Decode? plaintext with
  | none => .err id "entry is not valid UTF-8".toList
  | some text =>
    match currentCode moment.code text with
    | .ok code => .ok id (.code code)
    | .error e => .err id ("compute TOTP code: ".toList ++ e.message)

/-- A password is put at an entry: in the place of its first line, or of the whole of it. -/
def generateAt (id : ℕ) (rel : RelPath) (password : Str) (inPlace force : Bool) :
    Reply × EntryMap :=
  if inPlace then
    match m[rel]? with
    | none => (.err id (notFoundText rel), m)
    | some old => (.ok id (.password password), m.insert rel (replaceFirstLine old password))
  else if !force && m.contains rel then (.err id (alreadyExistsText rel), m)
  else (.ok id (.password password), m.insert rel (utf8Encode password))

/-- **A request on the map**: its reply, and the map after it. -/
def serve (moment : Moment) (req : Request) : Reply × EntryMap :=
  let id := req.id
  let onPath (path : Str) (k : RelPath → Reply × EntryMap) : Reply × EntryMap :=
    match parsePath platform path with
    | .error e => (.err id e, m)
    | .ok rel => k rel
  match req.body with
  | .ls subpath =>
    match parseOptionalPath platform subpath with
    | .error e => (.err id e, m)
    | .ok sub => (.ok id (.entries ((m.entriesBelow sub).map RelPath.str)), m)
  | .find pattern =>
    let found := (m.entriesBelow none).filter fun e => decide (pattern <:+: e.str)
    (.ok id (.entries (found.map RelPath.str)), m)
  | .show path field => onPath path fun rel =>
    match m[rel]? with
    | none => (.err id (notFoundText rel), m)
    | some plaintext => (showReply platform id field plaintext, m)
  | .insert path plaintext overwrite => onPath path fun rel =>
    if !overwrite && m.contains rel then (.err id (alreadyExistsText rel), m)
    else (.ok id .empty, m.insert rel (utf8Encode plaintext))
  | .generate path length symbols inPlace force => onPath path fun rel =>
    let password := generate (length.getD defaultLength) (symbols.getD true) moment.draw
    m.generateAt id rel password inPlace force
  | .otp path => onPath path fun rel =>
    match m[rel]? with
    | none => (.err id (notFoundText rel), m)
    | some plaintext => (otpReply moment id plaintext, m)
  | .rm path recursive => onPath path fun rel =>
    if recursive then
      if m.entriesBelow (some rel) = [] then (.err id (notFoundText rel), m)
      else (.ok id .empty, m.eraseAll (m.entriesBelow (some rel)))
    else if m.contains rel then (.ok id .empty, m.erase rel)
    else (.err id (notFoundText rel), m)

/-- The body of a frame, answered on the map. -/
def answer (json : SerdeJson JE) (moment : Moment) (body : Bytes) : Reply × EntryMap :=
  match json.fromSlice body with
  | some req => m.serve platform moment req
  | none => (.err 0 "malformed request".toList, m)

/-- The bodies of a session on the map, when `n` have been answered before. -/
def session (json : SerdeJson JE) (moments : ℕ → Moment) (m : EntryMap) :
    ℕ → List Bytes → List Reply × EntryMap
  | _, [] => ([], m)
  | n, body :: bodies =>
    let first := m.answer platform json (moments n) body
    let rest := session json moments first.2 (n + 1) bodies
    (first.1 :: rest.1, rest.2)

end EntryMap

/-- A request on entries in these directories. -/
def Request.Within (platform : HostPlatform CE SE VE) (dirs : Set RelPath) (req : Request) : Prop :=
  let beside (path : Str) : Prop :=
    ∀ rel, parsePath platform path = .ok rel → ∀ q ∈ rel.parent, q ∈ dirs
  match req.body with
  | .ls subpath => ∀ sub, parseOptionalPath platform subpath = .ok sub → ∀ q ∈ sub, q ∈ dirs
  | .find _ => True
  | .show path _ => beside path
  | .insert path _ _ => beside path
  | .generate path _ _ _ _ => beside path
  | .otp path => beside path
  | .rm path recursive =>
    if recursive then ∀ rel, parsePath platform path = .ok rel → rel ∈ dirs else beside path

/-! ## One request -/

section Dispatch

variable {platform : HostPlatform CE SE VE} {I : W → Prop} {dirs : Set RelPath}
  {store : Store W CE SE VE} {files : W → Files}

/-- What a session keeps: the files hold the map, and have recipients. -/
structure Tracks (I : W → Prop) (store : Store W CE SE VE) (files : W → Files) (w : W)
    (m : EntryMap) : Prop where
  inv : I w
  resolvable : Resolvable SE (files w)
  holds : Holds store (files w) m

/-- **The program answers as the map does**, unless a call of a backend fails. -/
def Serves (I : W → Prop) (store : Store W CE SE VE) (files : W → Files)
    (p : HostM W CE SE VE Reply) (w : W) (answer : Reply × EntryMap) : Prop :=
  p.wp (fun r tr t => ¬ Faulty tr → r = .ok answer.1 ∧ Tracks I store files t answer.2) w

theorem serves_pure {w : W} {m : EntryMap} {reply : Reply} (h : Tracks I store files w m) :
    Serves I store files (pure reply) w (reply, m) :=
  fun _ => ⟨rfl, h⟩

/-- The result of an operation, without its name. -/
theorem program_run {α : Type} {p : StoreM W CE SE VE α} {f : α → Output} {op : Op}
    (hp : store.program op = p >>= fun a => pure (f a)) (w : W) :
    ((store.program op).run w).1 = (p.run w).1.map f ∧
      ((store.program op).run w).2 = (p.run w).2 ∧ (store.program op).trace w = p.trace w := by
  rw [hp, Prog.run_bind, Prog.trace_bind]
  rcases p.run w with ⟨e | a, t⟩
  · exact ⟨rfl, rfl, List.append_nil _⟩
  · exact ⟨rfl, rfl, List.append_nil _⟩

/-- **A call of the store** that is an operation goes on from the map's. -/
theorem serves_attempt [Nonempty SE] (hon : OnMapWhile I (.below dirs) store files) (hrt : RoundTrip store)
    {w : W} {m : EntryMap} (h : Tracks I store files w m) (op : Op) (hop : op.Within (.below dirs))
    {α : Type} {p : StoreM W CE SE VE α} {f : α → Output}
    (hp : store.program op = p >>= fun a => pure (f a))
    {k : Except (StoreError CE SE VE) α → HostM W CE SE VE Reply} {answer : Reply × EntryMap}
    (hk : ∀ r t, r.map f = (m.step op).1.mapError MapError.toStore →
      Tracks I store files t (m.step op).2 → Serves I store files (k r) t answer) :
    Serves I store files (p.attempt >>= k) w answer := by
  obtain ⟨hresult, hworld, htrace⟩ := program_run hp w
  refine Prog.wp_bind.2 ?_
  rw [Prog.wp, Prog.run_attempt, Prog.trace_attempt]
  by_cases hfaulty : Faulty (p.trace w)
  · exact fun hnf => absurd (faulty_append.2 (Or.inl hfaulty)) hnf
  · have hsingle : ¬ Faulty (store.traceOps [op] w) := by
      rw [Store.traceOps_cons, faulty_append, htrace]
      rintro (hleft | ⟨c, hc, -⟩)
      · exact hfaulty hleft
      · cases hc
    have hops : ∀ op' ∈ [op], op'.Within (.below dirs) := List.forall_mem_singleton.2 hop
    obtain ⟨hr, hholds, hmeta, hI⟩ :=
      runOps_refines_while hon (Classical.arbitrary SE) hrt hops h.inv h.resolvable h.holds hsingle
    rw [Store.runOps_cons, Store.runOps_nil, hworld] at hholds hmeta hI
    have hfirst : ((store.program op).run w).1 = (m.step op).1.mapError MapError.toStore :=
      (List.cons.inj hr).1
    refine Prog.wp_mono (hk _ _ (hresult.symm.trans hfirst)
      ⟨hI, h.resolvable.of_sameMetadata hmeta, hholds⟩) fun r tr t hend hnf => hend fun hc => ?_
    exact hnf (faulty_append.2 (Or.inr hc))

variable [Nonempty SE] (hon : OnMapWhile I (.below dirs) store files) (hrt : RoundTrip store)
  (platform)
include hon hrt

/-- An entry is looked up, and its plaintext is put into a reply. -/
theorem serves_show {w : W} {m : EntryMap} (h : Tracks I store files w m) {id : ℕ} {rel : RelPath}
    (hrel : ∀ q ∈ rel.parent, q ∈ dirs)
    {k : Except (StoreError CE SE VE) Bytes → HostM W CE SE VE Reply}
    {answer : Bytes → Reply × EntryMap}
    (herr : ∀ e, k (.error e) = pure (.err id (storeErrToUser platform e)))
    (hok : ∀ p t, m[rel]? = some p → Tracks I store files t m →
      Serves I store files (k (.ok p)) t (answer p)) :
    Serves I store files ((store.show rel).attempt >>= k) w (match m[rel]? with
      | none => (.err id (EntryMap.notFoundText rel), m)
      | some p => answer p) := by
  refine serves_attempt hon hrt h (.show rel) hrel (f := .plaintext) rfl fun r t hr ht => ?_
  simp only [EntryMap.step] at hr ht
  cases hm : m[rel]? with
  | none =>
    rw [hm] at hr ht
    cases r with
    | ok a => cases hr
    | error e =>
      obtain rfl : e = .notFound rel.str := Except.error.inj hr
      rw [herr]
      exact serves_pure ht
  | some p =>
    rw [hm] at hr ht
    cases r with
    | ok a =>
      obtain rfl : a = p := Output.plaintext.inj (Except.ok.inj hr)
      exact hok a t hm ht
    | error e => cases hr

/-- A plaintext is put at an entry. -/
theorem serves_insert {w : W} {m : EntryMap} (h : Tracks I store files w m) {id : ℕ} {rel : RelPath}
    (hrel : ∀ q ∈ rel.parent, q ∈ dirs) (plaintext : Bytes) (overwrite : Bool) (body : OkBody)
    {k : Except (StoreError CE SE VE) Unit → HostM W CE SE VE Reply}
    (herr : ∀ e, k (.error e) = pure (.err id (storeErrToUser platform e)))
    (hok : k (.ok ()) = pure (.ok id body)) :
    Serves I store files ((store.insert rel plaintext overwrite).attempt >>= k) w
      (if !overwrite && m.contains rel then (.err id (EntryMap.alreadyExistsText rel), m)
      else (.ok id body, m.insert rel plaintext)) := by
  refine serves_attempt hon hrt h (.insert rel plaintext overwrite) hrel (f := fun _ => .unit)
    rfl fun r t hr ht => ?_
  simp only [EntryMap.step] at hr ht
  split_ifs with hin
  · rw [if_pos hin] at hr ht
    cases r with
    | ok a => cases hr
    | error e =>
      obtain rfl : e = .alreadyExists rel.str := Except.error.inj hr
      rw [herr]
      exact serves_pure ht
  · rw [if_neg hin] at hr ht
    cases r with
    | ok a =>
      rw [hok]
      exact serves_pure ht
    | error e => cases hr

/-- A password is generated. -/
theorem generateOp_serves {w : W} {m : EntryMap} (h : Tracks I store files w m) (moment : Moment)
    (id : ℕ) {rel : RelPath} (hrel : ∀ q ∈ rel.parent, q ∈ dirs) (length : Option ℕ)
    (symbols : Option Bool) (inPlace force : Bool) :
    Serves I store files (generateOp platform store moment id rel length symbols inPlace force) w
      (m.generateAt id rel
        (generate (length.getD defaultLength) (symbols.getD true) moment.draw) inPlace force) := by
  unfold generateOp EntryMap.generateAt
  cases inPlace with
  | true =>
    rw [if_pos rfl, if_pos rfl]
    refine serves_show platform hon hrt h hrel (fun _ => rfl) fun old t _ ht => ?_
    exact serves_insert platform hon hrt ht hrel _ true _ (fun _ => rfl) rfl
  | false =>
    rw [if_neg Bool.false_ne_true, if_neg Bool.false_ne_true]
    exact serves_insert platform hon hrt h hrel _ force _ (fun _ => rfl) rfl

/-- An entry is removed, or a directory of entries. -/
theorem rm_serves {w : W} {m : EntryMap} (h : Tracks I store files w m) {id : ℕ} {rel : RelPath}
    {recursive : Bool} (hrel : if recursive then rel ∈ dirs else ∀ q ∈ rel.parent, q ∈ dirs)
    {k : Except (StoreError CE SE VE) Unit → HostM W CE SE VE Reply}
    (herr : ∀ e, k (.error e) = pure (.err id (storeErrToUser platform e)))
    (hok : k (.ok ()) = pure (.ok id .empty)) :
    Serves I store files
      (if recursive then do
        let removed ← (store.removeRecursive rel).attempt
        let result ← pure (removed.map fun _ => ())
        k result
      else do
        let result ← (store.remove rel).attempt
        k result) w
      (if recursive then
        if m.entriesBelow (some rel) = [] then (.err id (EntryMap.notFoundText rel), m)
        else (.ok id .empty, m.eraseAll (m.entriesBelow (some rel)))
      else if m.contains rel then (.ok id .empty, m.erase rel)
      else (.err id (EntryMap.notFoundText rel), m)) := by
  cases recursive with
  | true =>
    rw [if_pos rfl] at hrel
    rw [if_pos rfl, if_pos rfl]
    refine serves_attempt hon hrt h (.removeRecursive rel)
      (fun q hq => Option.some.inj hq ▸ hrel) (f := .entries) rfl fun r t hr ht => ?_
    simp only [EntryMap.step] at hr ht
    rw [pure_bind]
    split_ifs with hnil
    · rw [if_pos hnil] at hr ht
      cases r with
      | ok a => cases hr
      | error e =>
        obtain rfl : e = .notFound rel.str := Except.error.inj hr
        exact (herr _).symm ▸ serves_pure ht
    · rw [if_neg hnil] at hr ht
      cases r with
      | ok a => exact hok.symm ▸ serves_pure ht
      | error e => cases hr
  | false =>
    rw [if_neg Bool.false_ne_true] at hrel
    rw [if_neg Bool.false_ne_true, if_neg Bool.false_ne_true]
    refine serves_attempt hon hrt h (.remove rel) hrel (f := fun _ => .unit) rfl
      fun r t hr ht => ?_
    simp only [EntryMap.step] at hr ht
    split_ifs with hin
    · rw [if_pos hin] at hr ht
      cases r with
      | ok a => exact hok.symm ▸ serves_pure ht
      | error e => cases hr
    · rw [if_neg hin] at hr ht
      cases r with
      | ok a => cases hr
      | error e =>
        obtain rfl : e = .notFound rel.str := Except.error.inj hr
        exact (herr _).symm ▸ serves_pure ht

/-- **A request is answered as on the map.** -/
theorem dispatch_serves {w : W} {m : EntryMap} (h : Tracks I store files w m) (moment : Moment)
    {req : Request} (hreq : req.Within platform dirs) :
    Serves I store files (dispatch platform store moment req) w (m.serve platform moment req) := by
  obtain ⟨id, body⟩ := req
  unfold dispatch EntryMap.serve
  cases body with
  | ls subpath =>
    cases hsub : parseOptionalPath platform subpath with
    | error e =>
      simp only [hsub]
      exact serves_pure h
    | ok sub =>
      simp only [hsub]
      refine serves_attempt hon hrt h (.list sub) (hreq sub hsub) (f := .entries) rfl
        fun r t hr ht => ?_
      cases r with
      | ok l =>
        obtain rfl : l = m.entriesBelow sub := Output.entries.inj (Except.ok.inj hr)
        exact serves_pure ht
      | error e => cases hr
  | find pattern =>
    refine serves_attempt hon hrt h (.find pattern)
      (fun q hq => absurd hq (Option.not_mem_none q)) (f := .entries) rfl
      fun r t hr ht => ?_
    cases r with
    | ok l =>
      obtain rfl := Output.entries.inj (Except.ok.inj hr)
      exact serves_pure ht
    | error e => cases hr
  | «show» path field =>
    cases hpath : parsePath platform path with
    | error e =>
      simp only [hpath]
      exact serves_pure h
    | ok rel =>
      simp only [hpath]
      refine serves_show platform hon hrt h (hreq rel hpath) (fun _ => rfl)
        fun p t _ ht => ?_
      cases field with
      | some name => exact serves_pure ht
      | none =>
        dsimp only [EntryMap.showReply]
        cases utf8Decode? p <;> exact serves_pure ht
  | insert path plaintext overwrite =>
    cases hpath : parsePath platform path with
    | error e =>
      simp only [hpath]
      exact serves_pure h
    | ok rel =>
      simp only [hpath]
      exact serves_insert platform hon hrt h (hreq rel hpath) _ overwrite _
        (fun _ => rfl) rfl
  | generate path length symbols inPlace force =>
    cases hpath : parsePath platform path with
    | error e =>
      simp only [hpath]
      exact serves_pure h
    | ok rel =>
      simp only [hpath]
      exact generateOp_serves platform hon hrt h moment id (hreq rel hpath) length symbols inPlace force
  | otp path =>
    cases hpath : parsePath platform path with
    | error e =>
      simp only [hpath]
      exact serves_pure h
    | ok rel =>
      simp only [hpath]
      refine serves_show platform hon hrt h (hreq rel hpath) (fun _ => rfl)
        fun p t _ ht => ?_
      dsimp only [EntryMap.otpReply]
      cases utf8Decode? p with
      | none => exact serves_pure ht
      | some text =>
        dsimp only
        cases currentCode moment.code text <;> exact serves_pure ht
  | rm path recursive =>
    cases hpath : parsePath platform path with
    | error e =>
      simp only [hpath]
      exact serves_pure h
    | ok rel =>
      simp only [hpath]
      refine rm_serves platform hon hrt h ?_ (fun _ => rfl) rfl
      cases recursive with
      | true => exact hreq rel hpath
      | false => exact hreq rel hpath

end Dispatch

/-! ## A session -/

section Session

variable (json : SerdeJson JE)

/-- What is sent for a reply: its encoding, or that of an error when it is too long. -/
def Sends (reply : Reply) (bytes : Bytes) : Prop :=
  ∃ encoded, json.toVec reply = .ok encoded ∧
    (encoded.length ≤ maxReplyBytes ∧ bytes = encoded ∨
      maxReplyBytes < encoded.length ∧
        json.toVec (.err 0 (oversizeMessage encoded.length)) = .ok bytes)

variable {json} {platform : HostPlatform CE SE VE} {I : W → Prop} {dirs : Set RelPath}
  {store : Store W CE SE VE} {files : W → Files} [Nonempty SE]
  (hon : OnMapWhile I (.below dirs) store files) (hrt : RoundTrip store) (hencodes : json.Encodes)
include hon hrt hencodes

omit hon hrt [Nonempty SE] in
/-- What is sent for a reply. -/
theorem send_run {CE SE VE : Type} (reply : Reply) (t : W) : ∃ bytes, (do
      let bytes ← orThrow .encodeReply (json.toVec reply)
      if maxReplyBytes < bytes.length then
        orThrow .unserialisable (json.toVec (.err 0 (oversizeMessage bytes.length)))
      else pure bytes : Prog (Event CE SE VE) W (HostError JE IE) Bytes).wp
        (fun r tr u => r = .ok bytes ∧ tr = [] ∧ u = t) t ∧ Sends json reply bytes := by
  obtain ⟨encoded, hencoded⟩ := hencodes reply
  rw [hencoded]
  by_cases hlong : maxReplyBytes < encoded.length
  · obtain ⟨short, hshort⟩ := hencodes (.err 0 (oversizeMessage encoded.length))
    refine ⟨short, ?_, encoded, hencoded, Or.inr ⟨hlong, hshort⟩⟩
    simp only [orThrow_ok, pure_bind, if_pos hlong, hshort]
    exact ⟨rfl, rfl, rfl⟩
  · refine ⟨encoded, ?_, encoded, hencoded, Or.inl ⟨not_lt.1 hlong, rfl⟩⟩
    simp only [orThrow_ok, pure_bind, if_neg hlong]
    exact ⟨rfl, rfl, rfl⟩

omit hon hrt hencodes [Nonempty SE] in
/-- What is sent is not too long: it was measured, or it is the error that says so. -/
theorem sends_fit (hshort : ∀ len < 2 ^ 64, ∀ bytes,
      json.toVec (.err 0 (oversizeMessage len)) = .ok bytes → bytes.length ≤ maxReplyBytes)
    {replies : List Reply} {sent : List Bytes} (h : List.Forall₂ (Sends json) replies sent)
    (hsize : ∀ reply ∈ replies, ∀ encoded, json.toVec reply = .ok encoded →
      encoded.length < 2 ^ 64) : ∀ b ∈ sent, b.length ≤ maxReplyBytes := by
  induction h with
  | nil => exact List.forall_mem_nil _
  | cons hfirst _ ih =>
    obtain ⟨hreply, hsize⟩ := List.forall_mem_cons.1 hsize
    refine List.forall_mem_cons.2 ⟨?_, ih hsize⟩
    obtain ⟨encoded, hencoded, ⟨hlen, rfl⟩ | ⟨-, herror⟩⟩ := hfirst
    · exact hlen
    · exact hshort _ (hreply _ hencoded) _ herror

/-- One turn of the loop. -/
theorem hostReply_serves {w : W} {m : EntryMap} (h : Tracks I store files w m) (moment : Moment)
    {body : Bytes} (hbody : ∀ req, json.fromSlice body = some req → req.Within platform dirs) :
    (hostReply platform json store moment body : Prog (Event CE SE VE) W (HostError JE IE) Bytes).wp
      (fun r tr t => ¬ Faulty tr → ∃ bytes, r = .ok bytes ∧
        Sends json (m.answer platform json moment body).1 bytes ∧
        Tracks I store files t (m.answer platform json moment body).2) w := by
  have hend {p : Prog (Event CE SE VE) W (HostError JE IE) Reply}
      (hp : p.wp (fun r tr t => ¬ Faulty tr → r = .ok (m.answer platform json moment body).1 ∧
        Tracks I store files t (m.answer platform json moment body).2) w) :
      (p >>= fun reply => do
        let bytes ← orThrow .encodeReply (json.toVec reply)
        if maxReplyBytes < bytes.length then
          orThrow .unserialisable (json.toVec (.err 0 (oversizeMessage bytes.length)))
        else pure bytes).wp
        (fun r tr t => ¬ Faulty tr → ∃ bytes, r = .ok bytes ∧
          Sends json (m.answer platform json moment body).1 bytes ∧
          Tracks I store files t (m.answer platform json moment body).2) w := by
    refine Prog.wp_bind.2 (Prog.wp_mono hp fun r tr t hr => ?_)
    cases r with
    | error e =>
      intro hnf
      cases (hr hnf).1
    | ok reply =>
      obtain ⟨bytes, hrun, hsends⟩ := send_run hencodes reply t
      refine Prog.wp_mono hrun fun r' tr' t' ⟨hr', htr', ht'⟩ hnf => ?_
      rw [htr', List.append_nil] at hnf
      obtain ⟨hreply, htracks⟩ := hr hnf
      rw [← Except.ok.inj hreply, ht']
      exact ⟨bytes, hr', hsends, htracks⟩
  cases hparse : json.fromSlice body with
  | some req =>
    have hanswer : m.answer platform json moment body = m.serve platform moment req := by
      rw [EntryMap.answer, hparse]
    simp only [hostReply, hparse]
    refine hend (Prog.wp_mapErr.2 ?_)
    rw [hanswer]
    refine Prog.wp_mono (dispatch_serves platform hon hrt h moment (hbody req hparse)) ?_
    intro r tr t hr hnf
    obtain ⟨rfl, htracks⟩ := hr hnf
    exact ⟨rfl, htracks⟩
  | none =>
    have hanswer : m.answer platform json moment body =
        (.err 0 "malformed request".toList, m) := by
      rw [EntryMap.answer, hparse]
    simp only [hostReply, hparse]
    refine hend ?_
    rw [hanswer]
    exact fun _ => ⟨rfl, h⟩

/-- The whole session. -/
theorem serveAll_serves {w : W} {m : EntryMap} (h : Tracks I store files w m)
    (moments : ℕ → Moment) (n : ℕ) {bodies : List Bytes} (hbodies : ∀ body ∈ bodies, ∀ req,
      json.fromSlice body = some req → req.Within platform dirs) :
    (serveAll platform json store moments n bodies :
      Prog (Event CE SE VE) W (HostError JE IE) (List Bytes)).wp
      (fun r tr t => ¬ Faulty tr → ∃ sent, r = .ok sent ∧
        List.Forall₂ (Sends json) (m.session platform json moments n bodies).1 sent ∧
        Tracks I store files t (m.session platform json moments n bodies).2) w := by
  induction bodies generalizing w m n with
  | nil => exact fun _ => ⟨[], rfl, .nil, h⟩
  | cons body bodies ih =>
    obtain ⟨hbody, hbodies⟩ := List.forall_mem_cons.1 hbodies
    refine Prog.wp_bind.2 (Prog.wp_mono
      (hostReply_serves hon hrt hencodes h (moments n) hbody) fun r tr t hr => ?_)
    cases r with
    | error e =>
      intro hnf
      obtain ⟨bytes, hbytes, -⟩ := hr hnf
      cases hbytes
    | ok bytes =>
      show Prog.wp _ _ _
      by_cases hfaulty : Faulty tr
      · exact fun hnf => absurd (faulty_append.2 (Or.inl hfaulty)) hnf
      obtain ⟨bytes', hbytes, hsends, htracks⟩ := hr hfaulty
      obtain rfl := Except.ok.inj hbytes
      refine Prog.wp_bind.2 (Prog.wp_mono (ih htracks (n + 1) hbodies) fun r' tr' t' hr' => ?_)
      cases r' with
      | error e =>
        intro hnf
        obtain ⟨sent, hsent, -⟩ := hr' fun hc => hnf (faulty_append.2 (Or.inr hc))
        cases hsent
      | ok sent =>
        intro hnf
        rw [Prog.trace_pure, List.append_nil] at hnf
        obtain ⟨sent', hsent, hall, hend'⟩ := hr' fun hc => hnf (faulty_append.2 (Or.inr hc))
        obtain rfl := Except.ok.inj hsent
        exact ⟨bytes :: sent, rfl, .cons hsends hall, hend'⟩

/-- **A session of the host is a session on the map.** Frames come in, in whatever pieces, and the
loop runs until the pipe is closed, over any storage that is a map while an invariant holds. When no
call of a backend fails, it writes one frame for each frame that came, with the reply that the map
gives, or the error for a reply that is too long; it ends without error; and the files then hold the
map. Lengths are those of a machine with 64 bits. -/
theorem host_session_is_map (moments : ℕ → Moment)
    (hshort : ∀ len < 2 ^ 64, ∀ bytes,
      json.toVec (.err 0 (oversizeMessage len)) = .ok bytes → bytes.length ≤ maxReplyBytes)
    {w : W} {m : EntryMap} (h : Tracks I store files w m) {bodies : List Bytes}
    (hlen : ∀ body ∈ bodies, body.length ≤ maxReplyBytes)
    (hbodies : ∀ body ∈ bodies, ∀ req, json.fromSlice body = some req → req.Within platform dirs)
    (hsize : ∀ reply ∈ (m.session platform json moments 0 bodies).1, ∀ encoded,
      json.toVec reply = .ok encoded → encoded.length < 2 ^ 64)
    (hnf : ¬ Faulty ((serveAll platform json store moments 0 bodies :
      Prog (Event CE SE VE) W (HostError JE IE) (List Bytes)).trace w))
    {ds : List (Delivery IE)} (hds : Delivers ds (framed bodies)) :
    ∃ sent t, List.Forall₂ (Sends json) (m.session platform json moments 0 bodies).1 sent ∧
      hostLoop platform json store moments 0 ds w =
        ⟨sent.map fun b => toLeBytes b.length ++ b, .ok 0, t⟩ ∧
      Tracks I store files t (m.session platform json moments 0 bodies).2 := by
  have hserves : (serveAll platform json store moments 0 bodies :
      Prog (Event CE SE VE) W (HostError JE IE) (List Bytes)).wp _ w :=
    serveAll_serves hon hrt hencodes h moments 0 hbodies
  obtain ⟨sent, hrun, hsends, htracks⟩ := hserves hnf
  exact ⟨sent, _, hsends, hostLoop_framed hlen (sends_fit hshort hsends hsize) (Prod.ext hrun rfl)
    hds, htracks⟩

end Session

/-! ## A session on a disk -/

open StorageFs (headStore freshDisk freshDisk_tidy folders webFolder)

/-- The messages of the session: an entry is added, shown, and removed twice. -/
def sessionRequests : List Request :=
  let a : Str := "web/a".toList
  [⟨1, .insert a "pw".toList false⟩, ⟨2, .show a none⟩, ⟨3, .rm a false⟩, ⟨4, .rm a false⟩]

def sessionBodies : List Bytes :=
  ["\x7b\"id\":1,\"op\":\"insert\",\"path\":\"web/a\",\"plaintext\":\"pw\"\x7d",
    "\x7b\"id\":2,\"op\":\"show\",\"path\":\"web/a\"\x7d",
    "\x7b\"id\":3,\"op\":\"rm\",\"path\":\"web/a\"\x7d",
    "\x7b\"id\":4,\"op\":\"rm\",\"path\":\"web/a\"\x7d"].map fun s => utf8Encode s.toList

/-- What `serde_json` makes of these messages, and of replies. -/
def sessionJson : SerdeJson Empty where
  fromSlice bytes := ((sessionBodies.zip sessionRequests).find? fun p => p.1 = bytes).map Prod.snd
  toVec reply := .ok (utf8Encode (replyJson reply))

/-- What the host takes from elsewhere. -/
def hostDiskPlatform : HostPlatform TaggedError StorageFsError Empty where
  debug := id
  lower := id
  cryptoText _ := []
  storageText _ := []
  vcsText := Empty.elim

theorem sessionJson_encodes : sessionJson.Encodes := fun _ => ⟨_, rfl⟩

theorem length_utf8Encode_le (s : Str) : (utf8Encode s).length ≤ 4 * s.length := by
  induction s with
  | nil => exact le_rfl
  | cons c s ih =>
    have hc := c.utf8Size_le_four
    rw [utf8Encode, List.flatMap_cons, List.length_append, String.length_utf8EncodeChar,
      List.length_cons]
    rw [utf8Encode] at ih
    omega

theorem length_quoteJson_le (s : Str) : (quoteJson s).length ≤ 2 * s.length + 2 := by
  have hflat : (s.flatMap fun c => if c = '"' ∨ c = '\\' then ['\\', c] else [c]).length ≤
      2 * s.length := by
    induction s with
    | nil => exact le_rfl
    | cons c s ih =>
      rw [List.flatMap_cons, List.length_append, List.length_cons]
      split <;> simp only [List.length_cons, List.length_nil] <;> omega
  simp only [quoteJson, List.length_append, List.length_cons, List.length_nil]
  omega

theorem length_oversizeMessage (len : ℕ) : (oversizeMessage len).length =
    58 + (Nat.toDigits 10 len).length + (Nat.toDigits 10 maxReplyBytes).length := by
  have hparts (digits most : Str) : ("reply too large (".toList ++ digits ++
      " bytes; max ".toList ++ most ++ "); use the CLI for this entry".toList).length =
        58 + digits.length + most.length := by
    have h₁ : "reply too large (".length = 17 := rfl
    have h₂ : " bytes; max ".length = 12 := rfl
    have h₃ : "); use the CLI for this entry".length = 29 := rfl
    simp only [List.length_append, String.length_toList]
    omega
  exact hparts _ _

theorem length_errJson (s : Str) : (replyJson (.err 0 s)).length = (quoteJson s).length + 28 := by
  have hparts (a b c d e : Str) : (a ++ (b ++ (c ++ d ++ e))).length =
      a.length + b.length + c.length + d.length + e.length := by
    simp only [List.length_append]
    omega
  have h₁ : "\x7b\"id\":".toList.length = 6 := rfl
  have h₂ : ",\"ok\":false,\"error\":".toList.length = 20 := rfl
  have h₃ : "\x7d".toList.length = 1 := rfl
  have h₄ : (Nat.toDigits 10 0).length = 1 := by decide
  have hall : (replyJson (.err 0 s)).length = _ :=
    hparts "\x7b\"id\":".toList (Nat.toDigits 10 0) ",\"ok\":false,\"error\":".toList (quoteJson s)
      "\x7d".toList
  rw [hall, h₁, h₂, h₃, h₄]
  omega

/-- The error that is sent for a reply that is too long is short. -/
theorem sessionJson_short : ∀ len < 2 ^ 64, ∀ bytes,
    sessionJson.toVec (.err 0 (oversizeMessage len)) = .ok bytes →
      bytes.length ≤ maxReplyBytes := by
  intro len hlen bytes hbytes
  obtain rfl := Except.ok.inj hbytes
  have hmax : maxReplyBytes < 10 ^ 20 := by norm_num [maxReplyBytes]
  have hdigits : (Nat.toDigits 10 len).length ≤ 20 :=
    Nat.toDigits_length 10 len 20 (by norm_num) (lt_trans hlen (by norm_num))
  have hmost : (Nat.toDigits 10 maxReplyBytes).length ≤ 20 :=
    Nat.toDigits_length 10 maxReplyBytes 20 (by norm_num) hmax
  have hmessage := length_oversizeMessage len
  have hquote := length_quoteJson_le (oversizeMessage len)
  have hreply := length_errJson (oversizeMessage len)
  have hencode := length_utf8Encode_le (replyJson (.err 0 (oversizeMessage len)))
  have hbound : 1000 ≤ maxReplyBytes := by norm_num [maxReplyBytes]
  omega

/-- The session, in one piece. -/
def sessionStream : List (Delivery Empty) := [.chunk (framed sessionBodies)]

/-- The session is about the entry `web/a`. -/
theorem sessionRequests_within : ∀ body ∈ sessionBodies, ∀ req,
    sessionJson.fromSlice body = some req → req.Within hostDiskPlatform (folders webFolder) := by
  intro body _ req hreq
  obtain ⟨p, hp, rfl⟩ := Option.map_eq_some_iff.1 hreq
  have hmem : p.2 ∈ sessionRequests := (List.of_mem_zip (List.mem_of_find?_eq_some hp)).2
  have hbeside : ∀ rel, parsePath hostDiskPlatform "web/a".toList = .ok rel →
      ∀ q ∈ rel.parent, q ∈ folders webFolder := by
    intro rel hrel q hq
    rw [parsePath, RelPath.new_of_valid validate_web_a] at hrel
    obtain rfl := Except.ok.inj hrel
    have hnames : ∀ n ∈ q.names, webFolder n := by
      rw [← RelPath.dropLast_names_of_parent hq]
      decide
    exact hnames
  generalize p.2 = req at hmem ⊢
  simp only [sessionRequests, List.mem_cons, List.not_mem_nil, or_false] at hmem
  rcases hmem with rfl | rfl | rfl | rfl
  · exact hbeside
  · exact hbeside
  · exact hbeside
  · exact hbeside

theorem sessionRun_sound : ¬ Faulty ((serveAll hostDiskPlatform sessionJson headStore
    (fun _ => anyMoment) 0 sessionBodies :
      Prog (Event TaggedError StorageFsError Empty) (Disk FileName) (HostError Empty Empty)
        (List Bytes)).trace freshDisk) := by
  decide +kernel

/-- The replies of the session: to an entry that is there, and to one that is not. -/
theorem session_replies :
    ((∅ : EntryMap).session hostDiskPlatform sessionJson (fun _ => anyMoment) 0 sessionBodies).1 =
      [.ok 1 .empty, .ok 2 (.plaintext "pw".toList), .ok 3 .empty,
        .err 4 "entry not found: web/a".toList] := by
  decide +kernel

theorem sessionReplies_size : ∀ reply ∈ ((∅ : EntryMap).session hostDiskPlatform sessionJson
    (fun _ => anyMoment) 0 sessionBodies).1, ∀ encoded,
    sessionJson.toVec reply = .ok encoded → encoded.length < 2 ^ 64 := by
  rw [session_replies]
  intro reply hreply encoded hencoded
  obtain rfl := Except.ok.inj hencoded
  revert reply
  decide +kernel

theorem host_session_is_map_disk : ∃ sent t,
    List.Forall₂ (Sends sessionJson)
      ((∅ : EntryMap).session hostDiskPlatform sessionJson (fun _ => anyMoment) 0 sessionBodies).1
      sent ∧
    hostLoop hostDiskPlatform sessionJson headStore (fun _ => anyMoment) 0 sessionStream freshDisk =
      ⟨sent.map fun b => toLeBytes b.length ++ b, .ok 0, t⟩ := by
  have := StorageFs.storageFsError_nonempty
  have hstream : Delivers sessionStream (framed sessionBodies) := .chunk (by decide) .nil
  obtain ⟨sent, t, hsends, hloop, -⟩ :=
    host_session_is_map StorageFs.headStore_onMapWhile StorageFs.headStore_roundTrip
      sessionJson_encodes (fun _ => anyMoment) sessionJson_short
      ⟨freshDisk_tidy, StorageFs.freshDisk_resolvable, StorageFs.freshDisk_holds⟩
      (by decide +kernel) sessionRequests_within sessionReplies_size sessionRun_sound hstream
  exact ⟨sent, t, hsends, hloop⟩

end Bypass
