import Bypass.Extension.Popup

/-!
# A session of the popup

The popup, its client, the messaging host, and the store behind it, with what is under way between
them.

* `popup_seen`: **a session of the popup**, over any storage that is a map for a while, is one of a
  popup on the map.
* `popup_shows_last_search`: what is listed in the end is what the last search looked for.
* `popup_copies_clicked`: what is copied are the passwords of the entries that were clicked on.
-/

namespace Bypass

/-! ## The script -/

/-- The script's `JSON`, to the end: the object that a message is. -/
structure PageJson where
  post : ℕ → RequestBody → Bytes
  read : Bytes → Option Reply

/-- What the client makes of it. -/
def PageJson.browser (json : PageJson) : Browser :=
  ⟨json.post, fun bytes => (json.read bytes).map fun reply => (reply.id, reply.isOk)⟩

/-- A popup: `awaiting` is what goes on when the promise of an id is settled. -/
structure PopupSession (W : Type) where
  session : BrowserSession W
  page : Page
  awaiting : List (ℕ × Awaiting)
  closeError : Option Str

namespace PopupSession

variable {W CE SE VE JE : Type} (platform : HostPlatform CE SE VE) (json : SerdeJson JE)
  (script : PageJson) (store : Store W CE SE VE) (moments : ℕ → Moment)

def fresh (w : W) : PopupSession W := ⟨.fresh w, .blank, [], none⟩

/-- A request is made, and its promise kept. That of a port that is closed, or that does not take the
message, is rejected. -/
def ask (s : PopupSession W) (what : Awaiting) (posted : Except Str Unit) : PopupSession W :=
  let page := s.page.setStatus what.status false
  if s.session.client.closed then
    { s with page := page.reject what (s.closeError.getD "native port already closed".toList) }
  else
    let session := s.session.request script.browser what.body posted.toBool
    match posted with
    | .ok () =>
      { s with session, page, awaiting := s.awaiting ++ [(s.session.client.nextId, what)] }
    | .error e => { s with session, page := page.reject what e }

/-- `main`, up to its first `await`. -/
def opened (s : PopupSession W) (connected posted : Except Str Unit) : PopupSession W :=
  match connected with
  | .ok () => ask script { s with page := { s.page with stage := .loading } } .load posted
  | .error e =>
    let text := "Cannot reach bypass host: ".toList ++ e ++
      ". Did you run `bypass messaging-host install`?".toList
    { s with page := { s.page.setStatus text true with stage := .failed } }

/-- A message comes: if a promise waits for it, the popup goes on. -/
def deliver (s : PopupSession W) : Option (PopupSession W × List Str) :=
  match s.session.toClient with
  | [] => none
  | msg :: _ => (s.session.deliver script.browser).map fun session =>
    match script.read msg with
    | none => ({ s with session }, [])
    | some reply =>
      match s.awaiting.lookup reply.id with
      | none => ({ s with session }, [])
      | some what =>
        let (page, copied) := s.page.resolve what reply
        let awaiting := s.awaiting.filter fun a => a.1 ≠ reply.id
        ({ s with session, page, awaiting }, copied)

/-- The port is closed: every promise is rejected, in order. -/
def disconnect (s : PopupSession W) (message : Option Str) : PopupSession W :=
  let reason := match message with
    | some (c :: cs) => ": ".toList ++ c :: cs
    | _ => []
  let error := "native host disconnected".toList ++ reason
  { session := { s.session with client := s.session.client.onDisconnect }
    page := s.awaiting.foldl (fun page a => page.reject a.2 error) s.page
    awaiting := []
    closeError := some error }

end PopupSession

section Session

variable {W CE SE VE JE : Type} (platform : HostPlatform CE SE VE) (json : SerdeJson JE)
  (script : PageJson) (store : Store W CE SE VE) (moments : ℕ → Moment)

/-- **The popup**, with what it shows being what it writes to the clipboard. -/
def popupSession : Machine (PopupSession W) PopupEvent Str := fun s e =>
  match e with
  | .opened connected posted =>
    if s.page.stage = .unopened then some (s.opened script connected posted, []) else none
  | .typed value =>
    if s.page.stage = .ready then
      some ({ s with page := { s.page with timer := some (jsTrim value) } }, [])
    else none
  | .fired posted => s.page.timer.map fun pattern =>
    (PopupSession.ask script { s with page := { s.page with timer := none } } (.search pattern)
      posted, [])
  | .clicked path posted =>
    if path ∈ s.page.entries then some (s.ask script (.copy path) posted, []) else none
  | .serve => (s.session.serve platform json store moments).map fun session =>
    ({ s with session }, [])
  | .deliver => s.deliver script
  | .disconnect message => some (s.disconnect message, [])
  | .wrote path result =>
    if path ∈ s.page.writing then some ({ s with page := s.page.wrote path result }, []) else none

/-! ## Messages -/

/-- **Both sides read what the other wrote**, as long as ids are numbers that are exact. -/
structure SerdeJson.Reads : Prop where
  fromSlice_post : ∀ id body, id ≤ 2 ^ 53 → json.fromSlice (script.post id body) = some ⟨id, body⟩
  read_toVec : ∀ reply bytes, reply.id ≤ 2 ^ 53 → json.toVec reply = .ok bytes →
    script.read bytes = some reply

/-- The port takes the message, which fits into a frame, and whose id is exact. -/
def PopupSession.Posts (s : PopupSession W) (what : Awaiting) (posted : Except Str Unit) : Prop :=
  posted = .ok () ∧ s.session.client.nextId < 2 ^ 53 ∧
    (script.post s.session.client.nextId what.body).length ≤ maxReplyBytes

/-- **Nothing goes wrong**: there is a port, which stays open and takes the messages; no call of a
backend fails; and the reply of the map fits into a frame. -/
def NothingFails (m : EntryMap) (x : Move (PopupSession W) PopupEvent Str) : Prop :=
  match x.event with
  | .opened connected posted => connected = .ok () ∧ x.before.Posts script .load posted
  | .typed _ => True
  | .fired posted => ∀ pattern ∈ x.before.page.timer,
    x.before.Posts script (.search pattern) posted
  | .clicked path posted => x.before.Posts script (.copy path) posted
  | .serve => ∀ msg ∈ x.before.session.toHost.head?,
    ¬ Faulty ((hostReply platform json store (moments x.before.session.written.length) msg :
      Prog (Event CE SE VE) W (HostError JE Empty) Bytes).trace x.before.session.world) ∧
    ∀ bytes, json.toVec (m.answer platform json (moments x.before.session.written.length) msg).1 =
      .ok bytes → bytes.length ≤ maxReplyBytes
  | .deliver => True
  | .disconnect _ => False
  | .wrote _ _ => True

/-- What is seen of a session. -/
def PopupSession.view (s : PopupSession W) : PopupView := ⟨s.page, s.awaiting.map Prod.snd⟩

/-- **What is under way**: the replies that wait for the client are those of the map, and answer the
first requests; the others wait for the host. -/
structure Flight (I : W → Prop) (files : W → Files) (m : EntryMap) (s : PopupSession W)
    (arriving waiting : List (ℕ × Awaiting)) : Prop where
  tracks : Tracks I store files s.session.world m
  isOpen : s.session.client.closed = false
  awaiting : s.awaiting = arriving ++ waiting
  toClient : List.Forall₂ (fun a msg => script.read msg = some (m.reply platform a.1 a.2))
    arriving s.session.toClient
  toHost : s.session.toHost = waiting.map fun a => script.post a.1 a.2.body
  fits : ∀ msg ∈ s.session.toHost, msg.length ≤ maxReplyBytes
  pending : s.session.client.pending = s.awaiting.map Prod.fst
  nodup : (s.awaiting.map Prod.fst).Nodup
  lt : ∀ a ∈ s.awaiting, a.1 < s.session.client.nextId
  exact : s.session.client.nextId ≤ 2 ^ 53
  copied : ∀ a ∈ s.awaiting, ∀ path ∈ a.2.path, ∃ e ∈ m, e.str = path
  listed : ∀ path ∈ s.page.entries, ∃ e ∈ m, e.str = path

variable {platform json script store moments} {I : W → Prop} {dirs : Set RelPath}
  {files : W → Files} {m : EntryMap} {s : PopupSession W} {arriving waiting : List (ℕ × Awaiting)}

theorem flight_fresh {w : W} (h : Tracks I store files w m) :
    Flight platform script store I files m (.fresh w) [] [] :=
  ⟨h, rfl, rfl, .nil, rfl, List.forall_mem_nil _, rfl, .nil, List.forall_mem_nil _,
    Nat.one_le_two_pow, List.forall_mem_nil _, List.forall_mem_nil _⟩

/-- A request of the popup, on the map. -/
theorem serve_body (moment : Moment) (id : ℕ) (what : Awaiting) :
    m.serve platform moment ⟨id, what.body⟩ = (m.reply platform id what, m) := by
  have hall : (m.entriesBelow none).filter (fun e => decide ([] <:+: e.str)) = m.entriesBelow none :=
    List.filter_eq_self.2 fun e _ => decide_eq_true (List.nil_infix)
  cases what with
  | load =>
    rw [EntryMap.reply, EntryMap.listed, hall]
    rfl
  | search pattern =>
    cases pattern with
    | nil =>
      rw [EntryMap.reply, EntryMap.listed, hall]
      rfl
    | cons c cs => rfl
  | copy path =>
    dsimp only [EntryMap.serve, EntryMap.reply, Awaiting.body]
    cases parsePath platform path with
    | error e => rfl
    | ok rel =>
      dsimp only
      cases m[rel]? <;> rfl

theorem id_reply (id : ℕ) (what : Awaiting) : (m.reply platform id what).id = id := by
  cases what with
  | load => rfl
  | search pattern => rfl
  | copy path =>
    dsimp only [EntryMap.reply]
    cases parsePath platform path with
    | error e => rfl
    | ok rel =>
      dsimp only
      cases m[rel]? with
      | none => rfl
      | some plaintext =>
        dsimp only [EntryMap.showReply]
        cases utf8Decode? plaintext <;> rfl

/-- Requests of the popup are about entries of the map. -/
theorem within_body (hdirs : ∀ e ∈ m, ∀ q ∈ e.parent, q ∈ dirs) (id : ℕ) {what : Awaiting}
    (hcopied : ∀ path ∈ what.path, ∃ e ∈ m, e.str = path) :
    (⟨id, what.body⟩ : Request).Within platform dirs := by
  have hall : (⟨id, .ls none⟩ : Request).Within platform dirs := by
    intro sub hsub q hq
    obtain rfl := Except.ok.inj hsub
    exact absurd hq (Option.not_mem_none q)
  cases what with
  | load => exact hall
  | search pattern =>
    cases pattern with
    | nil => exact hall
    | cons c cs => trivial
  | copy path =>
    obtain ⟨e, he, rfl⟩ := hcopied path rfl
    intro rel hrel
    rw [parsePath, RelPath.new_of_valid e.valid] at hrel
    obtain rfl := Except.ok.inj hrel
    exact hdirs e he

theorem mem_listed {pattern path : Str} (h : path ∈ m.listed pattern) : ∃ e ∈ m, e.str = path := by
  obtain ⟨e, he, rfl⟩ := List.mem_map.1 h
  exact ⟨e, (EntryMap.mem_entriesBelow.1 (List.mem_filter.1 he).1).1, rfl⟩

/-- What goes on does not depend on the id. -/
theorem resolve_reply_id (p : Page) (id : ℕ) (what : Awaiting) :
    p.resolve what (m.reply platform id what) = p.resolve what (m.reply platform 0 what) := by
  cases what with
  | load => rfl
  | search pattern => rfl
  | copy path =>
    dsimp only [Page.resolve, EntryMap.reply]
    cases parsePath platform path with
    | error e => rfl
    | ok rel =>
      dsimp only
      cases m[rel]? with
      | none => rfl
      | some plaintext =>
        dsimp only [EntryMap.showReply]
        cases utf8Decode? plaintext <;> rfl

/-! ## One move -/

/-- A change of the page. -/
theorem Flight.withPage (h : Flight platform script store I files m s arriving waiting) (page : Page)
    (hlisted : ∀ path ∈ page.entries, ∃ e ∈ m, e.str = path) :
    Flight platform script store I files m { s with page } arriving waiting :=
  { h with listed := hlisted }

/-- **A request is made.** -/
theorem Flight.ask (h : Flight platform script store I files m s arriving waiting)
    {what : Awaiting} {posted : Except Str Unit} (hposts : s.Posts script what posted)
    (hcopied : ∀ path ∈ what.path, ∃ e ∈ m, e.str = path) :
    Flight platform script store I files m (s.ask script what posted) arriving
        (waiting ++ [(s.session.client.nextId, what)]) ∧
      (s.ask script what posted).view = s.view.ask what := by
  obtain ⟨rfl, hexact, hfits⟩ := hposts
  have hnew : ∀ a ∈ s.awaiting, a.1 ≠ s.session.client.nextId := fun a ha => (h.lt a ha).ne
  have hfresh : s.session.client.nextId ∉ s.session.client.pending := by
    rw [h.pending]
    intro hmem
    obtain ⟨a, ha, hid⟩ := List.mem_map.1 hmem
    exact hnew a ha hid
  have hrequest := NativeClient.request_posted h.isOpen hfresh hexact
  have hask : s.ask script what (.ok ()) = { s with
      session := s.session.request script.browser what.body true
      page := s.page.setStatus what.status false
      awaiting := s.awaiting ++ [(s.session.client.nextId, what)] } := by
    rw [PopupSession.ask, if_neg (by rw [h.isOpen]; exact Bool.false_ne_true)]
    rfl
  have hsession : s.session.request script.browser what.body true = { s.session with
      client := { s.session.client with
        nextId := s.session.client.nextId + 1
        pending := s.session.client.pending ++ [s.session.client.nextId] }
      toHost := s.session.toHost ++ [script.post s.session.client.nextId what.body]
      posted := s.session.posted ++ [script.post s.session.client.nextId what.body] } := by
    rw [BrowserSession.request, hrequest]
    rfl
  rw [hask, hsession]
  refine ⟨⟨h.tracks, h.isOpen, ?_, h.toClient, ?_, ?_, ?_, ?_, ?_, hexact, ?_, h.listed⟩, ?_⟩
  · rw [h.awaiting, List.append_assoc]
  · rw [h.toHost, List.map_append]
    rfl
  · exact List.forall_mem_append.2 ⟨h.fits, List.forall_mem_singleton.2 hfits⟩
  · rw [h.pending, List.map_append]
    rfl
  · rw [List.map_append, List.map_singleton, ← List.concat_eq_append]
    rw [h.pending] at hfresh
    exact h.nodup.concat hfresh
  · exact List.forall_mem_append.2 ⟨fun a ha => Nat.lt_succ_of_lt (h.lt a ha),
      List.forall_mem_singleton.2 (Nat.lt_succ_self _)⟩
  · exact List.forall_mem_append.2 ⟨h.copied, List.forall_mem_singleton.2 hcopied⟩
  · rw [PopupSession.view, List.map_append]
    rfl

/-- **The host answers.** -/
theorem Flight.serve [Nonempty SE] (hon : OnMapWhile I (.below dirs) store files)
    (hrt : RoundTrip store) (hencodes : json.Encodes) (hreads : json.Reads script)
    (hdirs : ∀ e ∈ m, ∀ q ∈ e.parent, q ∈ dirs)
    (h : Flight platform script store I files m s arriving waiting)
    (hsound : ∀ msg ∈ s.session.toHost.head?,
      ¬ Faulty ((hostReply platform json store (moments s.session.written.length) msg :
        Prog (Event CE SE VE) W (HostError JE Empty) Bytes).trace s.session.world) ∧
      ∀ bytes, json.toVec (m.answer platform json (moments s.session.written.length) msg).1 =
        .ok bytes → bytes.length ≤ maxReplyBytes)
    {session : BrowserSession W}
    (hserve : s.session.serve platform json store moments = some session) :
    ∃ arriving waiting,
      Flight platform script store I files m { s with session } arriving waiting := by
  cases waiting with
  | nil =>
    have hnil : s.session.toHost = [] := h.toHost
    simp only [BrowserSession.serve, hnil, reduceCtorEq] at hserve
  | cons a waiting =>
    obtain ⟨id, what⟩ := a
    have hmem : (id, what) ∈ s.awaiting := by
      rw [h.awaiting]
      exact List.mem_append_right _ List.mem_cons_self
    have hexact : id ≤ 2 ^ 53 := (h.lt _ hmem).le.trans h.exact
    have hparse := hreads.fromSlice_post id what.body hexact
    obtain ⟨hnf, hfits⟩ := hsound (script.post id what.body) (by rw [h.toHost]; rfl)
    have hanswer : m.answer platform json (moments s.session.written.length)
        (script.post id what.body) = (m.reply platform id what, m) := by
      rw [EntryMap.answer, hparse]
      exact serve_body _ id what
    have hwithin : (⟨id, what.body⟩ : Request).Within platform dirs :=
      within_body hdirs id (h.copied _ hmem)
    have hreply : (hostReply platform json store (moments s.session.written.length)
        (script.post id what.body) : Prog (Event CE SE VE) W (HostError JE Empty) Bytes).wp _
          s.session.world :=
      hostReply_serves hon hrt hencodes h.tracks (moments s.session.written.length)
        fun req hreq => Option.some.inj (hparse.symm.trans hreq) ▸ hwithin
    obtain ⟨bytes, hbytes, ⟨encoded, hencoded, hsent⟩, htracks⟩ := hreply hnf
    rw [hanswer] at hencoded hfits htracks
    obtain ⟨-, rfl⟩ | ⟨hlong, -⟩ := hsent
    · generalize hrun : (hostReply platform json store (moments s.session.written.length)
        (script.post id what.body) : Prog (Event CE SE VE) W (HostError JE Empty) Bytes).run
          s.session.world = result at hbytes htracks
      obtain ⟨r, world⟩ := result
      obtain rfl : r = .ok bytes := hbytes
      have hhost : s.session.toHost = script.post id what.body ::
          waiting.map fun a => script.post a.1 a.2.body := h.toHost
      have hlen : ¬ maxReplyBytes < (script.post id what.body).length :=
        not_lt.2 (h.fits _ (by rw [hhost]; exact List.mem_cons_self))
      simp only [BrowserSession.serve, hhost, if_neg hlen, hrun, Option.some.injEq] at hserve
      obtain rfl := hserve
      have hread : script.read bytes = some (m.reply platform id what) :=
        hreads.read_toVec _ _ (by rwa [id_reply]) hencoded
      refine ⟨arriving ++ [(id, what)], waiting, htracks, h.isOpen, ?_, ?_, rfl, ?_, h.pending,
        h.nodup, h.lt, h.exact, h.copied, h.listed⟩
      · rw [h.awaiting, List.append_assoc]
        rfl
      · exact List.rel_append h.toClient (.cons hread .nil)
      · exact fun msg hmsg => h.fits msg (by rw [hhost]; exact List.mem_cons_of_mem _ hmsg)
    · exact absurd (hfits _ hencoded) (not_le.2 hlong)

/-- **A reply comes.** -/
theorem Flight.deliver (h : Flight platform script store I files m s arriving waiting)
    {t : PopupSession W} {copied : List Str} (hdeliver : s.deliver script = some (t, copied)) :
    (∃ arriving waiting, Flight platform script store I files m t arriving waiting) ∧
      popupOnMap platform m s.view .deliver = some (t.view, copied) := by
  cases arriving with
  | nil =>
    have hnil : s.session.toClient = [] := List.forall₂_nil_left_iff.1 h.toClient
    simp only [PopupSession.deliver, hnil, reduceCtorEq] at hdeliver
  | cons a arriving =>
    obtain ⟨id, what⟩ := a
    obtain ⟨msg, msgs, hread, hrest, hclient⟩ := List.forall₂_cons_left_iff.1 h.toClient
    have hid := @id_reply _ _ _ platform m id what
    have hawaiting : s.awaiting = (id, what) :: (arriving ++ waiting) := h.awaiting
    have hpending : s.session.client.pending = id :: (arriving ++ waiting).map Prod.fst := by
      rw [h.pending, hawaiting, List.map_cons]
    have hnodup := h.nodup
    rw [hawaiting, List.map_cons, List.nodup_cons] at hnodup
    have hlookup : s.awaiting.lookup id = some what := by
      rw [hawaiting, List.lookup_cons, beq_self_eq_true]
    have hothers : s.awaiting.filter (fun a => a.1 ≠ id) = arriving ++ waiting := by
      rw [hawaiting, List.filter_cons_of_neg (by simp), List.filter_eq_self]
      intro a ha
      simp only [ne_eq, decide_not, Bool.not_eq_eq_eq_not, Bool.not_true, decide_eq_false_iff_not]
      exact fun heq => hnodup.1 (heq ▸ List.mem_map.2 ⟨a, ha, rfl⟩)
    have hsession : s.session.deliver script.browser = some { s.session with
        client := { s.session.client with
          pending := (arriving ++ waiting).map Prod.fst
          settled := s.session.client.settled ++ [(id, .resolved msg)] }
        toClient := msgs } := by
      have hparse : script.browser.parse msg = some (id, (m.reply platform id what).isOk) := by
        dsimp only [PageJson.browser]
        rw [hread, Option.map_some, hid]
      simp only [BrowserSession.deliver, hclient, h.isOpen, Bool.false_eq_true, if_false, hparse,
        NativeClient.onMessage_head msg hpending]
    simp only [PopupSession.deliver, hclient, hsession, Option.map_some, hread, hid, hlookup,
      hothers, Option.some.injEq, Prod.mk.injEq] at hdeliver
    obtain ⟨rfl, rfl⟩ := hdeliver
    have hmem : ∀ a ∈ arriving ++ waiting, a ∈ s.awaiting := fun a ha => by
      rw [hawaiting]
      exact List.mem_cons_of_mem _ ha
    refine ⟨⟨arriving, waiting, h.tracks, h.isOpen, rfl, hrest, h.toHost, h.fits, rfl, hnodup.2,
      fun a ha => h.lt a (hmem a ha), h.exact, fun a ha => h.copied a (hmem a ha), ?_⟩, ?_⟩
    · -- what is listed is as before, or comes from the map
      rw [resolve_reply_id]
      obtain ⟨-, hentries, -, -⟩ := s.page.resolve_reply platform m 0 what
      intro path hpath
      rw [hentries] at hpath
      cases hwhat : what.pattern with
      | none =>
        rw [hwhat] at hpath
        exact h.listed path hpath
      | some pattern =>
        rw [hwhat] at hpath
        exact mem_listed hpath
    · have hview : s.view.asked = what :: (arriving ++ waiting).map Prod.snd := by
        rw [PopupSession.view, hawaiting, List.map_cons]
      simp only [popupOnMap, hview]
      rw [resolve_reply_id s.page id what]
      rfl

/-- **A move of the popup** is one on the map. -/
theorem popupSession_move [Nonempty SE] (hon : OnMapWhile I (.below dirs) store files)
    (hrt : RoundTrip store) (hencodes : json.Encodes) (hreads : json.Reads script)
    (hdirs : ∀ e ∈ m, ∀ q ∈ e.parent, q ∈ dirs) {x : Move (PopupSession W) PopupEvent Str}
    (hx : (popupSession platform json script store moments).Makes x)
    (hsound : NothingFails platform json script store moments m x)
    (h : ∃ arriving waiting, Flight platform script store I files m x.before arriving waiting) :
    (∃ arriving waiting, Flight platform script store I files m x.after arriving waiting) ∧
      (popupOnMap platform m).Makes (x.seen PopupSession.view) := by
  obtain ⟨s, e, t, outputs⟩ := x
  obtain ⟨arriving, waiting, h⟩ := h
  unfold Machine.Makes at hx ⊢
  dsimp only [Move.seen] at hx h ⊢
  cases e with
  | opened connected posted =>
    obtain ⟨rfl, hposts⟩ := hsound
    have hposted : posted = .ok () := hposts.1
    subst hposted
    simp only [popupSession] at hx
    split_ifs at hx with hstage
    obtain ⟨rfl, rfl⟩ := Prod.mk.inj (Option.some.inj hx)
    obtain ⟨hflight, hview⟩ :=
      (h.withPage { s.page with stage := .loading } h.listed).ask hposts fun _ => nofun
    refine ⟨⟨_, _, hflight⟩, ?_⟩
    have hstage' : s.view.page.stage = .unopened := hstage
    rw [popupOnMap, if_pos hstage']
    exact congrArg (fun v => some (v, [])) hview.symm
  | typed value =>
    simp only [popupSession] at hx
    split_ifs at hx with hstage
    obtain ⟨rfl, rfl⟩ := Prod.mk.inj (Option.some.inj hx)
    refine ⟨⟨_, _, h.withPage { s.page with timer := some (jsTrim value) } h.listed⟩, ?_⟩
    have hstage' : s.view.page.stage = .ready := hstage
    rw [popupOnMap, if_pos hstage']
    rfl
  | fired posted =>
    obtain ⟨pattern, htimer, hx⟩ := Option.map_eq_some_iff.1 hx
    obtain ⟨rfl, rfl⟩ := Prod.mk.inj hx
    have hposts := hsound pattern htimer
    have hposted : posted = .ok () := hposts.1
    subst hposted
    obtain ⟨hflight, hview⟩ :=
      (h.withPage { s.page with timer := none } h.listed).ask hposts fun _ => nofun
    refine ⟨⟨_, _, hflight⟩, ?_⟩
    have htimer' : s.view.page.timer = some pattern := htimer
    rw [popupOnMap, htimer', Option.map_some]
    exact congrArg (fun v => some (v, [])) hview.symm
  | clicked path posted =>
    have hposted : posted = .ok () := hsound.1
    subst hposted
    simp only [popupSession] at hx
    split_ifs at hx with hlisted
    obtain ⟨rfl, rfl⟩ := Prod.mk.inj (Option.some.inj hx)
    obtain ⟨hflight, hview⟩ := h.ask hsound fun p hp => Option.some.inj hp ▸ h.listed path hlisted
    refine ⟨⟨_, _, hflight⟩, ?_⟩
    have hlisted' : path ∈ s.view.page.entries := hlisted
    rw [popupOnMap, if_pos hlisted']
    exact congrArg (fun v => some (v, [])) hview.symm
  | serve =>
    obtain ⟨session, hserve, hx⟩ := Option.map_eq_some_iff.1 hx
    obtain ⟨rfl, rfl⟩ := Prod.mk.inj hx
    exact ⟨h.serve hon hrt hencodes hreads hdirs hsound hserve, rfl⟩
  | deliver => exact h.deliver hx
  | disconnect message => exact hsound.elim
  | wrote path result =>
    simp only [popupSession] at hx
    split_ifs at hx with hwriting
    obtain ⟨rfl, rfl⟩ := Prod.mk.inj (Option.some.inj hx)
    obtain ⟨-, -, hentries⟩ := s.page.wrote_list path result
    refine ⟨⟨_, _, h.withPage (s.page.wrote path result) (by rw [hentries]; exact h.listed)⟩, ?_⟩
    have hwriting' : path ∈ s.view.page.writing := hwriting
    rw [popupOnMap, if_pos hwriting']
    rfl

/-! ## Every run -/

section Runs

variable [Nonempty SE] (hon : OnMapWhile I (.below dirs) store files) (hrt : RoundTrip store)
  (hencodes : json.Encodes) (hreads : json.Reads script)
  (hdirs : ∀ e ∈ m, ∀ q ∈ e.parent, q ∈ dirs) {w : W} (htracks : Tracks I store files w m)
  {run : List (Move (PopupSession W) PopupEvent Str)}
  (hrun : (popupSession platform json script store moments).Runs (.fresh w) run s)
  (hsound : ∀ x ∈ run, NothingFails platform json script store moments m x)
include hon hrt hencodes hreads hdirs htracks hrun hsound

/-- **A session of the popup is one of a popup on the map**, over any storage that is a map while an
invariant holds, as long as nothing goes wrong. -/
theorem popup_seen :
    (popupOnMap platform m).Runs ⟨.blank, []⟩ (run.map (Move.seen PopupSession.view)) s.view :=
  (hrun.seen (I := fun s => ∃ arriving waiting,
      Flight platform script store I files m s arriving waiting) PopupSession.view
    (fun _ hx hm h => popupSession_move hon hrt hencodes hreads hdirs hx hm h) hsound
    ⟨[], [], flight_fresh htracks⟩).2

theorem popup_inv : s.view.Inv m (run.map Move.event) (Machine.shown run) := by
  have h := popupOnMap_run (popup_seen hon hrt hencodes hreads hdirs htracks hrun hsound)
  rwa [Machine.events_map_seen, Machine.shown_map_seen] at h

/-- **The popup lists what the last search looked for**: in every run in which nothing goes wrong,
when nothing is under way, and no search is put off. Searches that were asked for before it, and
answered meanwhile, leave nothing on the page. -/
theorem popup_shows_last_search (hopened : s.page.stage ≠ .unopened) (htimer : s.page.timer = none)
    (hawaiting : s.awaiting = []) :
    s.page.stage = .ready ∧ s.page.entries = m.listed (sought (run.map Move.event)) := by
  have hinv := popup_inv hon hrt hencodes hreads hdirs htracks hrun hsound
  exact (hinv.rest (by rw [PopupSession.view, hawaiting]; rfl)).2 hopened htimer

/-- **The popup copies the passwords that were clicked on**, each once, in the order of the clicks,
and nothing else: in every run in which nothing goes wrong, when nothing is under way. An entry that
is not a text is not copied. -/
theorem popup_copies_clicked (hawaiting : s.awaiting = []) :
    Machine.shown run = (clicks (run.map Move.event)).filterMap m.password := by
  have hinv := popup_inv hon hrt hencodes hreads hdirs htracks hrun hsound
  exact (hinv.rest (by rw [PopupSession.view, hawaiting]; rfl)).1

end Runs

end Session

/-! ## A popup over a disk -/

open StorageFs (headStore freshDisk freshDisk_tidy folders webFolder)

/-- The code of a message: as in the table, or told apart from the others by its length. -/
noncomputable def spell {α : Type} [Countable α] [DecidableEq α] (table : List (α × Bytes)) (a : α) :
    Bytes :=
  match table.lookup a with
  | some bytes => bytes
  | none => List.replicate ((exists_injective_nat α).choose a) 0

/-- The message of a code. -/
noncomputable def unspell {α : Type} [Countable α] (table : List (α × Bytes)) (bytes : Bytes) :
    Option α :=
  match table.find? fun p => p.2 = bytes with
  | some p => some p.1
  | none => Function.partialInv (fun a => List.replicate ((exists_injective_nat α).choose a) 0) bytes

theorem unspell_spell {α : Type} [Countable α] [DecidableEq α] {table : List (α × Bytes)}
    (hhead : ∀ p ∈ table, p.2.head? = some 0x7b) (hnodup : (table.map Prod.snd).Nodup) (a : α) :
    unspell table (spell table a) = some a := by
  have hlen : Function.Injective fun a : α =>
      (List.replicate ((exists_injective_nat α).choose a) 0 : Bytes) := fun a b h =>
    (exists_injective_nat α).choose_spec (by simpa using congrArg List.length h)
  unfold spell
  cases hlookup : table.lookup a with
  | some bytes =>
    obtain ⟨before, after, rfl, -⟩ := List.lookup_eq_some_iff.1 hlookup
    have hmem : (a, bytes) ∈ before ++ (a, bytes) :: after :=
      List.mem_append_right _ List.mem_cons_self
    obtain ⟨p, hp⟩ := Option.isSome_iff_exists.1
      (List.find?_isSome.2 ⟨_, hmem, decide_eq_true rfl⟩ :
        ((before ++ (a, bytes) :: after).find? fun p => p.2 = bytes).isSome = true)
    have hfound := List.find?_some hp
    have hbytes : p.2 = bytes := of_decide_eq_true hfound
    have hsame : p = (a, bytes) :=
      List.inj_on_of_nodup_map hnodup (List.mem_of_find?_eq_some hp) hmem hbytes
    rw [unspell, hp, hsame]
  | none =>
    dsimp only
    have hnone : table.find? (fun p => p.2 =
        List.replicate ((exists_injective_nat α).choose a) 0) = none := by
      rw [List.find?_eq_none]
      intro p hp heq
      have hzero := hhead p hp
      rw [of_decide_eq_true heq] at hzero
      have hmem := List.mem_of_mem_head? (Option.mem_def.2 hzero)
      exact absurd (List.eq_of_mem_replicate hmem) (by decide)
    rw [unspell, hnone]
    exact Function.partialInv_left hlen a

deriving instance Countable for Request
deriving instance Countable for OkBody
deriving instance Countable for Reply

/-- The messages of the session, in JSON. -/
def popupRequests : List (Request × Bytes) :=
  [(⟨1, .ls none⟩, "\x7b\"id\":1,\"op\":\"ls\"\x7d"),
    (⟨2, .find "a".toList⟩, "\x7b\"id\":2,\"op\":\"find\",\"pattern\":\"a\"\x7d"),
    (⟨3, .show "web/a".toList none⟩, "\x7b\"id\":3,\"op\":\"show\",\"path\":\"web/a\"\x7d")].map
      fun p => (p.1, utf8Encode p.2.toList)

def popupReplies : List (Reply × Bytes) :=
  [.ok 1 (.entries ["web/a".toList]), .ok 2 (.entries ["web/a".toList]),
    .ok 3 (.plaintext "pw\nme".toList)].map fun reply => (reply, utf8Encode (replyJson reply))

noncomputable def popupJson : SerdeJson Empty where
  fromSlice := unspell popupRequests
  toVec reply := .ok (spell popupReplies reply)

noncomputable def popupScript : PageJson where
  post id body := spell popupRequests ⟨id, body⟩
  read := unspell popupReplies

theorem popupJson_encodes : popupJson.Encodes := fun _ => ⟨_, rfl⟩

theorem popupRequests_spelt : (∀ p ∈ popupRequests, p.2.head? = some 0x7b) ∧
    (popupRequests.map Prod.snd).Nodup := by
  decide +kernel

theorem popupReplies_spelt : (∀ p ∈ popupReplies, p.2.head? = some 0x7b) ∧
    (popupReplies.map Prod.snd).Nodup := by
  decide +kernel

theorem popupJson_reads : popupJson.Reads popupScript where
  fromSlice_post id body _ :=
    unspell_spell popupRequests_spelt.1 popupRequests_spelt.2 (⟨id, body⟩ : Request)
  read_toVec reply bytes _ h := by
    obtain rfl := Except.ok.inj h
    exact unspell_spell popupReplies_spelt.1 popupReplies_spelt.2 reply

/-- A disk with one entry. -/
def popupEntry : List Op :=
  [.insert ⟨"web/a".toList, validate_web_a⟩ (utf8Encode "pw\nme".toList) false]

def popupDisk : Disk FileName := (headStore.runOps popupEntry freshDisk).2

def popupMap : EntryMap := ((∅ : EntryMap).steps popupEntry).2

/-- The user looks for `a`, and clicks on what is listed before the answer has come. -/
def popupEvents : List PopupEvent :=
  [.opened (.ok ()) (.ok ()), .serve, .deliver, .typed " a ".toList, .fired (.ok ()),
    .clicked "web/a".toList (.ok ()), .serve, .serve, .deliver, .deliver,
    .wrote "web/a".toList (.ok ())]

section Decide

variable {W CE SE VE JE : Type} {platform : HostPlatform CE SE VE} {json : SerdeJson JE}
  {script : PageJson} {store : Store W CE SE VE} {moments : ℕ → Moment} {m : EntryMap}

instance {s : PopupSession W} {what : Awaiting} {posted : Except Str Unit} :
    Decidable (s.Posts script what posted) :=
  inferInstanceAs (Decidable (_ ∧ _))

instance {P : Bytes → Prop} [DecidablePred P] : (r : Except JE Bytes) →
    Decidable (∀ bytes, r = .ok bytes → P bytes)
  | .error _ => isTrue fun _ h => nomatch h
  | .ok bytes => decidable_of_iff (P bytes)
    ⟨fun h _ hbytes => Except.ok.inj hbytes ▸ h, fun h => h bytes rfl⟩

instance : (x : Move (PopupSession W) PopupEvent Str) →
    Decidable (NothingFails platform json script store moments m x)
  | ⟨s, .opened connected posted, _, _⟩ =>
    inferInstanceAs (Decidable (connected = .ok () ∧ s.Posts script .load posted))
  | ⟨_, .typed _, _, _⟩ => isTrue trivial
  | ⟨s, .fired posted, _, _⟩ => inferInstanceAs (Decidable (∀ pattern ∈ s.page.timer,
      s.Posts script (.search pattern) posted))
  | ⟨s, .clicked path posted, _, _⟩ =>
    inferInstanceAs (Decidable (s.Posts script (.copy path) posted))
  | ⟨s, .serve, _, _⟩ => inferInstanceAs (Decidable (∀ msg ∈ s.session.toHost.head?,
      ¬ Faulty ((hostReply platform json store (moments s.session.written.length) msg :
        Prog (Event CE SE VE) W (HostError JE Empty) Bytes).trace s.session.world) ∧
      ∀ bytes, json.toVec (m.answer platform json (moments s.session.written.length) msg).1 =
        .ok bytes → bytes.length ≤ maxReplyBytes))
  | ⟨_, .deliver, _, _⟩ => isTrue trivial
  | ⟨_, .disconnect _, _, _⟩ => isFalse id
  | ⟨_, .wrote _ _, _, _⟩ => isTrue trivial

end Decide

/-- The session of these events. -/
noncomputable def popupExec : Option (List (Move (PopupSession (Disk FileName)) PopupEvent Str) ×
    PopupSession (Disk FileName)) :=
  Machine.exec (popupSession hostDiskPlatform popupJson popupScript headStore fun _ => anyMoment)
    (.fresh popupDisk) popupEvents

theorem popupExec_isSome : popupExec.isSome = true := by decide +kernel

noncomputable def popupRun : List (Move (PopupSession (Disk FileName)) PopupEvent Str) ×
    PopupSession (Disk FileName) :=
  popupExec.get popupExec_isSome

/-- Nothing goes wrong in it. -/
theorem popupRun_sound : ∀ x ∈ popupRun.1,
    NothingFails hostDiskPlatform popupJson popupScript headStore (fun _ => anyMoment) popupMap x := by
  decide +kernel

/-- Where it ends. -/
theorem popupRun_ends : popupRun.2.page.stage ≠ .unopened ∧ popupRun.2.page.timer = none ∧
    popupRun.2.awaiting = [] := by
  decide +kernel

theorem popupRun_runs : (popupSession hostDiskPlatform popupJson popupScript headStore fun _ =>
    anyMoment).Runs (.fresh popupDisk) popupRun.1 popupRun.2 :=
  Machine.get_runs popupExec_isSome

/-- The one entry is `web/a`. -/
theorem popupMap_within : ∀ e ∈ popupMap, ∀ q ∈ e.parent, q ∈ folders webFolder := by
  have hkeys : ∀ e ∈ popupMap.keys, ∀ n ∈ e.names.dropLast, webFolder n := by decide +kernel
  intro e he q hq
  have hnames := hkeys e (Std.ExtTreeMap.mem_keys.2 he)
  rwa [RelPath.dropLast_names_of_parent hq] at hnames

/-- The disk holds the map. -/
theorem popupDisk_tracks : Tracks (fun d => StorageFs.Tidy webFolder [StorageFs.storeName] d.tree)
    headStore (fun d => StorageFs.visible [StorageFs.storeName] d.tree) popupDisk popupMap := by
  have hops : ∀ op ∈ popupEntry, op.Within (.below (folders webFolder)) := by
    refine List.forall_mem_singleton.2 fun q hq => ?_
    have hnames : ∀ n ∈ (⟨"web/a".toList, validate_web_a⟩ : RelPath).names.dropLast,
        webFolder n := by
      decide
    rwa [RelPath.dropLast_names_of_parent hq] at hnames
  obtain ⟨-, hholds, hmeta, htidy⟩ := runOps_refines_while StorageFs.headStore_onMapWhile
    (.outsideRoot []) StorageFs.headStore_roundTrip hops freshDisk_tidy StorageFs.freshDisk_resolvable
    StorageFs.freshDisk_holds (by decide +kernel)
  exact ⟨htidy, StorageFs.freshDisk_resolvable.of_sameMetadata hmeta, hholds⟩

theorem popup_seen_web : (popupOnMap hostDiskPlatform popupMap).Runs ⟨.blank, []⟩
    (popupRun.1.map (Move.seen PopupSession.view)) popupRun.2.view :=
  have := StorageFs.storageFsError_nonempty
  popup_seen StorageFs.headStore_onMapWhile StorageFs.headStore_roundTrip popupJson_encodes
    popupJson_reads popupMap_within popupDisk_tracks popupRun_runs popupRun_sound

theorem popup_shows_last_search_web : popupRun.2.page.stage = .ready ∧
    popupRun.2.page.entries = popupMap.listed (sought (popupRun.1.map Move.event)) :=
  have := StorageFs.storageFsError_nonempty
  popup_shows_last_search StorageFs.headStore_onMapWhile StorageFs.headStore_roundTrip
    popupJson_encodes popupJson_reads popupMap_within popupDisk_tracks popupRun_runs popupRun_sound
    popupRun_ends.1 popupRun_ends.2.1 popupRun_ends.2.2

theorem popup_copies_clicked_web : Machine.shown popupRun.1 =
    (clicks (popupRun.1.map Move.event)).filterMap popupMap.password :=
  have := StorageFs.storageFsError_nonempty
  popup_copies_clicked StorageFs.headStore_onMapWhile StorageFs.headStore_roundTrip
    popupJson_encodes popupJson_reads popupMap_within popupDisk_tracks popupRun_runs popupRun_sound
    popupRun_ends.2.2

end Bypass
