import Bypass.Foundations.Runs

/-!
# The requests to the user of OpenKeychain

`CryptoUiBridge.kt` and `MainActivity.kt`: a thread that needs the user emits a request and waits at
its box. The Activity collects the requests, puts them into a queue and launches their
`PendingIntent`s; a result comes without its request, and goes to the head of the queue.

When the Activity is created again, its queue is new, but the results of the launches of the one
before it still come.

* `did_of_cryptoUi`: what a move does;
* `paired_move`: what is launched and what is queued stay in step, as long as no such result meets
  a request;
* `results_reach_iff`: **when every result reaches its request**;
* `rotation_misdelivers`: it does not where the Activity is created again between two requests.
-/

namespace Bypass

namespace CryptoUi

open Machine

/-- `CryptoUiRequest`: what is in its box, and whether the thread that waited there has returned. -/
structure CryptoUiRequest (PendingIntent ActivityResult : Type) where
  pendingIntent : PendingIntent
  box : Option (Option ActivityResult)
  returned : Bool

/-- A launch whose result is to come: the request, and the Activity that launched it. -/
structure Launch where
  request : ℕ
  activity : ℕ
  deriving DecidableEq

/-- The bridge, the Activity and what has been launched. Requests and Activities are numbered. -/
structure Ui (PendingIntent ActivityResult : Type) where
  requests : List (CryptoUiRequest PendingIntent ActivityResult)
  /-- What has been emitted and not collected. -/
  buffer : List ℕ
  /-- The queue of the Activity, when there is one. -/
  pendingRequests : Option (List ℕ)
  /-- The Activity that is there, or else the next. -/
  activity : ℕ
  launches : List Launch

/-- What can happen next. Of a launch it is said whether it throws. -/
inductive Event (PendingIntent ActivityResult : Type) where
  | requestUserInteraction (pendingIntent : PendingIntent)
  | collect (throws : Bool)
  | result (result : ActivityResult)
  | poll (request : ℕ)
  | timeout (request : ℕ)
  | onCreate
  | onDestroy

/-- The callback of the launcher. -/
def Event.isResult {PendingIntent ActivityResult : Type} :
    Event PendingIntent ActivityResult → Bool
  | result _ => true
  | _ => false

/-- What can be seen. -/
inductive Output (PendingIntent ActivityResult : Type) where
  | launched (pendingIntent : PendingIntent)
  /-- `deliver`, with the result of the launch of a request. -/
  | delivered (request launch : ℕ) (result : ActivityResult)
  /-- `requestUserInteraction` returns. -/
  | returned (request : ℕ) (result : Option ActivityResult)

section Model

variable {PendingIntent ActivityResult : Type}

namespace Ui

variable (s : Ui PendingIntent ActivityResult)

/-- The app has started. -/
def start : Ui PendingIntent ActivityResult := ⟨[], [], none, 0, []⟩

/-- `tryEmit`, with room for sixteen. Where nobody collects, the request is lost. -/
def tryEmit (request : ℕ) : Ui PendingIntent ActivityResult × Bool :=
  match s.pendingRequests with
  | none => (s, true)
  | some _ =>
    if s.buffer.length < 16 then ({ s with buffer := s.buffer ++ [request] }, true) else (s, false)

/-- `deliver`: the box has one slot. -/
def deliver (request : ℕ) (result : Option ActivityResult) : Ui PendingIntent ActivityResult :=
  { s with requests := s.requests.modify request fun r =>
      if r.box.isNone then { r with box := some result } else r }

/-- A thread returns. -/
def leave (request : ℕ) : Ui PendingIntent ActivityResult :=
  { s with requests := s.requests.modify request fun r => { r with box := none, returned := true } }

end Ui

/-- **The requests to the user.** An event that cannot happen is refused. -/
def cryptoUi : Machine (Ui PendingIntent ActivityResult) (Event PendingIntent ActivityResult)
    (Output PendingIntent ActivityResult) := fun s event =>
  match event with
  | .requestUserInteraction pendingIntent =>
    let n := s.requests.length
    let (s', emitted) := s.tryEmit n
    some ({ s' with requests := s'.requests ++ [⟨pendingIntent, none, !emitted⟩] },
      if emitted then [] else [.returned n none])
  | .collect throws =>
    match s.pendingRequests, s.buffer with
    | some queue, n :: rest =>
      let offered : Ui PendingIntent ActivityResult :=
        { s with buffer := rest, pendingRequests := some (queue ++ [n]) }
      if throws then
        some ({ offered with pendingRequests := some ((queue ++ [n]).erase n) }.deliver n none, [])
      else
        some ({ offered with launches := s.launches ++ [⟨n, s.activity⟩] },
          s.requests[n]?.toList.map fun r => .launched r.pendingIntent)
    | _, _ => none
  | .result result =>
    match s.pendingRequests, s.launches with
    | some (n :: queue), launch :: rest =>
      some ({ s with pendingRequests := some queue, launches := rest }.deliver n (some result),
        [.delivered n launch.request result])
    -- a spurious callback
    | some [], _ :: rest => some ({ s with launches := rest }, [])
    | _, _ => none
  | .poll n =>
    s.requests[n]?.bind fun r =>
      if r.returned then none else r.box.map fun slot => (s.leave n, [.returned n slot])
  | .timeout n =>
    s.requests[n]?.bind fun r =>
      if r.returned || r.box.isSome then none else some (s.leave n, [.returned n none])
  | .onCreate =>
    if s.pendingRequests = none then some ({ s with pendingRequests := some [] }, []) else none
  | .onDestroy =>
    if s.pendingRequests = none then none
    else some ({ s with pendingRequests := none, buffer := [], activity := s.activity + 1 }, [])

end Model

/-! ## What a move does -/

/-- The moves. -/
inductive Did {PendingIntent ActivityResult : Type} (s : Ui PendingIntent ActivityResult) :
    Event PendingIntent ActivityResult →
    Ui PendingIntent ActivityResult × List (Output PendingIntent ActivityResult) → Prop
  | requested {pendingIntent buffer emitted}
    (hbuffer : buffer = s.buffer ∨ buffer = s.buffer ++ [s.requests.length]) :
    Did s (.requestUserInteraction pendingIntent)
      ({ s with
          requests := s.requests ++ [⟨pendingIntent, none, !emitted⟩]
          buffer := buffer },
        if emitted then [] else [.returned s.requests.length none])
  | launched {queue n rest} (hqueue : s.pendingRequests = some queue)
    (hbuffer : s.buffer = n :: rest) : Did s (.collect false)
      ({ s with
          buffer := rest
          pendingRequests := some (queue ++ [n])
          launches := s.launches ++ [⟨n, s.activity⟩] },
        s.requests[n]?.toList.map fun r => .launched r.pendingIntent)
  | thrown {queue n rest} (hqueue : s.pendingRequests = some queue)
    (hbuffer : s.buffer = n :: rest) : Did s (.collect true)
      ({ s with
          buffer := rest
          pendingRequests := some ((queue ++ [n]).erase n) }.deliver n none, [])
  | delivered {queue n launch rest result} (hqueue : s.pendingRequests = some (n :: queue))
    (hlaunches : s.launches = launch :: rest) : Did s (.result result)
      ({ s with pendingRequests := some queue, launches := rest }.deliver n (some result),
        [.delivered n launch.request result])
  | spurious {launch rest result} (hqueue : s.pendingRequests = some [])
    (hlaunches : s.launches = launch :: rest) :
    Did s (.result result) ({ s with launches := rest }, [])
  | polled {n r slot} (hr : s.requests[n]? = some r) (hslot : r.box = some slot) :
    Did s (.poll n) (s.leave n, [.returned n slot])
  | timedOut {n} : Did s (.timeout n) (s.leave n, [.returned n none])
  | created (hnone : s.pendingRequests = none) :
    Did s .onCreate ({ s with pendingRequests := some [] }, [])
  | destroyed : Did s .onDestroy
      ({ s with pendingRequests := none, buffer := [], activity := s.activity + 1 }, [])

section Did

variable {PendingIntent ActivityResult : Type} {s : Ui PendingIntent ActivityResult}

/-- A request is lost, refused, or at the end of the buffer. -/
theorem tryEmit_buffer (n : ℕ) :
    ∃ buffer, (buffer = s.buffer ∨ buffer = s.buffer ++ [n]) ∧
      (s.tryEmit n).1 = { s with buffer := buffer } := by
  rw [Ui.tryEmit.eq_def]
  split
  · exact ⟨s.buffer, .inl rfl, rfl⟩
  · split_ifs
    · exact ⟨_, .inr rfl, rfl⟩
    · exact ⟨s.buffer, .inl rfl, rfl⟩

theorem did_of_cryptoUi {event : Event PendingIntent ActivityResult} {out}
    (h : cryptoUi s event = some out) : Did s event out := by
  cases event with
  | requestUserInteraction pendingIntent =>
    obtain ⟨buffer, hbuffer, hs⟩ := tryEmit_buffer (s := s) s.requests.length
    have hout : out = ({ (s.tryEmit s.requests.length).1 with
        requests := (s.tryEmit s.requests.length).1.requests ++
          [⟨pendingIntent, none, !(s.tryEmit s.requests.length).2⟩] },
        if (s.tryEmit s.requests.length).2 then [] else [.returned s.requests.length none]) :=
      (Option.some.inj h).symm
    rw [hout, hs]
    exact .requested hbuffer
  | collect throws =>
    rw [cryptoUi] at h
    split at h
    · next queue n rest hqueue hbuffer =>
      cases throws with
      | true =>
        obtain rfl := Option.some.inj h
        exact .thrown hqueue hbuffer
      | false =>
        obtain rfl := Option.some.inj h
        exact .launched hqueue hbuffer
    · cases h
  | result result =>
    rw [cryptoUi] at h
    split at h
    · next n queue launch rest hqueue hlaunches =>
      obtain rfl := Option.some.inj h
      exact .delivered hqueue hlaunches
    · next launch rest hqueue hlaunches =>
      obtain rfl := Option.some.inj h
      exact .spurious hqueue hlaunches
    · cases h
  | poll n =>
    obtain ⟨r, hr, h⟩ := Option.bind_eq_some_iff.1 h
    split_ifs at h with hreturned
    obtain ⟨slot, hslot, rfl⟩ := Option.map_eq_some_iff.1 h
    exact .polled hr hslot
  | timeout n =>
    obtain ⟨r, -, h⟩ := Option.bind_eq_some_iff.1 h
    split_ifs at h with hreturned
    obtain rfl := Option.some.inj h
    exact .timedOut
  | onCreate =>
    rw [cryptoUi] at h
    split_ifs at h with hnone
    obtain rfl := Option.some.inj h
    exact .created hnone
  | onDestroy =>
    rw [cryptoUi] at h
    split_ifs at h with hnone
    obtain rfl := Option.some.inj h
    exact .destroyed

end Did

/-! ## Launches and the queue -/

section Paired

variable {PendingIntent ActivityResult : Type} {s : Ui PendingIntent ActivityResult}
  {x : Move (Ui PendingIntent ActivityResult) (Event PendingIntent ActivityResult)
    (Output PendingIntent ActivityResult)}

/-- The next result is that of a launch of this Activity, or no request is in its queue. -/
def Ui.Settled (s : Ui PendingIntent ActivityResult) : Prop :=
  ∀ launch ∈ s.launches.head?, launch.activity = s.activity ∨ s.pendingRequests.getD [] = []

instance : Decidable s.Settled :=
  inferInstanceAs (Decidable (∀ launch ∈ s.launches.head?,
    launch.activity = s.activity ∨ s.pendingRequests.getD [] = []))

/-- The queue is the end of the launches; those before it are of earlier Activities. No request is
there twice. -/
structure Paired (s : Ui PendingIntent ActivityResult) : Prop where
  launches : ∃ earlier, (∀ launch ∈ earlier, launch.activity < s.activity) ∧
    s.launches = earlier ++ (s.pendingRequests.getD []).map fun n => ⟨n, s.activity⟩
  nodup : (s.launches.map Launch.request ++ s.buffer).Nodup
  numbered : ∀ n ∈ s.launches.map Launch.request ++ s.buffer, n < s.requests.length

@[simp] theorem deliver_requests {n : ℕ} {result : Option ActivityResult} :
    (s.deliver n result).requests.length = s.requests.length := List.length_modify ..

@[simp] theorem leave_requests {n : ℕ} : (s.leave n).requests.length = s.requests.length :=
  List.length_modify ..

/-- Nothing new is launched or queued, but for what has been emitted. -/
theorem Paired.of_sublist {s' : Ui PendingIntent ActivityResult} (h : Paired s)
    (hlaunches : ∃ earlier, (∀ launch ∈ earlier, launch.activity < s'.activity) ∧
      s'.launches = earlier ++ (s'.pendingRequests.getD []).map fun n => ⟨n, s'.activity⟩)
    (hsublist : (s'.launches.map Launch.request ++ s'.buffer).Sublist
      (s.launches.map Launch.request ++ s.buffer))
    (hlength : s'.requests.length = s.requests.length) : Paired s' where
  launches := hlaunches
  nodup := h.nodup.sublist hsublist
  numbered n hn := by
    rw [hlength]
    exact h.numbered n (hsublist.subset hn)

/-- A new request is numbered, and may be emitted. -/
theorem Paired.request {buffer : List ℕ} {r : CryptoUiRequest PendingIntent ActivityResult}
    (h : Paired s) (hbuffer : buffer = s.buffer ∨ buffer = s.buffer ++ [s.requests.length]) :
    Paired { s with requests := s.requests ++ [r], buffer := buffer } := by
  have hnew : s.requests.length ∉ s.launches.map Launch.request ++ s.buffer :=
    fun hmem => Nat.lt_irrefl _ (h.numbered _ hmem)
  have hlt : ∀ n ∈ s.launches.map Launch.request ++ s.buffer, n < (s.requests ++ [r]).length := by
    intro n hn
    have hn' := h.numbered n hn
    rw [List.length_append, List.length_singleton]
    omega
  refine ⟨h.launches, ?_, ?_⟩
  · rcases hbuffer with rfl | rfl
    · exact h.nodup
    · have hnodup := h.nodup.concat hnew
      rwa [List.concat_eq_append, List.append_assoc] at hnodup
  · rcases hbuffer with rfl | rfl
    · exact hlt
    · intro n hn
      rw [← List.append_assoc, List.mem_append, List.mem_singleton] at hn
      rcases hn with hn | rfl
      · exact hlt n hn
      · simp

/-- A request is not in the queue before it is collected. -/
theorem Paired.not_queued {n : ℕ} {rest queue : List ℕ} (h : Paired s)
    (hbuffer : s.buffer = n :: rest) (hqueue : s.pendingRequests = some queue) : n ∉ queue := by
  intro hmem
  obtain ⟨earlier, -, hl⟩ := h.launches
  have hdisjoint := List.disjoint_of_nodup_append h.nodup
  refine hdisjoint (a := n) ?_ (by simp [hbuffer])
  rw [hl, hqueue]
  simp [hmem]

/-- What is delivered goes to the request that was launched. -/
def Right (outputs : List (Output PendingIntent ActivityResult)) : Prop :=
  ∀ request launch result, .delivered request launch result ∈ outputs → request = launch

theorem right_delivered {n launch : ℕ} {result : ActivityResult} :
    Right ([.delivered n launch result] : List (Output PendingIntent ActivityResult)) ↔
      n = launch := by
  constructor
  · exact fun h => h n launch result List.mem_cons_self
  · intro h request launch' result' hmem
    obtain ⟨rfl, rfl, rfl⟩ := Output.delivered.inj (List.mem_singleton.1 hmem)
    exact h

/-- A result meets a request: it is the right one where the launch is of this Activity. -/
theorem delivered_move {n : ℕ} {queue : List ℕ} {launch : Launch} {rest : List Launch}
    (h : Paired s) (hqueue : s.pendingRequests = some (n :: queue))
    (hlaunches : s.launches = launch :: rest) :
    (n = launch.request ↔ s.Settled) ∧
      (s.Settled → Paired { s with pendingRequests := some queue, launches := rest }) := by
  obtain ⟨earlier, hearlier, hl⟩ := h.launches
  rw [hqueue, Option.getD_some, List.map_cons, hlaunches] at hl
  have hsettled : s.Settled ↔ launch.activity = s.activity := by
    simp [Ui.Settled, hqueue, hlaunches]
  rw [hsettled]
  cases earlier with
  | nil =>
    obtain ⟨rfl, rfl⟩ := List.cons.inj hl
    refine ⟨⟨fun _ => rfl, fun _ => rfl⟩, fun _ => h.of_sublist ⟨[], nofun, rfl⟩ ?_ rfl⟩
    rw [hlaunches]
    exact (List.sublist_cons_self _ _).append_right _
  | cons first earlier =>
    obtain ⟨rfl, rfl⟩ := List.cons.inj hl
    have hless := hearlier launch List.mem_cons_self
    refine ⟨⟨fun heq => ?_, fun heq => ?_⟩, fun heq => ?_⟩
    · -- the head of the queue is launched too, further back
      have hnodup := (List.nodup_append.1 h.nodup).1
      rw [hlaunches, List.map_cons, List.nodup_cons] at hnodup
      exact absurd (by simp [heq]) hnodup.1
    · omega
    · omega

/-- **Launches and the queue stay in step**, and a result reaches its request, as long as no result
of an earlier Activity meets a request in the queue. -/
theorem paired_move {event : Event PendingIntent ActivityResult} {out} (hdid : Did s event out)
    (h : Paired s) :
    (Right out.2 ↔ (event.isResult = true → s.Settled)) ∧
      ((event.isResult = true → s.Settled) → Paired out.1) := by
  obtain ⟨earlier, hearlier, hl⟩ := h.launches
  cases hdid with
  | delivered hqueue hlaunches =>
    rw [right_delivered]
    obtain ⟨hright, hpaired⟩ := delivered_move h hqueue hlaunches
    refine ⟨by simpa [Event.isResult] using hright, fun hsettled => ?_⟩
    have hafter := hpaired (hsettled rfl)
    exact hafter.of_sublist hafter.launches (.refl _) deliver_requests
  | @spurious launch rest result hqueue hlaunches =>
    have hsettled : s.Settled := by simp [Ui.Settled, hqueue]
    refine ⟨by simp [Right, hsettled], fun _ => h.of_sublist ⟨rest, ?_, ?_⟩ ?_ rfl⟩
    · rw [hqueue, hlaunches, Option.getD_some, List.map_nil, List.append_nil] at hl
      exact fun l hl' => hearlier l (hl ▸ List.mem_cons_of_mem _ hl')
    · simp [hqueue]
    · rw [hlaunches]
      exact (List.sublist_cons_self _ _).append_right _
  | requested hbuffer =>
    refine ⟨?_, fun _ => h.request hbuffer⟩
    split_ifs <;> simp [Right, Event.isResult]
  | launched hqueue hbuffer =>
    refine ⟨by simp [Right, Event.isResult], fun _ => h.of_sublist ⟨earlier, hearlier, ?_⟩ ?_ rfl⟩
    · simp [hl, hqueue]
    · simp [hbuffer]
  | @thrown queue n rest hqueue hbuffer =>
    have herase : (queue ++ [n]).erase n = queue := by
      rw [List.erase_append_right _ (h.not_queued hbuffer hqueue), List.erase_cons_head,
        List.append_nil]
    rw [herase]
    refine ⟨by simp [Right, Event.isResult], fun _ => ?_⟩
    refine h.of_sublist ⟨earlier, hearlier, by rw [← hqueue]; exact hl⟩ ?_ deliver_requests
    rw [hbuffer]
    exact (List.sublist_cons_self _ _).append_left _
  | polled hr hslot =>
    exact ⟨by simp [Right, Event.isResult],
      fun _ => h.of_sublist h.launches (.refl _) leave_requests⟩
  | timedOut =>
    exact ⟨by simp [Right, Event.isResult],
      fun _ => h.of_sublist h.launches (.refl _) leave_requests⟩
  | created hnone =>
    refine ⟨by simp [Right, Event.isResult], fun _ => h.of_sublist ?_ (.refl _) rfl⟩
    have hlaunches := h.launches
    rwa [hnone] at hlaunches
  | destroyed =>
    refine ⟨by simp [Right, Event.isResult],
      fun _ => h.of_sublist ⟨s.launches, ?_, by simp⟩ ((List.nil_sublist _).append_left _) rfl⟩
    -- the launches of this Activity are of an earlier one now
    intro launch hlaunch
    rw [hl, List.mem_append, List.mem_map] at hlaunch
    rcases hlaunch with hlaunch | ⟨n, -, rfl⟩
    · exact Nat.lt_succ_of_lt (hearlier launch hlaunch)
    · exact Nat.lt_succ_self _

end Paired

/-! ## Results and callers -/

section Reached

variable {PendingIntent ActivityResult : Type} {s : Ui PendingIntent ActivityResult}
  {x : Move (Ui PendingIntent ActivityResult) (Event PendingIntent ActivityResult)
    (Output PendingIntent ActivityResult)}
  {run : List (Move (Ui PendingIntent ActivityResult) (Event PendingIntent ActivityResult)
    (Output PendingIntent ActivityResult))} {t : Ui PendingIntent ActivityResult}

/-- A result is in the box of a request. -/
def Ui.Holds (s : Ui PendingIntent ActivityResult) (n : ℕ) (result : ActivityResult) : Prop :=
  ∃ r, s.requests[n]? = some r ∧ r.box = some (some result)

theorem holds_deliver {n m : ℕ} {result : ActivityResult} {delivered : Option ActivityResult}
    (h : (s.deliver m delivered).Holds n result) :
    s.Holds n result ∨ n = m ∧ delivered = some result := by
  obtain ⟨r, hr, hbox⟩ := h
  rw [Ui.deliver, List.getElem?_modify] at hr
  obtain ⟨r', hr', rfl⟩ := Option.map_eq_some_iff.1 hr
  split_ifs at hbox with hm hempty
  · exact .inr ⟨hm.symm, by simpa using hbox⟩
  · exact .inl ⟨r', hr', hbox⟩
  · exact .inl ⟨r', hr', hbox⟩

theorem holds_leave {n m : ℕ} {result : ActivityResult} (h : (s.leave m).Holds n result) :
    s.Holds n result := by
  obtain ⟨r, hr, hbox⟩ := h
  rw [Ui.leave, List.getElem?_modify] at hr
  obtain ⟨r', hr', rfl⟩ := Option.map_eq_some_iff.1 hr
  by_cases hm : m = n
  · rw [if_pos hm] at hbox
    cases hbox
  · rw [if_neg hm] at hbox
    exact ⟨r', hr', hbox⟩

/-- What comes into a box is delivered. -/
theorem holds_move {event : Event PendingIntent ActivityResult} {out} {n : ℕ}
    {result : ActivityResult} (hdid : Did s event out) (h : out.1.Holds n result) :
    s.Holds n result ∨ ∃ launch, .delivered n launch result ∈ out.2 := by
  cases hdid with
  | requested hbuffer =>
    obtain ⟨r, hr, hbox⟩ := h
    rw [List.getElem?_append] at hr
    split_ifs at hr with hn
    · exact .inl ⟨r, hr, hbox⟩
    · -- a new box is empty
      obtain rfl := List.mem_singleton.1 (List.mem_of_getElem? hr)
      cases hbox
  | thrown hqueue hbuffer =>
    rcases holds_deliver h with hbefore | ⟨-, hnull⟩
    · exact .inl hbefore
    · cases hnull
  | @delivered queue m launch rest result' hqueue hlaunches =>
    rcases holds_deliver h with hbefore | ⟨rfl, hresult⟩
    · exact .inl hbefore
    · obtain rfl := Option.some.inj hresult
      exact .inr ⟨launch.request, List.mem_cons_self⟩
  | polled hr hslot => exact .inl (holds_leave h)
  | timedOut => exact .inl (holds_leave h)
  | launched hqueue hbuffer => exact .inl h
  | spurious hqueue hlaunches => exact .inl h
  | created hnone => exact .inl h
  | destroyed => exact .inl h

/-- A thread that returns a result has taken it from its box. -/
theorem returned_move {event : Event PendingIntent ActivityResult} {out} {n : ℕ}
    {result : ActivityResult} (hdid : Did s event out)
    (h : .returned n (some result) ∈ out.2) : s.Holds n result := by
  cases hdid with
  | polled hr hslot =>
    obtain ⟨rfl, rfl⟩ := Output.returned.inj (List.mem_singleton.1 h)
    exact ⟨_, hr, hslot⟩
  | requested hbuffer => split_ifs at h <;> simp at h
  | _ => simp at h

/-- Results reach the right caller. -/
structure Reached (run : List (Move (Ui PendingIntent ActivityResult)
    (Event PendingIntent ActivityResult) (Output PendingIntent ActivityResult))) : Prop where
  /-- A result is delivered to the request whose `PendingIntent` was launched, -/
  delivered : ∀ request launch result, .delivered request launch result ∈ shown run →
    request = launch
  /-- and that is the result with which a thread returns. -/
  returned : ∀ past x rest, run = past ++ x :: rest → ∀ request result,
    .returned request (some result) ∈ x.outputs → .delivered request request result ∈ shown past

/-- **When every result reaches its request**: whenever a result comes that is of a launch of an
earlier Activity, no request is in the queue. -/
theorem results_reach_iff (hrun : Runs cryptoUi .start run t) :
    Reached run ↔ ∀ x ∈ run, x.event.isResult = true → x.before.Settled := by
  have hstart : Paired (Ui.start : Ui PendingIntent ActivityResult) :=
    ⟨⟨[], nofun, rfl⟩, .nil, nofun⟩
  constructor
  · intro h
    have hright : ∀ x ∈ run, Right x.outputs := fun x hx request launch result ho =>
      h.delivered request launch result (mem_shown.2 ⟨x, hx, ho⟩)
    refine hrun.moves (I := Paired) (fun x hx hr hp => ?_) hright hstart
    obtain ⟨hiff, hkeeps⟩ := paired_move (did_of_cryptoUi hx) hp
    exact ⟨hkeeps (hiff.1 hr), hiff.1 hr⟩
  · intro h
    have hright : ∀ x ∈ run, Right x.outputs := by
      refine hrun.moves (I := Paired) (fun x hx hs hp => ?_) h hstart
      obtain ⟨hiff, hkeeps⟩ := paired_move (did_of_cryptoUi hx) hp
      exact ⟨hkeeps hs, hiff.2 hs⟩
    have hdelivered : ∀ request launch result, .delivered request launch result ∈ shown run →
        request = launch := by
      intro request launch result ho
      obtain ⟨x, hx, ho⟩ := mem_shown.1 ho
      exact hright x hx request launch result ho
    refine ⟨hdelivered, ?_⟩
    rintro past x rest rfl request result hreturned
    obtain ⟨hpast, hx, -⟩ := hrun.split
    have hboxes : ∀ n result, x.before.Holds n result →
        ∃ launch, .delivered n launch result ∈ shown past := by
      refine hpast.history (I := fun past s => ∀ n result, s.Holds n result →
        ∃ launch, .delivered n launch result ∈ shown past) ?_ ?_
      · intro past y hy ih n result hholds
        rw [shown_snoc]
        rcases holds_move (did_of_cryptoUi hy) hholds with hbefore | ⟨launch, hnow⟩
        · obtain ⟨launch, hmem⟩ := ih n result hbefore
          exact ⟨launch, List.mem_append_left _ hmem⟩
        · exact ⟨launch, List.mem_append_right _ hnow⟩
      · rintro n result ⟨r, hr, -⟩
        cases hr
    obtain ⟨launch, hmem⟩ := hboxes request result (returned_move (did_of_cryptoUi hx) hreturned)
    have hlaunch := hdelivered request launch result (by
      simp only [shown, List.flatMap_append, List.mem_append]
      exact .inl hmem)
    rwa [← hlaunch] at hmem

/-- A request times out, and its result comes late; another is thrown out at its launch; the result
of a third comes to the next Activity before there is a request again. -/
def lateResults : List (Event ℕ ℕ) :=
  [.onCreate, .requestUserInteraction 10, .collect false, .timeout 0, .requestUserInteraction 11,
    .collect false, .requestUserInteraction 12, .collect true, .result 100, .result 110, .poll 1,
    .poll 2, .requestUserInteraction 13, .collect false, .onDestroy, .onCreate, .result 130,
    .requestUserInteraction 14, .collect false, .result 140, .poll 4]

theorem lateResults_run : (exec cryptoUi .start lateResults).isSome = true := by decide

theorem results_reach_late :
    Reached ((exec cryptoUi .start lateResults).get lateResults_run).1 :=
  (results_reach_iff (get_runs lateResults_run)).2 (by decide)

/-- The Activity is created again while the user is asked for a first request; the result meets a
second. -/
def rotation : List (Event ℕ ℕ) :=
  [.onCreate, .requestUserInteraction 10, .collect false, .onDestroy, .onCreate,
    .requestUserInteraction 11, .collect false, .result 100, .poll 1]

theorem rotation_run : (exec cryptoUi .start rotation).isSome = true := by decide

/-- **A result reaches another caller**, when the Activity is created again in between. -/
theorem rotation_misdelivers :
    Runs cryptoUi .start ((exec cryptoUi .start rotation).get rotation_run).1
        ((exec cryptoUi .start rotation).get rotation_run).2 ∧
      shown ((exec cryptoUi .start rotation).get rotation_run).1 =
        [.launched 10, .launched 11, .delivered 1 0 100, .returned 1 (some 100)] ∧
      ¬ Reached ((exec cryptoUi .start rotation).get rotation_run).1 := by
  have hshown : shown ((exec cryptoUi .start rotation).get rotation_run).1 =
      [.launched 10, .launched 11, .delivered 1 0 100, .returned 1 (some 100)] := rfl
  refine ⟨get_runs rotation_run, hshown, fun h => ?_⟩
  have hsame := h.delivered 1 0 100 (by simp [hshown])
  omega

end Reached

end CryptoUi

end Bypass
