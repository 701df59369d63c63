import Bypass.Extension.FirstLine
import Bypass.Extension.HostSession

/-!
# The popup

The popup of the extension (`popup.ts`) lists the entries, searches them while the user types, and
copies the password of an entry. Each of these is a request, and the popup goes on when its promise
is settled; meanwhile the user types on, and clicks. What it is for does not speak of messages: it is
a queue of questions about a map, answered in order.

* `popupOnMap`: the popup on the map.
* `popupOnMap_run`: what holds of every run: where the list is on its way to, and what was copied.
-/

namespace Bypass

/-! ## The page -/

/-- What `trim` of the script takes away: white space, and the ends of lines. -/
def isJsSpace (c : Char) : Bool :=
  c ∈ "\t\n\x0b\x0c\r \u00a0\u1680\u2028\u2029\u202f\u205f\u3000\ufeff".toList ||
    ('\u2000' ≤ c && c ≤ '\u200a')

/-- `trim` of the script. -/
def jsTrim (s : Str) : Str := (s.dropWhile isJsSpace).rdropWhile isJsSpace

/-- Where `main` is: the listener of the input is there when it is ready. -/
inductive PopupStage where
  | unopened
  | loading
  | ready
  | failed
  deriving DecidableEq

/-- The page: `timer` has the text of a search that is put off, and `writing` the entries whose
passwords are being written to the clipboard. -/
structure Page where
  stage : PopupStage
  timer : Option Str
  entries : List Str
  status : Str
  isError : Bool
  writing : List Str
  deriving DecidableEq

/-- The page before `main`. -/
def Page.blank : Page := ⟨.unopened, none, [], [], false, []⟩

instance Page.decidableEntries (p : Page) (path : Str) : Decidable (path ∈ p.entries) :=
  inferInstance

instance Page.decidableWriting (p : Page) (path : Str) : Decidable (path ∈ p.writing) :=
  inferInstance

/-- What the popup waits for: the entries to begin with, those of a search, or a password. -/
inductive Awaiting where
  | load
  | search (pattern : Str)
  | copy (path : Str)
  deriving DecidableEq

/-- The request. -/
def Awaiting.body : Awaiting → RequestBody
  | .load => .ls none
  | .search pattern => if pattern = [] then .ls none else .find pattern
  | .copy path => .show path none

/-- What stands on the page meanwhile. -/
def Awaiting.status : Awaiting → Str
  | .load => "Loading…".toList
  | .search pattern => if pattern = [] then "Loading…".toList else "Searching…".toList
  | .copy path => "Decrypting ".toList ++ path ++ "…".toList

/-- What stands before an error. -/
def Awaiting.failure : Awaiting → Str
  | .load => "Initial load failed: ".toList
  | .search _ => "Search failed: ".toList
  | .copy _ => "Copy failed: ".toList

/-- `unwrapEntries`. -/
def unwrapEntries : Reply → Except Str (List Str)
  | .ok _ (.entries entries) => .ok entries
  | .ok _ _ => .error "reply missing `entries`".toList
  | .err _ error => .error error

namespace Page

variable (p : Page)

/-- `setStatus`. -/
def setStatus (text : Str) (isError : Bool) : Page := { p with status := text, isError }

/-- `renderEntries`. -/
def renderEntries (entries : List Str) : Page :=
  let cleared := { p with entries := [] }
  if entries = [] then cleared.setStatus "No matches.".toList false
  else
    let matches_ := if entries.length = 1 then " match.".toList else " matches.".toList
    { cleared.setStatus (Nat.toDigits 10 entries.length ++ matches_) false with entries }

/-- A promise is rejected. -/
def reject (what : Awaiting) (error : Str) : Page :=
  let p := p.setStatus (what.failure ++ error) true
  match what with
  | .load => { p with stage := .failed }
  | .search _ => p
  | .copy _ => p

/-- A promise is resolved: the page, and what is written to the clipboard. -/
def resolve (what : Awaiting) (reply : Reply) : Page × List Str :=
  match what with
  | .load =>
    match unwrapEntries reply with
    | .ok entries => ({ p.renderEntries entries with stage := .ready }, [])
    | .error e => (p.reject what e, [])
  | .search _ =>
    match unwrapEntries reply with
    | .ok entries => (p.renderEntries entries, [])
    | .error e => (p.reject what e, [])
  | .copy path =>
    match copyFirstLine reply with
    | .ok password => ({ p with writing := p.writing ++ [path] }, [password])
    | .error e => (p.reject what e, [])

/-- The clipboard is written, or it fails. -/
def wrote (path : Str) (result : Except Str Unit) : Page :=
  let p := { p with writing := p.writing.erase path }
  match result with
  | .ok () =>
    p.setStatus ("Copied ".toList ++ path ++
      ". Clipboard will need to be cleared manually.".toList) false
  | .error e => p.reject (.copy path) e

end Page

/-- What happens to a popup. `connected` and `posted` are what `connectNative` and `postMessage` do,
and `message` is the `lastError`. A text that is typed before there is a listener is not heard. -/
inductive PopupEvent where
  | opened (connected posted : Except Str Unit)
  | typed (value : Str)
  | fired (posted : Except Str Unit)
  | clicked (path : Str) (posted : Except Str Unit)
  | serve
  | deliver
  | disconnect (message : Option Str)
  | wrote (path : Str) (result : Except Str Unit)

/-! ## On the map -/

section OnMap

variable {CE SE VE : Type} (platform : HostPlatform CE SE VE) (m : EntryMap)

/-- The entries that a pattern is in. -/
def EntryMap.listed (pattern : Str) : List Str :=
  ((m.entriesBelow none).filter fun e => decide (pattern <:+: e.str)).map RelPath.str

/-- The password of the entry at a path, if its plaintext is a text. -/
def EntryMap.password (path : Str) : Option Str := do
  let e ← (RelPath.new path).toOption
  let plaintext ← m[e]?
  let text ← utf8Decode? plaintext
  pure (firstLine text)

/-- The reply to a request of the popup. -/
def EntryMap.reply (id : ℕ) : Awaiting → Reply
  | .load => .ok id (.entries (m.listed []))
  | .search pattern => .ok id (.entries (m.listed pattern))
  | .copy path =>
    match parsePath platform path with
    | .error e => .err id e
    | .ok rel =>
      match m[rel]? with
      | none => .err id (notFoundText rel)
      | some plaintext => showReply platform id none plaintext

/-- The page, and what it waits for. -/
structure PopupView where
  page : Page
  asked : List Awaiting

def PopupView.ask (v : PopupView) (what : Awaiting) : PopupView :=
  ⟨v.page.setStatus what.status false, v.asked ++ [what]⟩

/-- **The popup on the map**, whose port is open and takes what it is given: what was asked first is
answered first. -/
def popupOnMap : Machine PopupView PopupEvent Str := fun v e =>
  match e with
  | .opened (.ok ()) (.ok ()) =>
    if v.page.stage = .unopened then
      some (PopupView.ask { v with page := { v.page with stage := .loading } } .load, [])
    else none
  | .typed value =>
    if v.page.stage = .ready then
      some ({ v with page := { v.page with timer := some (jsTrim value) } }, [])
    else none
  | .fired (.ok ()) => v.page.timer.map fun pattern =>
    (PopupView.ask { v with page := { v.page with timer := none } } (.search pattern), [])
  | .clicked path (.ok ()) =>
    if path ∈ v.page.entries then some (v.ask (.copy path), []) else none
  | .serve => some (v, [])
  | .deliver =>
    match v.asked with
    | [] => none
    | what :: asked =>
      let (page, copied) := v.page.resolve what (m.reply platform 0 what)
      some (⟨page, asked⟩, copied)
  | .wrote path result =>
    if path ∈ v.page.writing then some ({ v with page := v.page.wrote path result }, []) else none
  | _ => none

/-! ### What is listed and copied -/

/-- What is looked for: the text of an input, and of a request. -/
def PopupEvent.pattern : PopupEvent → Option Str
  | .typed value => some (jsTrim value)
  | _ => none

def Awaiting.pattern : Awaiting → Option Str
  | .load => some []
  | .search pattern => some pattern
  | .copy _ => none

/-- The entry whose password is asked for: by a click, and by a request. -/
def PopupEvent.path : PopupEvent → Option Str
  | .clicked path _ => some path
  | _ => none

def Awaiting.path : Awaiting → Option Str
  | .load => none
  | .search _ => none
  | .copy path => some path

/-- The text that was typed last. -/
def sought (events : List PopupEvent) : Str := (events.filterMap PopupEvent.pattern).getLast?.getD []

/-- The entries that were clicked on, in order. -/
def clicks (events : List PopupEvent) : List Str := events.filterMap PopupEvent.path

/-- The pattern that the list is on its way to: that of a search that is put off, or of the last one
that was asked for. -/
def PopupView.goal (v : PopupView) : Option Str :=
  v.page.timer.or (v.asked.filterMap Awaiting.pattern).getLast?

/-- The list shows what a pattern is in, or is on its way to it. -/
def PopupView.Heads (v : PopupView) (pattern : Str) : Prop :=
  match v.goal with
  | some p => p = pattern
  | none => v.page.entries = m.listed pattern

/-- **What holds of a popup on the map**, after these events, when this was copied. -/
structure PopupView.Inv (events : List PopupEvent) (copied : List Str) (v : PopupView) : Prop where
  early : v.page.stage ≠ .ready → sought events = [] ∧ v.page.timer = none ∧
    v.page.entries = [] ∧
    (v.page.stage = .unopened ∧ v.asked = [] ∨ v.page.stage = .loading ∧ v.asked = [.load])
  heads : v.page.stage ≠ .unopened → v.Heads m (sought events)
  copies : copied ++ (v.asked.filterMap Awaiting.path).filterMap m.password =
    (clicks events).filterMap m.password

@[simp] theorem Page.renderEntries_entries (p : Page) (entries : List Str) :
    (p.renderEntries entries).entries = entries := by
  by_cases h : entries = []
  · rw [renderEntries, if_pos h, h]
    rfl
  · rw [renderEntries, if_neg h]

@[simp] theorem Page.renderEntries_timer (p : Page) (entries : List Str) :
    (p.renderEntries entries).timer = p.timer := by
  unfold renderEntries
  split_ifs <;> rfl

@[simp] theorem Page.renderEntries_stage (p : Page) (entries : List Str) :
    (p.renderEntries entries).stage = p.stage := by
  unfold renderEntries
  split_ifs <;> rfl

variable {m} {platform}

/-- What is copied from the reply is the password. -/
theorem copyFirstLine_reply (id : ℕ) (path : Str) :
    (copyFirstLine (m.reply platform id (.copy path))).toOption = m.password path := by
  dsimp only [EntryMap.reply, EntryMap.password, parsePath]
  cases RelPath.new path with
  | error e => rfl
  | ok rel =>
    dsimp only [Except.mapError, Except.toOption, Option.bind_eq_bind, Option.bind_some]
    cases m[rel]? with
    | none => rfl
    | some plaintext =>
      dsimp only [EntryMap.showReply, Option.bind_some]
      cases utf8Decode? plaintext <;> rfl

variable (platform m) in
/-- **A promise is resolved** with the reply that the map gives. -/
theorem Page.resolve_reply (p : Page) (id : ℕ) (what : Awaiting) :
    (p.resolve what (m.reply platform id what)).1.timer = p.timer ∧
      (p.resolve what (m.reply platform id what)).1.entries =
        (what.pattern.map m.listed).getD p.entries ∧
      (p.resolve what (m.reply platform id what)).1.stage =
        (if what = .load then .ready else p.stage) ∧
      (p.resolve what (m.reply platform id what)).2 = (what.path.bind m.password).toList := by
  cases what with
  | load => exact ⟨renderEntries_timer p _, renderEntries_entries p _, rfl, rfl⟩
  | search pattern =>
    exact ⟨renderEntries_timer p _, renderEntries_entries p _, renderEntries_stage p _, rfl⟩
  | copy path =>
    have hcopied := @copyFirstLine_reply _ _ _ platform m id path
    unfold resolve
    dsimp only
    cases hreply : copyFirstLine (m.reply platform id (.copy path)) with
    | error e =>
      rw [hreply] at hcopied
      exact ⟨rfl, rfl, rfl, by rw [Awaiting.path, Option.bind_some, ← hcopied]; rfl⟩
    | ok password =>
      rw [hreply] at hcopied
      exact ⟨rfl, rfl, rfl, by rw [Awaiting.path, Option.bind_some, ← hcopied]; rfl⟩

theorem sought_concat (events : List PopupEvent) (e : PopupEvent) :
    sought (events ++ [e]) = e.pattern.getD (sought events) := by
  rw [sought, sought, List.filterMap_append]
  cases he : e.pattern with
  | none => simp [he]
  | some pattern => simp [he]

theorem clicks_concat (events : List PopupEvent) (e : PopupEvent) :
    clicks (events ++ [e]) = clicks events ++ e.path.toList := by
  rw [clicks, clicks, List.filterMap_append]
  cases he : e.path with
  | none => simp [he]
  | some path => simp [he]

theorem PopupView.heads_of_some {v : PopupView} {p pattern : Str} (h : v.goal = some p) :
    v.Heads m pattern ↔ p = pattern := by
  rw [Heads, h]

theorem PopupView.heads_of_none {v : PopupView} {pattern : Str} (h : v.goal = none) :
    v.Heads m pattern ↔ v.page.entries = m.listed pattern := by
  rw [Heads, h]

/-- Where the list is on its way to is a matter of the goal, and of the entries when there is none. -/
theorem PopupView.Heads.of_goal {v v' : PopupView} {pattern : Str} (h : v.Heads m pattern)
    (hgoal : v'.goal = v.goal) (hentries : v'.page.entries = v.page.entries) :
    v'.Heads m pattern := by
  rw [Heads, hgoal, hentries]
  exact h

theorem PopupView.filterMap_ask (v : PopupView) (what : Awaiting) (f : Awaiting → Option Str) :
    (v.ask what).asked.filterMap f = v.asked.filterMap f ++ (f what).toList := by
  rw [ask, List.filterMap_append, List.filterMap_cons, List.filterMap_nil]
  cases f what <;> rfl

/-- A question about a pattern is asked. -/
theorem PopupView.goal_ask {v : PopupView} {what : Awaiting} {pattern : Str}
    (htimer : v.page.timer = none) (hwhat : what.pattern = some pattern) :
    (v.ask what).goal = some pattern := by
  have hask : (v.ask what).page.timer = none := htimer
  rw [goal, hask, filterMap_ask, hwhat, Option.none_or, Option.toList_some, List.getLast?_concat]

/-- **An answer keeps the list on its way.** -/
theorem PopupView.Heads.deliver {v : PopupView} {pattern : Str} (h : v.Heads m pattern)
    {what : Awaiting} {asked : List Awaiting} (hasked : v.asked = what :: asked) :
    PopupView.Heads m ⟨(v.page.resolve what (m.reply platform 0 what)).1, asked⟩ pattern := by
  obtain ⟨htimer, hentries, -, -⟩ := v.page.resolve_reply platform m 0 what
  cases hwhat : what.pattern with
  | none =>
    rw [hwhat] at hentries
    exact h.of_goal (by simp [goal, htimer, hasked, hwhat]) hentries
  | some p =>
    rw [hwhat] at hentries
    have hbefore : v.goal =
        (v.page.timer.or (asked.filterMap Awaiting.pattern).getLast?).or (some p) := by
      rw [goal, hasked, List.filterMap_cons_some hwhat, List.getLast?_cons, Option.or_assoc]
      cases (asked.filterMap Awaiting.pattern).getLast? <;> rfl
    have hafter : PopupView.goal ⟨(v.page.resolve what (m.reply platform 0 what)).1, asked⟩ =
        v.page.timer.or (asked.filterMap Awaiting.pattern).getLast? := by
      rw [goal, htimer]
    cases hgoal : v.page.timer.or (asked.filterMap Awaiting.pattern).getLast? with
    | some q =>
      -- it was not the last question
      rw [hgoal, Option.some_or] at hbefore
      exact (heads_of_some (hafter.trans hgoal)).2 ((heads_of_some hbefore).1 h)
    | none =>
      rw [hgoal, Option.none_or] at hbefore
      rw [heads_of_none (hafter.trans hgoal), hentries, ← (heads_of_some hbefore).1 h]
      rfl

/-- What has become of the clipboard is no matter of the list. -/
theorem Page.wrote_list (p : Page) (path : Str) (result : Except Str Unit) :
    (p.wrote path result).stage = p.stage ∧ (p.wrote path result).timer = p.timer ∧
      (p.wrote path result).entries = p.entries := by
  cases result <;> exact ⟨rfl, rfl, rfl⟩

/-- **What one event keeps.** -/
theorem popupOnMap_inv {past : List (Move PopupView PopupEvent Str)}
    {x : Move PopupView PopupEvent Str} (hx : (popupOnMap platform m).Makes x)
    (h : x.before.Inv m (past.map Move.event) (Machine.shown past)) :
    x.after.Inv m ((past ++ [x]).map Move.event) (Machine.shown (past ++ [x])) := by
  obtain ⟨v, e, t, outputs⟩ := x
  rw [Machine.shown_snoc, List.map_append, List.map_singleton]
  unfold Machine.Makes popupOnMap at hx
  dsimp only at hx h ⊢
  split at hx
  · -- `main` asks for all entries
    split_ifs at hx with hstage
    obtain ⟨rfl, rfl⟩ := Prod.mk.inj (Option.some.inj hx)
    obtain ⟨hsought, htimer, hnil, ⟨-, hasked⟩ | ⟨hloading, -⟩⟩ := h.early (by rw [hstage]; decide)
    · refine ⟨fun _ => ⟨?_, htimer, hnil, Or.inr ⟨rfl, ?_⟩⟩, fun _ => ?_, ?_⟩
      · rwa [sought_concat]
      · rw [PopupView.ask, hasked]
        rfl
      · refine (PopupView.heads_of_some (PopupView.goal_ask htimer rfl)).2 ?_
        rw [sought_concat]
        exact hsought.symm
      · simpa [PopupView.filterMap_ask, clicks_concat, PopupEvent.path, Awaiting.path] using h.copies
    · rw [hstage] at hloading
      cases hloading
  · -- the user types
    split_ifs at hx with hstage
    obtain ⟨rfl, rfl⟩ := Prod.mk.inj (Option.some.inj hx)
    refine ⟨fun hne => absurd hstage hne, fun _ => ?_, ?_⟩
    · rw [PopupView.heads_of_some rfl, sought_concat]
      rfl
    · simpa [clicks_concat, PopupEvent.path] using h.copies
  · -- the search starts
    obtain ⟨pattern, htimer, hx⟩ := Option.map_eq_some_iff.1 hx
    obtain ⟨rfl, rfl⟩ := Prod.mk.inj hx
    have hready : v.page.stage = .ready := by
      by_contra hne
      rw [(h.early hne).2.1] at htimer
      cases htimer
    have hheads := h.heads (by rw [hready]; decide)
    rw [PopupView.heads_of_some (p := pattern) (by rw [PopupView.goal, htimer, Option.some_or])]
      at hheads
    refine ⟨fun hne => absurd hready hne, fun _ => ?_, ?_⟩
    · refine (PopupView.heads_of_some (PopupView.goal_ask rfl rfl)).2 ?_
      rw [sought_concat]
      exact hheads
    · simpa [PopupView.filterMap_ask, clicks_concat, PopupEvent.path, Awaiting.path] using h.copies
  · -- the user clicks
    split_ifs at hx with hlisted
    obtain ⟨rfl, rfl⟩ := Prod.mk.inj (Option.some.inj hx)
    have hready : v.page.stage = .ready := by
      by_contra hne
      rw [(h.early hne).2.2.1] at hlisted
      cases hlisted
    refine ⟨fun hne => absurd hready hne, fun hopened => ?_, ?_⟩
    · rw [sought_concat]
      refine (h.heads hopened).of_goal ?_ rfl
      rw [PopupView.goal, PopupView.filterMap_ask, Awaiting.pattern, Option.toList_none,
        List.append_nil]
      rfl
    · rw [clicks_concat, List.filterMap_append, ← h.copies, PopupView.filterMap_ask,
        List.filterMap_append, List.append_nil, List.append_assoc]
      rfl
  · -- the host answers
    obtain ⟨rfl, rfl⟩ := Prod.mk.inj (Option.some.inj hx)
    refine ⟨fun hne => ?_, fun hopened => ?_, ?_⟩
    · rw [sought_concat]
      exact h.early hne
    · rw [sought_concat]
      exact h.heads hopened
    · simpa [clicks_concat, PopupEvent.path] using h.copies
  · -- an answer comes
    split at hx
    · cases hx
    next what asked hasked =>
      obtain ⟨rfl, rfl⟩ := Prod.mk.inj (Option.some.inj hx)
      obtain ⟨htimer, hentries, hstage, hcopied⟩ :=
        v.page.resolve_reply platform m 0 what
      refine ⟨fun hne => ?_, fun hopened => ?_, ?_⟩
      · -- before the page is ready, the answer is that to `main`, which makes it ready
        exfalso
        have hbefore : v.page.stage ≠ .ready := fun hready => hne (by rw [hstage, hready, ite_self])
        obtain ⟨-, -, -, ⟨-, hnil⟩ | ⟨-, hload⟩⟩ := h.early hbefore
        · rw [hasked] at hnil
          cases hnil
        · rw [hasked] at hload
          exact hne (by rw [hstage, if_pos (List.cons.inj hload).1])
      · have hbefore : v.page.stage ≠ .unopened := fun hunopened => by
          obtain ⟨-, -, -, ⟨-, hnil⟩ | ⟨hloading, -⟩⟩ := h.early (by rw [hunopened]; decide)
          · rw [hasked] at hnil
            cases hnil
          · rw [hunopened] at hloading
            cases hloading
        rw [sought_concat]
        exact (h.heads hbefore).deliver hasked
      · have hcopies := h.copies
        rw [hasked, List.filterMap_cons] at hcopies
        have hnone : PopupEvent.deliver.path = none := rfl
        rw [hcopied, clicks_concat, hnone, Option.toList_none, List.append_nil, ← hcopies,
          List.append_assoc]
        cases hwhat : what.path with
        | none => rfl
        | some path =>
          cases hpassword : m.password path <;> simp [hpassword]
  · -- the clipboard is written
    split_ifs at hx with hwriting
    obtain ⟨rfl, rfl⟩ := Prod.mk.inj (Option.some.inj hx)
    next path result =>
    obtain ⟨hstage, htimer, hentries⟩ := v.page.wrote_list path result
    refine ⟨fun hne => ?_, fun hopened => ?_, ?_⟩
    · rw [hstage] at hne ⊢
      rw [sought_concat, htimer, hentries]
      exact h.early hne
    · rw [hstage] at hopened
      rw [sought_concat]
      refine (h.heads hopened).of_goal ?_ hentries
      rw [PopupView.goal, PopupView.goal, htimer]
    · simpa [clicks_concat, PopupEvent.path] using h.copies
  · cases hx

/-- **What holds of every run** of a popup on the map. -/
theorem popupOnMap_run {run : List (Move PopupView PopupEvent Str)} {v : PopupView}
    (hrun : (popupOnMap platform m).Runs ⟨.blank, []⟩ run v) :
    v.Inv m (run.map Move.event) (Machine.shown run) :=
  hrun.history (I := fun past v => v.Inv m (past.map Move.event) (Machine.shown past))
    (fun _ _ hx h => popupOnMap_inv hx h)
    ⟨fun _ => ⟨rfl, rfl, rfl, Or.inl ⟨rfl, rfl⟩⟩, fun h => absurd rfl h, rfl⟩

/-- **At rest**, the popup lists what the last search looked for, and has copied what was clicked
on. -/
theorem PopupView.Inv.rest {events : List PopupEvent} {copied : List Str} {v : PopupView}
    (h : v.Inv m events copied) (hasked : v.asked = []) :
    copied = (clicks events).filterMap m.password ∧
      (v.page.stage ≠ .unopened → v.page.timer = none →
        v.page.stage = .ready ∧ v.page.entries = m.listed (sought events)) := by
  refine ⟨?_, fun hopened htimer => ⟨?_, ?_⟩⟩
  · rw [← h.copies, hasked]
    exact (List.append_nil _).symm
  · by_contra hne
    obtain ⟨-, -, -, ⟨hunopened, -⟩ | ⟨-, hload⟩⟩ := h.early hne
    · exact hopened hunopened
    · rw [hasked] at hload
      cases hload
  · refine (heads_of_none ?_).1 (h.heads hopened)
    rw [goal, htimer, hasked]
    rfl

end OnMap

end Bypass
