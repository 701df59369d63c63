import Bypass.Cli.RenameCrash
import Bypass.Sync.Revocation

/-!
# The watcher of the store

The task of `watcher.rs` between the events of the file system and the daemon. Events queue up; those
that are relevant put off a deadline; and when it has passed, a tick is left in a channel that holds
one. The scheduler may run the task as late as it likes, and of two branches that are ready it takes
either.

* `ticks_are_paced`: **a tick has a cause**, and comes at a distance from it and from other ticks.
* `tick_in_time`: when the task is run without delay, how late a tick can be.
* `change_reaches_daemon`: **no change is lost** between the file system and the daemon.
-/

namespace Bypass

open Machine
open StorageFs (nameOf validName_git)

/-! ## Events -/

/-- A component of a path. -/
inductive PathComponent where
  | rootDir
  | curDir
  | parentDir
  | normal (name : FileName)
  deriving DecidableEq

/-- `notify::EventKind`; what else a kind says is left out. -/
inductive EventKind where
  | any
  | access
  | create
  | modify
  | remove
  | other
  deriving DecidableEq

/-- `notify::Event`. -/
structure NotifyEvent where
  kind : EventKind
  paths : List (List PathComponent)
  deriving DecidableEq

/-- `path_is_inside_git_dir`; what is outside of the root counts as inside. -/
def pathIsInsideGitDir (p root : List PathComponent) : Bool :=
  if root <+: p then
    match (p.drop root.length).head? with
    | some (.normal name) => StorageFs.isGitDir name
    | _ => false
  else true

/-- `event_is_relevant`. -/
def eventIsRelevant (event : NotifyEvent) (root : List PathComponent) : Bool :=
  match event.kind with
  | .create | .modify | .remove => event.paths.any fun p => !pathIsInsideGitDir p root
  | .any | .access | .other => false

/-! ## The task -/

/-- `DEBOUNCE`. -/
def debounce : ℕ := 500 * 10 ^ 6

/-- What the task works on: the channel of the events, its variables, the channel of the ticks, which
holds at most one, and the time. -/
structure Watcher where
  raw : List (Except Str NotifyEvent)
  pending : Bool
  deadline : Option Instant
  debounced : Bool
  now : Instant
  deriving DecidableEq

/-- What happens: the file system reports, time passes, the task takes one of its two branches, and
the daemon takes a tick. -/
inductive WatchEvent where
  | report (event : Except Str NotifyEvent)
  | elapse (d : ℕ)
  | recv
  | timer
  | tick
  deriving DecidableEq

variable {root : List PathComponent}

/-- The task of `watch`; it shows when it leaves a tick. -/
def watch (root : List PathComponent) : Machine Watcher WatchEvent Instant
  | w, .report event => some ({ w with raw := w.raw ++ [event] }, [])
  | w, .elapse d => some ({ w with now := w.now + d }, [])
  | w, .recv =>
    match w.raw with
    | [] => none
    | .error _ :: raw => some ({ w with raw }, [])
    | .ok event :: raw =>
      if eventIsRelevant event root then
        some ({ w with raw, pending := true, deadline := some (w.now + debounce) }, [])
      else some ({ w with raw }, [])
  | w, .timer =>
    match w.deadline with
    | none => none
    | some deadline =>
      if w.now < deadline then none
      else if w.pending then
        -- a tick that is there already is not doubled
        some ({ w with debounced := true, pending := false, deadline := none },
          if w.debounced then [] else [w.now])
      else some ({ w with deadline := none }, [])
  | w, .tick => if w.debounced then some ({ w with debounced := false }, []) else none

namespace Watcher

/-- How the task starts. -/
def start (now : Instant) : Watcher := ⟨[], false, none, false, now⟩

end Watcher

/-- The move reports something relevant. -/
def Reports (root : List PathComponent) (x : Move Watcher WatchEvent Instant) : Prop :=
  ∃ event, x.event = .report (.ok event) ∧ eventIsRelevant event root = true

/-- The task takes something relevant. -/
def Takes (root : List PathComponent) (x : Move Watcher WatchEvent Instant) : Prop :=
  x.event = .recv ∧ ∃ event raw, x.before.raw = .ok event :: raw ∧ eventIsRelevant event root = true

/-- What a move does. -/
inductive Watched (root : List PathComponent) (w : Watcher) :
    WatchEvent → Watcher → List Instant → Prop
  | report (event : Except Str NotifyEvent) :
      Watched root w (.report event) { w with raw := w.raw ++ [event] } []
  | elapse (d : ℕ) : Watched root w (.elapse d) { w with now := w.now + d } []
  | take {event : NotifyEvent} {raw : List (Except Str NotifyEvent)} :
      w.raw = .ok event :: raw → eventIsRelevant event root = true → Watched root w .recv
        { w with raw, pending := true, deadline := some (w.now + debounce) } []
  | skip {event : Except Str NotifyEvent} {raw : List (Except Str NotifyEvent)} :
      w.raw = event :: raw → (∀ e, event = .ok e → eventIsRelevant e root = false) →
      Watched root w .recv { w with raw } []
  | fire {deadline : Instant} : w.deadline = some deadline → deadline ≤ w.now →
      w.pending = true → Watched root w .timer
        { w with debounced := true, pending := false, deadline := none }
        (if w.debounced then [] else [w.now])
  | idle : w.pending = false → Watched root w .timer { w with deadline := none } []
  | tick : w.debounced = true → Watched root w .tick { w with debounced := false } []

theorem watched {x : Move Watcher WatchEvent Instant} (h : (watch root).Makes x) :
    Watched root x.before x.event x.after x.outputs := by
  obtain ⟨w, event, w', outputs⟩ := x
  have hmove : watch root w event = some (w', outputs) := h
  show Watched root w event w' outputs
  cases event with
  | report event =>
    obtain ⟨rfl, rfl⟩ := Prod.mk.inj (Option.some.inj hmove)
    exact .report event
  | elapse d =>
    obtain ⟨rfl, rfl⟩ := Prod.mk.inj (Option.some.inj hmove)
    exact .elapse d
  | recv =>
    dsimp only [watch] at hmove
    split at hmove
    · cases hmove
    · next e raw hraw =>
      obtain ⟨rfl, rfl⟩ := Prod.mk.inj (Option.some.inj hmove)
      exact .skip hraw nofun
    · next event raw hraw =>
      split_ifs at hmove with hrel
      · obtain ⟨rfl, rfl⟩ := Prod.mk.inj (Option.some.inj hmove)
        exact .take hraw hrel
      · obtain ⟨rfl, rfl⟩ := Prod.mk.inj (Option.some.inj hmove)
        refine .skip hraw fun e he => ?_
        rw [← Except.ok.inj he]
        exact Bool.eq_false_of_not_eq_true hrel
  | timer =>
    dsimp only [watch] at hmove
    split at hmove
    · cases hmove
    · next deadline hdeadline =>
      by_cases hearly : w.now < deadline
      · rw [if_pos hearly] at hmove
        cases hmove
      rw [if_neg hearly] at hmove
      by_cases hpending : w.pending = true
      · rw [if_pos hpending] at hmove
        obtain ⟨rfl, rfl⟩ := Prod.mk.inj (Option.some.inj hmove)
        exact .fire hdeadline (not_lt.1 hearly) hpending
      · rw [if_neg hpending] at hmove
        obtain ⟨rfl, rfl⟩ := Prod.mk.inj (Option.some.inj hmove)
        exact .idle (Bool.eq_false_of_not_eq_true hpending)
  | tick =>
    dsimp only [watch] at hmove
    split_ifs at hmove with hfull
    obtain ⟨rfl, rfl⟩ := Prod.mk.inj (Option.some.inj hmove)
    exact .tick hfull

/-! ## The pace of the ticks -/

/-- The last change that the task took: it is a deadline away, no tick came after it, and no other
change. -/
def LastTaken (root : List PathComponent) (past : List (Move Watcher WatchEvent Instant))
    (y : Move Watcher WatchEvent Instant) : Prop :=
  y ∈ past ∧ Takes root y ∧ (∀ b ∈ shown past, b ≤ y.before.now) ∧
    ∀ z ∈ past, Takes root z → z.before.now ≤ y.before.now

/-- What holds of a run, for its ticks to be paced. -/
structure Paced (root : List PathComponent) (past : List (Move Watcher WatchEvent Instant))
    (w : Watcher) : Prop where
  begun : ∀ y ∈ past, y.before.now ≤ w.now
  ticked : ∀ a ∈ shown past, a ≤ w.now
  apart : (shown past).Pairwise fun a b => a + debounce ≤ b
  pending : w.pending = true →
    ∃ y, LastTaken root past y ∧ w.deadline = some (y.before.now + debounce)

variable {past run : List (Move Watcher WatchEvent Instant)}
  {x y : Move Watcher WatchEvent Instant} {w w₀ : Watcher} {now : Instant}

/-- A move by which the task takes nothing and ticks not leaves the last change the last. -/
theorem LastTaken.snoc (h : LastTaken root past y) (hx : ¬ Takes root x) (hout : x.outputs = []) :
    LastTaken root (past ++ [x]) y := by
  obtain ⟨hmem, htakes, hticks, hlast⟩ := h
  refine ⟨List.mem_append_left _ hmem, htakes, ?_, fun z hz hzt => ?_⟩
  · rwa [shown_snoc, hout, List.append_nil]
  · rcases List.mem_append.1 hz with hz | hz
    · exact hlast z hz hzt
    · rw [List.mem_singleton.1 hz] at hzt
      exact absurd hzt hx

/-- **One move** keeps the pace. -/
theorem paced_move (hx : (watch root).Makes x) (h : Paced root past x.before) :
    Paced root (past ++ [x]) x.after := by
  obtain ⟨w, event, w', outputs⟩ := x
  have hstep : Watched root w event w' outputs := watched hx
  replace h : Paced root past w := h
  show Paced root (past ++ [⟨w, event, w', outputs⟩]) w'
  -- a move without a tick, that leaves the clock or puts it on
  have hquiet {w' : Watcher} {event : WatchEvent} (hnow : w.now ≤ w'.now)
      (hpending : w'.pending = true → ∃ y, LastTaken root (past ++ [⟨w, event, w', []⟩]) y ∧
        w'.deadline = some (y.before.now + debounce)) :
      Paced root (past ++ [⟨w, event, w', []⟩]) w' := by
    refine ⟨fun y hy => ?_, fun a ha => ?_, ?_, hpending⟩
    · rcases List.mem_append.1 hy with hy | hy
      · exact (h.begun y hy).trans hnow
      · rw [List.mem_singleton.1 hy]
        exact hnow
    · rw [shown_snoc, List.append_nil] at ha
      exact (h.ticked a ha).trans hnow
    · rw [shown_snoc, List.append_nil]
      exact h.apart
  have hkept {w' : Watcher} {event : WatchEvent}
      (hx : ¬ Takes root (⟨w, event, w', []⟩ : Move Watcher WatchEvent Instant))
      (hpending : w'.pending = w.pending) (hdeadline : w'.deadline = w.deadline) :
      w'.pending = true → ∃ y, LastTaken root (past ++ [⟨w, event, w', []⟩]) y ∧
        w'.deadline = some (y.before.now + debounce) := fun hp => by
    obtain ⟨y, hy, hd⟩ := h.pending (hpending ▸ hp)
    exact ⟨y, hy.snoc hx rfl, hdeadline.trans hd⟩
  cases hstep with
  | report event => exact hquiet le_rfl (hkept nofun rfl rfl)
  | elapse d => exact hquiet (Nat.le_add_right _ _) (hkept nofun rfl rfl)
  | take hraw hrel =>
    refine hquiet le_rfl fun _ => ⟨_, ⟨List.mem_append_right _ List.mem_cons_self,
      ⟨rfl, _, _, hraw, hrel⟩, fun b hb => ?_, fun z hz _ => ?_⟩, rfl⟩
    · rw [shown_snoc, List.append_nil] at hb
      exact h.ticked b hb
    · rcases List.mem_append.1 hz with hz | hz
      · exact h.begun z hz
      · rw [List.mem_singleton.1 hz]
  | skip hraw hirrelevant =>
    refine hquiet le_rfl (hkept ?_ rfl rfl)
    rintro ⟨-, event, raw, hraw', hrel⟩
    rw [hraw] at hraw'
    rw [hirrelevant event (List.cons.inj hraw').1] at hrel
    cases hrel
  | fire hdeadline hle hpending =>
    obtain ⟨y, ⟨-, -, hticks, -⟩, hd⟩ := h.pending hpending
    obtain rfl := Option.some.inj (hdeadline.symm.trans hd)
    have htick : ∀ a ∈ shown past, a + debounce ≤ w.now := fun a ha =>
      (Nat.add_le_add_right (hticks a ha) _).trans hle
    have hout : ∀ a ∈ (if w.debounced then [] else [w.now] : List Instant), a = w.now := by
      intro a ha
      split_ifs at ha
      · cases ha
      · exact List.mem_singleton.1 ha
    refine ⟨fun y hy => ?_, fun a ha => ?_, ?_, nofun⟩
    · rcases List.mem_append.1 hy with hy | hy
      · exact h.begun y hy
      · rw [List.mem_singleton.1 hy]
    · rw [shown_snoc] at ha
      rcases List.mem_append.1 ha with ha | ha
      · exact h.ticked a ha
      · exact (hout a ha).le
    · rw [shown_snoc]
      refine List.pairwise_append.2 ⟨h.apart, ?_, fun a ha b hb => ?_⟩
      · split_ifs
        · exact List.Pairwise.nil
        · exact List.pairwise_singleton _ _
      · rw [hout b hb]
        exact htick a ha
  | idle hpending => exact hquiet le_rfl fun hp => absurd (hpending.symm.trans hp) nofun
  | tick hfull => exact hquiet le_rfl (hkept nofun rfl rfl)

/-- What waits in the channel, and what was taken from it, was reported. -/
structure Heard (root : List PathComponent) (past : List (Move Watcher WatchEvent Instant))
    (w : Watcher) : Prop where
  raw : ∀ event, .ok event ∈ w.raw → eventIsRelevant event root = true → ∃ y ∈ past, Reports root y
  taken : ∀ y ∈ past, Takes root y → ∃ z ∈ past, Reports root z

theorem heard_move (hx : (watch root).Makes x) (h : Heard root past x.before) :
    Heard root (past ++ [x]) x.after := by
  have hlater {P : Move Watcher WatchEvent Instant → Prop} (hp : ∃ y ∈ past, P y) :
      ∃ y ∈ past ++ [x], P y := by
    obtain ⟨y, hy, hp⟩ := hp
    exact ⟨y, List.mem_append_left _ hy, hp⟩
  have hstep := watched hx
  constructor
  · intro event hmem hrel
    by_cases hbefore : .ok event ∈ x.before.raw
    · exact hlater (h.raw event hbefore hrel)
    · refine ⟨x, List.mem_append_right _ List.mem_cons_self, event, ?_, hrel⟩
      -- only a report adds to the channel
      generalize x.event = e, x.after = w', x.outputs = outputs at hstep hmem
      cases hstep with
      | report event' =>
        rcases List.mem_append.1 hmem with hmem | hmem
        · exact absurd hmem hbefore
        · rw [List.mem_singleton.1 hmem]
      | elapse d => exact absurd hmem hbefore
      | take hraw _ => exact absurd (hraw ▸ List.mem_cons_of_mem _ hmem) hbefore
      | skip hraw _ => exact absurd (hraw ▸ List.mem_cons_of_mem _ hmem) hbefore
      | fire _ _ _ => exact absurd hmem hbefore
      | idle _ => exact absurd hmem hbefore
      | tick _ => exact absurd hmem hbefore
  · intro y hy htakes
    rcases List.mem_append.1 hy with hy | hy
    · exact hlater (h.taken y hy htakes)
    · rw [List.mem_singleton.1 hy] at htakes
      obtain ⟨-, event, raw, hraw, hrel⟩ := htakes
      exact hlater (h.raw event (hraw ▸ List.mem_cons_self) hrel)

/-- **A tick has a cause, and keeps its distance.** In every run, ticks are half a second apart or
more. Each comes for a change that the task took after the tick before it, and at least half a second
after the last change that it took. Where the file system reports nothing relevant, there is none. -/
theorem ticks_are_paced {t : Watcher} (hrun : Runs (watch root) (.start now) run t) :
    (shown run).Pairwise (fun a b => a + debounce ≤ b) ∧
      (∀ past x rest, run = past ++ x :: rest → ∀ a ∈ x.outputs,
        ∃ y, LastTaken root past y ∧ y.before.now + debounce ≤ a) ∧
      ((∀ x ∈ run, ¬ Reports root x) → shown run = []) := by
  have hpaced {run : List (Move Watcher WatchEvent Instant)} {t : Watcher}
      (hrun : Runs (watch root) (.start now) run t) : Paced root run t :=
    hrun.history (fun _ _ => paced_move) ⟨nofun, nofun, .nil, nofun⟩
  have hheard : Heard root run t := hrun.history (fun _ _ => heard_move) ⟨nofun, nofun⟩
  have hcause : ∀ past x rest, run = past ++ x :: rest → ∀ a ∈ x.outputs,
      ∃ y, LastTaken root past y ∧ y.before.now + debounce ≤ a := by
    rintro past x rest rfl a ha
    obtain ⟨hpast, hx, -⟩ := hrun.split
    have hstep := watched hx
    have hbefore := hpaced hpast
    generalize x.event = e, x.after = w', x.outputs = outputs at hstep ha
    cases hstep with
    | fire hdeadline hle hpending =>
      obtain ⟨y, hy, hd⟩ := hbefore.pending hpending
      obtain rfl := Option.some.inj (hdeadline.symm.trans hd)
      refine ⟨y, hy, ?_⟩
      split_ifs at ha
      · cases ha
      · rwa [List.mem_singleton.1 ha]
    | report _ => cases ha
    | elapse _ => cases ha
    | take _ _ => cases ha
    | skip _ _ => cases ha
    | idle _ => cases ha
    | tick _ => cases ha
  refine ⟨(hpaced hrun).apart, hcause, fun hsilent => ?_⟩
  by_contra hne
  obtain ⟨a, ha⟩ := List.exists_mem_of_ne_nil _ hne
  obtain ⟨x, hx, hax⟩ := mem_shown.1 ha
  obtain ⟨past, rest, rfl⟩ := List.append_of_mem hx
  obtain ⟨y, ⟨hy, htakes, -⟩, -⟩ := hcause past x rest rfl a hax
  obtain ⟨z, hz, hreports⟩ := hheard.taken y (List.mem_append_left _ hy) htakes
  exact hsilent z hz hreports

theorem validName_store : ValidName (utf8Encode "store".toList) := by decide

theorem validName_a_gpg : ValidName (utf8Encode "a.gpg".toList) := by decide

/-- The root of a store. -/
def storeRoot : List PathComponent :=
  [.rootDir, .normal (nameOf "store".toList validName_store)]

/-- An entry is written. -/
def entryWritten : NotifyEvent :=
  ⟨.create, [storeRoot ++ [.normal (nameOf "a.gpg".toList validName_a_gpg)]]⟩

/-- So the index of git is, and the entry is read; half a second passes. -/
def writtenEvents : List WatchEvent :=
  [.report (.ok entryWritten), .recv,
    .report (.ok ⟨.modify, [storeRoot ++ [.normal (nameOf ".git".toList validName_git),
      .normal (nameOf "index".toList (by decide))]]⟩), .recv,
    .report (.ok { entryWritten with kind := .access }), .recv, .elapse debounce, .timer, .elapse 1]

def writtenRun : List (Move Watcher WatchEvent Instant) × Watcher :=
  (exec (watch storeRoot) (.start 0) writtenEvents).get (by decide +kernel)

theorem ticks_are_paced_written : (shown writtenRun.1).Pairwise (fun a b => a + debounce ≤ b) :=
  (ticks_are_paced
    (show Runs (watch storeRoot) (.start 0) writtenRun.1 writtenRun.2 from get_runs _)).1

/-! ## No change is lost -/

namespace Watcher

/-- A tick is due: a change waits in the channel, or was taken, or the tick is there. -/
def Owes (root : List PathComponent) (w : Watcher) : Prop :=
  (∃ event, .ok event ∈ w.raw ∧ eventIsRelevant event root = true) ∨
    (w.pending = true ∧ w.deadline.isSome = true) ∨ w.debounced = true

end Watcher

/-- **What is owed is paid with a tick.** -/
theorem owes_move (hx : (watch root).Makes x) (h : x.before.Owes root) :
    x.after.Owes root ∨ x.event = .tick := by
  have hstep := watched hx
  generalize x.event = e, x.after = w', x.outputs = outputs at hstep ⊢
  generalize x.before = w at h hstep
  cases hstep with
  | report event =>
    refine Or.inl (h.imp_left fun ⟨event', hmem, hrel⟩ => ?_)
    exact ⟨event', List.mem_append_left _ hmem, hrel⟩
  | elapse d => exact Or.inl h
  | take hraw hrel => exact Or.inl (Or.inr (Or.inl ⟨rfl, rfl⟩))
  | skip hraw hirrelevant =>
    refine Or.inl (h.imp_left fun ⟨event', hmem, hrel⟩ => ?_)
    rw [hraw] at hmem
    rcases List.mem_cons.1 hmem with heq | hmem
    · rw [hirrelevant event' heq.symm] at hrel
      cases hrel
    · exact ⟨event', hmem, hrel⟩
  | fire hdeadline hle hpending => exact Or.inl (Or.inr (Or.inr rfl))
  | idle hpending =>
    refine Or.inl (h.imp_right (Or.imp_left fun ⟨hp, _⟩ => ?_))
    rw [hpending] at hp
    cases hp
  | tick hfull => exact Or.inr rfl

/-- A change that is reported is owed a tick. -/
theorem owes_report (hx : (watch root).Makes x) (h : Reports root x) : x.after.Owes root := by
  obtain ⟨event, hevent, hrel⟩ := h
  have hstep := watched hx
  generalize x.after = w', x.outputs = outputs at hstep ⊢
  rw [hevent] at hstep
  cases hstep with
  | report => exact Or.inl ⟨event, List.mem_append_right _ List.mem_cons_self, hrel⟩

/-! ## The delay of the ticks -/

/-- The task is not kept waiting: time passes only while there is nothing to take, and up to the
deadline. -/
def Prompt (w : Watcher) : WatchEvent → Prop
  | .elapse d => w.raw = [] ∧ ∀ deadline ∈ w.deadline, w.now + d ≤ deadline
  | .report _ => True
  | .recv => True
  | .timer => True
  | .tick => True

instance (w : Watcher) (event : WatchEvent) : Decidable (Prompt w event) :=
  match event with
  | .elapse d => inferInstanceAs (Decidable (_ ∧ ∀ deadline ∈ w.deadline, w.now + d ≤ deadline))
  | .report _ => inferInstanceAs (Decidable True)
  | .recv => inferInstanceAs (Decidable True)
  | .timer => inferInstanceAs (Decidable True)
  | .tick => inferInstanceAs (Decidable True)

/-- What waits was reported just now, and a deadline is that of a change that was reported. -/
structure OnTime (root : List PathComponent) (past : List (Move Watcher WatchEvent Instant))
    (w : Watcher) : Prop where
  raw : ∀ event, .ok event ∈ w.raw → eventIsRelevant event root = true →
    ∃ y ∈ past, Reports root y ∧ y.before.now = w.now
  pending : w.pending = true → ∃ y ∈ past, Reports root y ∧
    w.deadline = some (y.before.now + debounce) ∧ w.now ≤ y.before.now + debounce

theorem onTime_move (hx : (watch root).Makes x) (hprompt : Prompt x.before x.event)
    (h : OnTime root past x.before) : OnTime root (past ++ [x]) x.after := by
  obtain ⟨w, event, w', outputs⟩ := x
  have hstep : Watched root w event w' outputs := watched hx
  replace h : OnTime root past w := h
  show OnTime root (past ++ [⟨w, event, w', outputs⟩]) w'
  have hlater {P : Move Watcher WatchEvent Instant → Prop} (hp : ∃ y ∈ past, P y) :
      ∃ y ∈ past ++ [⟨w, event, w', outputs⟩], P y := by
    obtain ⟨y, hy, hp⟩ := hp
    exact ⟨y, List.mem_append_left _ hy, hp⟩
  have hwaits {event : NotifyEvent} (hmem : .ok event ∈ w.raw)
      (hrel : eventIsRelevant event root = true) := hlater (h.raw event hmem hrel)
  cases hstep with
  | report event =>
    refine ⟨fun event' hmem hrel => ?_, fun hp => hlater (h.pending hp)⟩
    rcases List.mem_append.1 hmem with hmem | hmem
    · exact hwaits hmem hrel
    · refine ⟨_, List.mem_append_right _ List.mem_cons_self, ⟨event', ?_, hrel⟩, rfl⟩
      rw [List.mem_singleton.1 hmem]
  | elapse d =>
    obtain ⟨hnil, hdeadline⟩ : w.raw = [] ∧ ∀ deadline ∈ w.deadline, w.now + d ≤ deadline := hprompt
    refine ⟨fun event' hmem => ?_, fun hp => ?_⟩
    · rw [hnil] at hmem
      cases hmem
    · obtain ⟨y, hy, hreports, hd, -⟩ := h.pending hp
      exact hlater ⟨y, hy, hreports, hd, hdeadline _ hd⟩
  | take hraw hrel =>
    refine ⟨fun event' hmem => hwaits (hraw ▸ List.mem_cons_of_mem _ hmem), fun _ => ?_⟩
    obtain ⟨y, hy, hreports, hnow⟩ := hwaits (hraw ▸ List.mem_cons_self) hrel
    refine ⟨y, hy, hreports, by rw [hnow], ?_⟩
    rw [hnow]
    exact Nat.le_add_right _ _
  | skip hraw hirrelevant =>
    exact ⟨fun event' hmem => hwaits (hraw ▸ List.mem_cons_of_mem _ hmem),
      fun hp => hlater (h.pending hp)⟩
  | fire hdeadline hle hpending => exact ⟨fun event' hmem => hwaits hmem, nofun⟩
  | idle hpending =>
    exact ⟨fun event' hmem => hwaits hmem, fun hp => absurd (hpending.symm.trans hp) nofun⟩
  | tick hfull => exact ⟨fun event' hmem => hwaits hmem, fun hp => hlater (h.pending hp)⟩

/-- **A tick comes in time.** When the task is not kept waiting, and nothing relevant has been
reported for more than half a second, then a tick is there for each change that was reported, or was
taken by the daemon since. -/
theorem tick_in_time {t : Watcher} (hrun : Runs (watch root) (.start now) run t)
    (hprompt : ∀ x ∈ run, Prompt x.before x.event)
    (hquiet : ∀ x ∈ run, Reports root x → x.before.now + debounce < t.now)
    {rest : List (Move Watcher WatchEvent Instant)} (hsplit : run = past ++ x :: rest)
    (hreports : Reports root x) : t.debounced = true ∨ ∃ y ∈ rest, y.event = .tick := by
  have hontime : (∀ x ∈ run, Prompt x.before x.event) → OnTime root run t := by
    refine hrun.history
      (I := fun past w => (∀ x ∈ past, Prompt x.before x.event) → OnTime root past w)
      (fun past x hx ih hall => ?_) fun _ => ⟨nofun, nofun⟩
    obtain ⟨hpast, hlast⟩ := List.forall_mem_append.1 hall
    exact onTime_move hx (hlast x List.mem_cons_self) (ih hpast)
  obtain ⟨hraw, hpending⟩ := hontime hprompt
  subst hsplit
  obtain ⟨-, hx, hrest⟩ := hrun.split
  rcases hrest.owed (fun w => w.Owes root) (fun y => y.event = .tick) (fun _ => owes_move)
    (owes_report hx hreports) with hend | htick
  · refine Or.inl ?_
    rcases hend with ⟨event, hmem, hrel⟩ | ⟨hp, -⟩ | hthere
    · obtain ⟨y, hy, hreports', hnow⟩ := hraw event hmem hrel
      have hlate := hquiet y hy hreports'
      rw [hnow] at hlate
      exact absurd hlate (not_lt.2 (Nat.le_add_right _ _))
    · obtain ⟨y, hy, hreports', -, hle⟩ := hpending hp
      exact absurd (hquiet y hy hreports') (not_lt.2 hle)
    · exact hthere
  · exact Or.inr htick

theorem tick_in_time_written :
    writtenRun.2.debounced = true ∨ ∃ y ∈ writtenRun.1.tail, y.event = .tick := by
  have hruns : Runs (watch storeRoot) (.start 0) writtenRun.1 writtenRun.2 := get_runs _
  have hsplit : writtenRun.1 =
      [] ++ (writtenRun.1.head (by decide +kernel)) :: writtenRun.1.tail := by
    rw [List.nil_append, List.cons_head_tail]
  have hnow : ∀ x ∈ writtenRun.1, x.before.now + debounce < writtenRun.2.now ∨
      x.event = .timer ∨ x.event = .elapse 1 := by
    decide +kernel
  refine tick_in_time hruns (by decide +kernel) (fun x hx hreports => ?_) hsplit
    ⟨entryWritten, by decide +kernel, by decide +kernel⟩
  obtain ⟨event, hevent, -⟩ := hreports
  rcases hnow x hx with hlate | htimer | helapse
  · exact hlate
  · rw [hevent] at htimer
    cases htimer
  · rw [hevent] at helapse
    cases helapse

/-! ## The daemon -/

section Daemon

variable {ids : PeerIdText} {git : Git} {F : Type} {json : Json F}

/-- What happens to the watcher, to the daemon, and between them. -/
inductive WatchedEvent (F : Type) where
  | watcher (event : WatchEvent)
  | daemon (event : DaemonEvent F)
  /-- The daemon takes a tick, with its readings of the clock. -/
  | tick (now : PeerId → Instant)

/-- The watcher and the daemon; the daemon handles a tick exactly when it takes one. -/
def watchedDaemon (ids : PeerIdText) (git : Git) (json : Json F) (root : List PathComponent) :
    Machine (Watcher × Node) (WatchedEvent F) (Shown F)
  | _, .watcher .tick => none
  | (w, node), .watcher event => (watch root w event).map fun (w, _) => ((w, node), [])
  | _, .daemon (.watcher _) => none
  | (w, node), .daemon event =>
    (daemon ids git json node event).map fun (node, shown) => ((w, node), shown)
  | (w, node), .tick now => do
    let (w, _) ← watch root w .tick
    let (node, shown) ← daemon ids git json node (.watcher now)
    some ((w, node), shown)

/-- Whether spawning starts the task, and what it does to the budgets of others. -/
theorem spawnSyncWithPeer_starts {node node' : Node} {peer : PeerId} {addr : Multiaddr}
    {now : Instant} {shown : List (Shown F)}
    (h : node.spawnSyncWithPeer peer addr now = some (node', shown)) :
    (.start peer addr ∈ shown ↔ node.ratelimit.Accepts peer now) ∧
      (∀ other a, other ≠ peer → .start other a ∉ shown) ∧
      ∀ other t, other ≠ peer → (node'.ratelimit.Accepts other t ↔ node.ratelimit.Accepts other t) := by
  unfold Node.spawnSyncWithPeer at h
  obtain ⟨⟨verdict, ratelimit⟩, hlog, h⟩ := Option.bind_eq_some_iff.1 h
  have hother : ∀ other t, other ≠ peer →
      (ratelimit.Accepts other t ↔ node.ratelimit.Accepts other t) :=
    fun other t hne => AttemptLog.accepts_other hne hlog
  rcases AttemptLog.checkAndRecord_eq_some hlog with
    ⟨rfl, haccepts, -⟩ | ⟨_, _, -, hfull, -, rfl, -⟩
  · obtain ⟨rfl, rfl⟩ := Prod.mk.inj (Option.some.inj h)
    refine ⟨iff_of_true List.mem_cons_self haccepts, fun other a hne hmem => ?_, hother⟩
    obtain ⟨rfl, -⟩ := Shown.start.inj (List.mem_singleton.1 hmem)
    exact hne rfl
  · obtain ⟨rfl, rfl⟩ := Prod.mk.inj (Option.some.inj h)
    refine ⟨iff_of_false List.not_mem_nil (not_lt.2 hfull), fun _ _ _ => List.not_mem_nil, ?_⟩
    rw [(Node.updateEntry_frame _ _ _).2.2.2]
    exact hother

/-- **A tick starts what the budgets allow.** -/
theorem spawnAll_starts {node node' : Node} {times : PeerId → Instant} {shown : List (Shown F)}
    {l : List (PeerId × Multiaddr)} (h : node.spawnAll times l = some (node', shown))
    (hl : (l.map Prod.fst).Nodup) {peer : PeerId} {addr : Multiaddr} (hmem : (peer, addr) ∈ l) :
    .start peer addr ∈ shown ↔ node.ratelimit.Accepts peer (times peer) := by
  induction l generalizing node shown with
  | nil => cases hmem
  | cons x l ih =>
    obtain ⟨first, addr'⟩ := x
    obtain ⟨⟨node₁, shown₁⟩, hspawn, h⟩ := Option.bind_eq_some_iff.1 h
    obtain ⟨⟨node₂, shown₂⟩, hrest, h⟩ := Option.bind_eq_some_iff.1 h
    obtain ⟨rfl, rfl⟩ := Prod.mk.inj (Option.some.inj h)
    rw [List.map_cons, List.nodup_cons] at hl
    obtain ⟨hstarts, hothers, hbudgets⟩ := spawnSyncWithPeer_starts hspawn
    rw [List.mem_append]
    rcases List.mem_cons.1 hmem with heq | hmem
    · obtain ⟨rfl, rfl⟩ := Prod.mk.inj heq
      have hlater : .start peer addr ∉ shown₂ := fun hstart => by
        obtain ⟨-, -, -, hfrom⟩ := Node.spawnAll_frame hrest hl.2
        obtain ⟨p, a, hp, hpl, -⟩ := hfrom _ hstart
        obtain ⟨rfl, -⟩ := Shown.start.inj hp
        exact hl.1 (List.mem_map.2 ⟨_, hpl, rfl⟩)
      rw [or_iff_left hlater, hstarts]
    · have hne : peer ≠ first := fun heq => hl.1 (List.mem_map.2 ⟨_, hmem, heq⟩)
      rw [or_iff_right (hothers peer addr hne), ih hrest hl.2 hmem, hbudgets peer _ hne]

variable {s₀ s : Watcher × Node}
  {run past rest : List (Move (Watcher × Node) (WatchedEvent F) (Shown F))}
  {x : Move (Watcher × Node) (WatchedEvent F) (Shown F)}

/-- The daemon takes a tick: it starts a sync with each peer that has an address, is in no sync, and
has attempts left, and with no other. -/
def Wakes (x : Move (Watcher × Node) (WatchedEvent F) (Shown F)) : Prop :=
  ∃ times, x.event = .tick times ∧ ∀ peer addr, .start peer addr ∈ x.outputs ↔
    (∃ entry, x.before.2.state.peers[peer]? = some entry ∧ entry.in_flight = false ∧
      entry.addr = some addr) ∧ x.before.2.ratelimit.Accepts peer (times peer)

omit F json in
theorem dialAddr_eq_some {entry : PeerEntry} {addr : Multiaddr} :
    entry.dialAddr = some addr ↔ entry.in_flight = false ∧ entry.addr = some addr := by
  rw [PeerEntry.dialAddr]
  split_ifs with hflight
  · simp [hflight]
  · simp [hflight]

/-- What a move of the two does to the watcher. -/
theorem watchedDaemon_cases (h : (watchedDaemon ids git json root).Makes x) :
    (∃ event outputs, event ≠ .tick ∧ x.event = .watcher event ∧
        (watch root).Makes ⟨x.before.1, event, x.after.1, outputs⟩) ∨
      (∃ event, x.event = .daemon event ∧ x.after.1 = x.before.1) ∨ Wakes x := by
  obtain ⟨⟨w, node⟩, event, ⟨w', node'⟩, outputs⟩ := x
  have hmove : watchedDaemon ids git json root (w, node) event = some ((w', node'), outputs) := h
  cases event with
  | watcher event =>
    have hwatch : event ≠ .tick ∧ (watch root w event).map (fun (w, _) => ((w, node), [])) =
        some ((w', node'), outputs) := by
      cases event with
      | tick => cases hmove
      | report event => exact ⟨nofun, hmove⟩
      | elapse d => exact ⟨nofun, hmove⟩
      | recv => exact ⟨nofun, hmove⟩
      | timer => exact ⟨nofun, hmove⟩
    obtain ⟨hne, hmap⟩ := hwatch
    obtain ⟨⟨w₁, shown⟩, hstep, heq⟩ := Option.map_eq_some_iff.1 hmap
    obtain ⟨hpair, -⟩ := Prod.mk.inj heq
    obtain ⟨rfl, -⟩ := Prod.mk.inj hpair
    exact Or.inl ⟨event, shown, hne, rfl, hstep⟩
  | daemon event =>
    have hdaemon : (daemon ids git json node event).map (fun (node, shown) => ((w, node), shown)) =
        some ((w', node'), outputs) := by
      cases event with
      | watcher times => cases hmove
      | rewrite _ => exact hmove
      | change _ => exact hmove
      | inbound _ _ _ _ => exact hmove
      | discovery _ _ _ => exact hmove
      | finished _ _ _ => exact hmove
    obtain ⟨⟨node₁, shown⟩, -, heq⟩ := Option.map_eq_some_iff.1 hdaemon
    obtain ⟨hpair, -⟩ := Prod.mk.inj heq
    exact Or.inr (Or.inl ⟨event, rfl, (Prod.mk.inj hpair).1.symm⟩)
  | tick times =>
    obtain ⟨⟨w₁, shown₁⟩, -, hmove⟩ := Option.bind_eq_some_iff.1 hmove
    obtain ⟨⟨node₁, shown⟩, hspawn, hmove⟩ := Option.bind_eq_some_iff.1 hmove
    obtain ⟨hpair, rfl⟩ := Prod.mk.inj (Option.some.inj hmove)
    have hcandidate {peer : PeerId} {addr : Multiaddr} :
        (peer, addr) ∈ node.collectKnownAddrs.1 ↔ ∃ entry, node.state.peers[peer]? = some entry ∧
          entry.in_flight = false ∧ entry.addr = some addr := by
      simp only [Node.mem_candidates, dialAddr_eq_some]
    have hnodup := node.nodup_candidates
    refine Or.inr (Or.inr ⟨times, rfl, fun peer addr => ?_⟩)
    constructor
    · intro hstart
      obtain ⟨-, -, -, hfrom⟩ := Node.spawnAll_frame hspawn hnodup
      obtain ⟨p, a, hp, hpl, haccepts⟩ := hfrom _ hstart
      obtain ⟨rfl, rfl⟩ := Shown.start.inj hp
      exact ⟨hcandidate.1 hpl, haccepts⟩
    · rintro ⟨hpeer, haccepts⟩
      exact (spawnAll_starts hspawn hnodup (hcandidate.2 hpeer)).2 haccepts

/-- **No change is lost.** In every run of the watcher and the daemon, however they are scheduled: a
change that the file system reports is still on its way, or the daemon has taken a tick since. Then
it started a sync with each peer that has an address, is in no sync, and has attempts left. -/
theorem change_reaches_daemon (hrun : Runs (watchedDaemon ids git json root) s₀ run s)
    (hsplit : run = past ++ x :: rest) {event : NotifyEvent}
    (hevent : x.event = .watcher (.report (.ok event)))
    (hrel : eventIsRelevant event root = true) : s.1.Owes root ∨ ∃ y ∈ rest, Wakes y := by
  subst hsplit
  obtain ⟨-, hx, hrest⟩ := hrun.split
  refine hrest.owed (fun s => s.1.Owes root) Wakes (fun y hy howes => ?_) ?_
  · rcases watchedDaemon_cases hy with ⟨event, outputs, hne, -, hmakes⟩ | ⟨event, -, hsame⟩ | hwakes
    · exact Or.inl ((owes_move hmakes howes).resolve_right hne)
    · refine Or.inl ?_
      rwa [hsame]
    · exact Or.inr hwakes
  · rcases watchedDaemon_cases hx with ⟨event', outputs, -, hsame, hmakes⟩ | ⟨_, hother, -⟩ | ⟨_, hother, -⟩
    · obtain rfl := WatchedEvent.watcher.inj (hevent.symm.trans hsame)
      exact owes_report hmakes ⟨event, rfl, hrel⟩
    · rw [hevent] at hother
      cases hother
    · rw [hevent] at hother
      cases hother

/-- The phone has been synced with; then an entry is written. -/
def pushEvents : List (WatchedEvent WireMsg) :=
  [.daemon (.discovery (.discovered phone phoneAddr) phoneToml 0),
    .daemon (.finished phone (some "UpToDate".toList) 0),
    .watcher (.report (.ok entryWritten)), .watcher .recv, .watcher (.elapse debounce),
    .watcher .timer, .tick fun _ => debounce]

def pushRun :
    List (Move (Watcher × Node) (WatchedEvent WireMsg) (Shown WireMsg)) × (Watcher × Node) :=
  (exec (watchedDaemon deviceIds leakGit plainJson storeRoot) (.start 0, phoneNode phoneToml)
    pushEvents).get (by decide +kernel)

theorem change_reaches_daemon_push :
    pushRun.2.1.Owes storeRoot ∨ ∃ y ∈ pushRun.1.drop 3, Wakes y := by
  have hruns : Runs (watchedDaemon deviceIds leakGit plainJson storeRoot)
      (.start 0, phoneNode phoneToml) pushRun.1 pushRun.2 := get_runs _
  have hlen : 2 < pushRun.1.length := by decide +kernel
  have hsplit : pushRun.1 = pushRun.1.take 2 ++ pushRun.1[2] :: pushRun.1.drop 3 := by
    rw [List.getElem_cons_drop, List.take_append_drop]
  have hevent : pushRun.1[2].event = .watcher (.report (.ok entryWritten)) := rfl
  exact change_reaches_daemon hruns hsplit hevent (by decide +kernel)

end Daemon

end Bypass
