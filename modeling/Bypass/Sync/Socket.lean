import Bypass.Foundations.FileTree
import Bypass.Foundations.Runs

/-!
# One daemon a user

A daemon listens on a socket at one path. To keep a second one away, `bind_or_refuse_existing`
connects to whatever is at the path, removes it where nobody answers, and binds; these are calls of
their own, and another daemon may start, stop or be killed between any two of them. `socketWorld` is
any number of daemons, and clients that ask for the status.

* `one_daemon`: **the path is the daemon's own**, unless a daemon binds while another is between a
  connect that failed and the removal, or a connect to a daemon that listens fails.
* `both_serve_iff`: two starts can end in two daemons exactly when a dead socket is at the path.
-/

namespace Bypass

open Machine

/-- What is at the path: a socket that a daemon has bound, or what was there before. -/
inductive SocketNode where
  | socket (daemon : ℕ)
  | leftover
  deriving DecidableEq

/-- The errors of `bind_or_refuse_existing`. -/
inductive BindError where
  | alreadyRunning
  | io (source : Errno)
  | createParent (source : Errno)
  | chmod (source : Errno)
  deriving DecidableEq

/-- `EADDRINUSE`. -/
def addrInUse : Errno := .other "address in use".toList

/-- The call that a daemon makes next, from `path.exists()` to the end of its runtime. -/
inductive DaemonPhase where
  | unborn
  | probing
  | connecting
  | clearing
  | makingParent
  | binding
  | restricting
  | serving
  | stopping
  | closing
  | done
  | failed (error : BindError)
  | killed
  deriving DecidableEq

namespace DaemonPhase

/-- The listener is open. -/
def listens : DaemonPhase → Bool
  | .restricting | .serving | .stopping | .closing => true
  | _ => false

/-- The listener is open, and the daemon has not removed its socket. -/
def holds : DaemonPhase → Bool
  | .restricting | .serving | .stopping => true
  | _ => false

def alive : DaemonPhase → Bool
  | .unborn | .done | .failed _ | .killed => false
  | _ => true

end DaemonPhase

/-- The path of the socket, and the daemons. -/
structure SocketWorld where
  path : Option SocketNode
  phase : ℕ → DaemonPhase

inductive SocketEvent where
  | start (d : ℕ)
  | step (d : ℕ) (fault : Option Errno)
  | stop (d : ℕ)
  | kill (d : ℕ)
  | query
  deriving DecidableEq

/-- Whose move it is. -/
def SocketEvent.daemon : SocketEvent → Option ℕ
  | .start d | .step d _ | .stop d | .kill d => some d
  | .query => none

/-- What `query_status` finds. -/
inductive QueryNotice where
  | notRunning
  | reached (d : ℕ)
  deriving DecidableEq

namespace SocketWorld

variable (w : SocketWorld) (d : ℕ)

/-- Nobody has started. -/
def init (path : Option SocketNode) : SocketWorld := ⟨path, fun _ => .unborn⟩

def enter (phase : DaemonPhase) : SocketWorld := { w with phase := Function.update w.phase d phase }

/-- Who answers a `connect` to the path. -/
def reached : Option ℕ :=
  match w.path with
  | some (.socket e) => if (w.phase e).listens then some e else none
  | _ => none

/-- The next call of a daemon: it fails with the error of the system, if there is one. -/
def call (fault : Option Errno) : Option SocketWorld :=
  match w.phase d with
  | .probing =>
    -- a path that cannot be looked at does not exist
    if w.path.isSome && fault.isNone then some (w.enter d .connecting)
    else some (w.enter d .makingParent)
  | .connecting =>
    match fault, w.reached with
    | none, some _ => some (w.enter d (.failed .alreadyRunning))
    | _, _ => some (w.enter d .clearing)
  | .clearing =>
    match fault with
    | none => some ({ w with path := none }.enter d .makingParent)
    | some .notFound => some (w.enter d .makingParent)
    | some source => some (w.enter d (.failed (.io source)))
  | .makingParent =>
    match fault with
    | none => some (w.enter d .binding)
    | some source => some (w.enter d (.failed (.createParent source)))
  | .binding =>
    match fault, w.path with
    | none, none => some ({ w with path := some (.socket d) }.enter d .restricting)
    | none, some _ => some (w.enter d (.failed (.io addrInUse)))
    | some source, _ => some (w.enter d (.failed (.io source)))
  | .restricting =>
    match fault, w.path with
    | none, some _ => some (w.enter d .serving)
    | none, none => some (w.enter d (.failed (.chmod .notFound)))
    | some source, _ => some (w.enter d (.failed (.chmod source)))
  | .stopping =>
    -- the socket is removed before the runtime closes the listener
    match fault with
    | none => some ({ w with path := none }.enter d .closing)
    | some _ => some (w.enter d .closing)
  | .closing => some (w.enter d .done)
  | _ => none

/-- `query_status`, up to the connection. -/
def queryStatus : QueryNotice :=
  match w.reached with
  | some d => .reached d
  | none => .notRunning

end SocketWorld

/-- **Daemons and clients on one path.** -/
def socketWorld : Machine SocketWorld SocketEvent QueryNotice := fun w e =>
  match e with
  | .start d => if w.phase d = .unborn then some (w.enter d .probing, []) else none
  | .step d fault => (w.call d fault).map fun w' => (w', [])
  | .stop d => if w.phase d = .serving then some (w.enter d .stopping, []) else none
  | .kill d => if (w.phase d).alive then some (w.enter d .killed, []) else none
  | .query => some (w, [w.queryStatus])

/-! ## The path is the daemon's own -/

namespace SocketWorld

variable {w w' : SocketWorld} {d e : ℕ} {phase : DaemonPhase} {fault : Option Errno}

@[simp] theorem enter_path : (w.enter d phase).path = w.path := rfl

@[simp] theorem enter_phase : (w.enter d phase).phase e = if e = d then phase else w.phase e :=
  Function.update_apply w.phase d phase e

theorem reached_eq_some : w.reached = some e ↔
    w.path = some (.socket e) ∧ (w.phase e).listens = true := by
  unfold reached
  split
  · next a hpath =>
    rw [hpath, Option.some.injEq, SocketNode.socket.injEq]
    split
    · next hlistens =>
      rw [Option.some.injEq]
      exact ⟨fun h => ⟨h, h ▸ hlistens⟩, fun h => h.1⟩
    · next hlistens =>
      constructor
      · intro h
        cases h
      · rintro ⟨rfl, h⟩
        exact absurd h hlistens
  · next hpath =>
    constructor
    · intro h
      cases h
    · exact fun h => absurd h.1 (hpath e)

/-- A call changes the path, and the phase of its daemon. -/
theorem call_frame (h : w.call d fault = some w') (hne : e ≠ d) : w'.phase e = w.phase e := by
  suffices hform : ∃ path phase, w' = { w with path }.enter d phase by
    obtain ⟨path, phase, rfl⟩ := hform
    rw [enter_phase, if_neg hne]
  unfold SocketWorld.call at h
  split at h
  case h_1 => split_ifs at h <;> exact ⟨_, _, (Option.some.inj h).symm⟩
  case h_7 => split at h <;> exact ⟨_, _, (Option.some.inj h).symm⟩
  case h_8 => exact ⟨_, _, (Option.some.inj h).symm⟩
  case h_9 => cases h
  all_goals split at h <;> exact ⟨_, _, (Option.some.inj h).symm⟩

/-- So does every move. -/
theorem move_frame {x : Move SocketWorld SocketEvent QueryNotice} (hx : socketWorld.Makes x)
    (hne : x.event.daemon ≠ some e) : x.after.phase e = x.before.phase e := by
  obtain ⟨w, event, w', outputs⟩ := x
  unfold Makes at hx
  dsimp only at hx hne ⊢
  have hother : ∀ d, event.daemon = some d → e ≠ d := fun d hd hed => hne (hed ▸ hd)
  cases event with
  | start d =>
    obtain ⟨-, hx⟩ := Option.ite_none_right_eq_some.1 hx
    obtain ⟨rfl, -⟩ := Prod.mk.inj (Option.some.inj hx)
    rw [enter_phase, if_neg (hother d rfl)]
  | step d fault =>
    obtain ⟨u, hcall, hu⟩ := Option.map_eq_some_iff.1 hx
    obtain ⟨rfl, -⟩ := Prod.mk.inj hu
    exact call_frame hcall (hother d rfl)
  | stop d =>
    obtain ⟨-, hx⟩ := Option.ite_none_right_eq_some.1 hx
    obtain ⟨rfl, -⟩ := Prod.mk.inj (Option.some.inj hx)
    rw [enter_phase, if_neg (hother d rfl)]
  | kill d =>
    obtain ⟨-, hx⟩ := Option.ite_none_right_eq_some.1 hx
    obtain ⟨rfl, -⟩ := Prod.mk.inj (Option.some.inj hx)
    rw [enter_phase, if_neg (hother d rfl)]
  | query =>
    obtain ⟨rfl, -⟩ := Prod.mk.inj (Option.some.inj hx)
    rfl

/-- **Whoever listens is at the path**, and nobody is about to remove it. -/
structure OwnPath (w : SocketWorld) : Prop where
  own : ∀ d, (w.phase d).holds = true → w.path = some (.socket d)
  clear : ∀ d e, w.phase d = .clearing → (w.phase e).holds = false

theorem OwnPath.init (path : Option SocketNode) : (SocketWorld.init path).OwnPath where
  own _ h := absurd h Bool.false_ne_true
  clear _ _ _ := rfl

/-- To go on, but not to a removal. -/
theorem OwnPath.enter (h : w.OwnPath)
    (hholds : phase.holds = true → (w.phase d).holds = true) (hclear : phase ≠ .clearing) :
    (w.enter d phase).OwnPath := by
  constructor
  · intro e he
    rw [enter_phase] at he
    split_ifs at he with hed
    · subst hed
      exact h.own _ (hholds he)
    · exact h.own e he
  · intro a e ha
    rw [enter_phase] at ha ⊢
    have hbefore : w.phase a = .clearing := by
      split_ifs at ha with had
      · exact absurd ha hclear
      · exact ha
    split_ifs with hed
    · by_contra hne
      rw [Bool.not_eq_false] at hne
      exact absurd (hholds hne) (by rw [h.clear a d hbefore]; decide)
    · exact h.clear a e hbefore

/-- To go on without the path. -/
theorem OwnPath.leave (h : w.OwnPath) (hholds : phase.holds = false) (hclear : phase ≠ .clearing) :
    (w.enter d phase).OwnPath :=
  h.enter (fun hc => absurd (hholds.symm.trans hc) Bool.false_ne_true) hclear

theorem unheld_enter (hnone : ∀ e, e ≠ d → (w.phase e).holds = false) (hphase : phase.holds = false)
    (e : ℕ) : ((w.enter d phase).phase e).holds = false := by
  rw [enter_phase]
  split_ifs with hed
  · exact hphase
  · exact hnone e hed

/-- Where nobody holds the path, anything may be at it. -/
theorem OwnPath.of_unheld (h : ∀ e, (w.phase e).holds = false) : w.OwnPath where
  own e he := absurd ((h e).symm.trans he) Bool.false_ne_true
  clear _ e _ := h e

/-- The start is not in a race: it binds while no other is about to remove what is at the path, and
a connect does not fail where a daemon listens. -/
def NoRace (w : SocketWorld) : SocketEvent → Prop
  | .step d fault =>
    (w.phase d = .binding → ∀ e, w.phase e ≠ .clearing) ∧
      (w.phase d = .connecting → w.reached.isSome → fault = none)
  | _ => True

/-- Nobody holds the path where a connect fails. -/
theorem OwnPath.unheld (h : w.OwnPath) (hreached : w.reached = none) (e : ℕ) :
    (w.phase e).holds = false := by
  by_contra hholds
  rw [Bool.not_eq_false] at hholds
  have hlistens : (w.phase e).listens = true := by
    cases hphase : w.phase e <;> rw [hphase] at hholds <;> first | rfl | cases hholds
  rw [reached_eq_some.2 ⟨h.own e hholds, hlistens⟩] at hreached
  cases hreached

/-- **One call keeps the path.** -/
theorem OwnPath.call (h : w.OwnPath) (hrace : w.NoRace (.step d fault))
    (hcall : w.call d fault = some w') : w'.OwnPath := by
  unfold SocketWorld.call at hcall
  cases hphase : w.phase d with
  | probing =>
    simp only [hphase] at hcall
    split_ifs at hcall <;> obtain rfl := Option.some.inj hcall <;>
      exact h.leave rfl (by decide)
  | connecting =>
    simp only [hphase] at hcall
    split at hcall
    · obtain rfl := Option.some.inj hcall
      exact h.leave rfl (fun hc => by cases hc)
    · next hmiss =>
      obtain rfl := Option.some.inj hcall
      have hreached : w.reached = none := by
        cases hr : w.reached with
        | none => rfl
        | some e => exact absurd (hrace.2 hphase (by rw [hr]; rfl)) fun hf => hmiss e hf hr
      exact .of_unheld (unheld_enter (fun e _ => h.unheld hreached e) rfl)
  | clearing =>
    simp only [hphase] at hcall
    split at hcall <;> obtain rfl := Option.some.inj hcall
    · exact .of_unheld (unheld_enter (fun e _ => h.clear d e hphase) rfl)
    · exact h.leave rfl (by decide)
    · exact h.leave rfl (fun hc => by cases hc)
  | makingParent =>
    simp only [hphase] at hcall
    split at hcall <;> obtain rfl := Option.some.inj hcall
    · exact h.leave rfl (by decide)
    · exact h.leave rfl (fun hc => by cases hc)
  | binding =>
    simp only [hphase] at hcall
    split at hcall <;> obtain rfl := Option.some.inj hcall
    · next hnone =>
      -- the path was free, so nobody held it
      have hunheld : ∀ e, (w.phase e).holds = false := h.unheld (by rw [reached, hnone])
      refine ⟨fun e he => ?_, fun a e ha => ?_⟩
      · rw [enter_phase] at he
        split_ifs at he with hed
        · rw [hed]
          rfl
        · rw [hunheld e] at he
          cases he
      · rw [enter_phase] at ha
        split_ifs at ha with had
        exact absurd ha (hrace.1 hphase a)
    · exact h.leave rfl (fun hc => by cases hc)
    · exact h.leave rfl (fun hc => by cases hc)
  | restricting =>
    have hholds : (w.phase d).holds = true := by rw [hphase]; rfl
    simp only [hphase] at hcall
    split at hcall <;> obtain rfl := Option.some.inj hcall
    · exact h.enter (fun _ => hholds) (by decide)
    · exact h.leave rfl (fun hc => by cases hc)
    · exact h.leave rfl (fun hc => by cases hc)
  | stopping =>
    have hholds : (w.phase d).holds = true := by rw [hphase]; rfl
    simp only [hphase] at hcall
    split at hcall <;> obtain rfl := Option.some.inj hcall
    · refine .of_unheld (unheld_enter (fun e hne => ?_) rfl)
      by_contra he
      rw [Bool.not_eq_false] at he
      have hsame := (h.own e he).symm.trans (h.own d hholds)
      exact hne (SocketNode.socket.inj (Option.some.inj hsame))
    · exact h.leave rfl (by decide)
  | closing =>
    simp only [hphase] at hcall
    obtain rfl := Option.some.inj hcall
    exact h.leave rfl (by decide)
  | unborn => simp only [hphase] at hcall; cases hcall
  | serving => simp only [hphase] at hcall; cases hcall
  | done => simp only [hphase] at hcall; cases hcall
  | failed error => simp only [hphase] at hcall; cases hcall
  | killed => simp only [hphase] at hcall; cases hcall

/-- **One move keeps the path.** -/
theorem OwnPath.move {x : Move SocketWorld SocketEvent QueryNotice} (hx : socketWorld.Makes x)
    (hrace : x.before.NoRace x.event) (h : x.before.OwnPath) : x.after.OwnPath := by
  obtain ⟨w, e, w', outputs⟩ := x
  unfold Makes at hx
  dsimp only at hx hrace h ⊢
  cases e with
  | start d =>
    obtain ⟨-, hx⟩ := Option.ite_none_right_eq_some.1 hx
    obtain ⟨rfl, -⟩ := Prod.mk.inj (Option.some.inj hx)
    exact h.leave rfl (by decide)
  | step d fault =>
    obtain ⟨u, hcall, hu⟩ := Option.map_eq_some_iff.1 hx
    obtain ⟨rfl, -⟩ := Prod.mk.inj hu
    exact h.call hrace hcall
  | stop d =>
    obtain ⟨hserving, hx⟩ := Option.ite_none_right_eq_some.1 hx
    obtain ⟨rfl, -⟩ := Prod.mk.inj (Option.some.inj hx)
    exact h.enter (fun _ => by rw [hserving]; rfl) (by decide)
  | kill d =>
    obtain ⟨-, hx⟩ := Option.ite_none_right_eq_some.1 hx
    obtain ⟨rfl, -⟩ := Prod.mk.inj (Option.some.inj hx)
    exact h.leave rfl (by decide)
  | query =>
    obtain ⟨rfl, -⟩ := Prod.mk.inj (Option.some.inj hx)
    exact h

/-- A daemon that holds the path is the one that a connect reaches. -/
theorem OwnPath.reached (h : w.OwnPath) (hholds : (w.phase d).holds = true) : w.reached = some d := by
  cases hreached : w.reached with
  | none =>
    rw [h.unheld hreached d] at hholds
    cases hholds
  | some e =>
    have hsame := (reached_eq_some.1 hreached).1.symm.trans (h.own d hholds)
    rw [SocketNode.socket.inj (Option.some.inj hsame)]

end SocketWorld

section Runs

open SocketWorld

variable {path : Option SocketNode} {w : SocketWorld}
  {run : List (Move SocketWorld SocketEvent QueryNotice)}

/-- **One daemon at a time**, in every run without a race, whatever is left at the path, and however
often daemons start, stop, fail and are killed: at most one of those that listen has not given its
socket up, and it is the one at the path. While it is there, every client reaches it, and every
other daemon that connects ends with `AlreadyRunning` and changes nothing. -/
theorem one_daemon (hrun : Runs socketWorld (.init path) run w)
    (hrace : ∀ x ∈ run, x.before.NoRace x.event) :
    (∀ d e, (w.phase d).holds = true → (w.phase e).holds = true → d = e) ∧
    (∀ d, (w.phase d).holds = true → w.path = some (.socket d)) ∧
    ∀ x ∈ run, ∀ d, (x.before.phase d).holds = true →
      (x.event = .query → x.outputs = [.reached d]) ∧
      ∀ e fault, x.event = .step e fault → x.before.phase e = .connecting →
        x.after = x.before.enter e (.failed .alreadyRunning) := by
  obtain ⟨hend, hall⟩ := hrun.induct (I := OwnPath) (P := fun _ => True)
    (fun x hx hm hi => ⟨hi.move hx hm, trivial⟩) hrace (.init path)
  refine ⟨fun d e hd he => ?_, hend.own, fun x hx d hd => ⟨fun hquery => ?_, ?_⟩⟩
  · have hsame := (hend.own d hd).symm.trans (hend.own e he)
    exact SocketNode.socket.inj (Option.some.inj hsame)
  · have hmakes := hrun.makes x hx
    rw [Makes, hquery] at hmakes
    obtain ⟨-, hout⟩ := Prod.mk.inj (Option.some.inj hmakes)
    rw [← hout, queryStatus, (hall x hx).1.reached hd]
  · intro e fault hstep hphase
    have hreached := (hall x hx).1.reached hd
    have hquiet := hrace x hx
    rw [hstep] at hquiet
    obtain rfl := hquiet.2 hphase (by rw [hreached]; rfl)
    have hmakes := hrun.makes x hx
    rw [Makes, hstep] at hmakes
    obtain ⟨u, hcall, hu⟩ := Option.map_eq_some_iff.1 hmakes
    obtain ⟨rfl, -⟩ := Prod.mk.inj hu
    simp only [SocketWorld.call, hphase, hreached] at hcall
    exact (Option.some.inj hcall).symm

end Runs

/-- A daemon starts, a client asks, and another daemon starts. -/
def startEvents : List SocketEvent :=
  [.start 0, .step 0 none, .step 0 none, .step 0 none, .step 0 none, .query, .start 1,
    .step 1 none, .step 1 none]

def startedRun : List (Move SocketWorld SocketEvent QueryNotice) × SocketWorld :=
  (exec socketWorld (.init none) startEvents).get (by decide +kernel)

theorem startedRun_runs : Runs socketWorld (.init none) startedRun.1 startedRun.2 := get_runs _

open SocketWorld in
theorem startedRun_noRace : ∀ x ∈ startedRun.1, x.before.NoRace x.event := by
  have hevents : ∀ x ∈ startedRun.1, x.event ∈ startEvents := by decide +kernel
  have hidle : ∀ x ∈ startedRun.1, ∀ e, 2 ≤ e → x.before.phase e = .unborn := by
    intro x hx e he
    refine ((startedRun_runs.induct (I := fun w => w.phase e = .unborn) (P := fun _ => True)
      (fun y hy hmem hi => ⟨?_, trivial⟩) hevents rfl).2 x hx).1
    refine (move_frame hy fun heq => ?_).trans hi
    have hsmall : ∀ event ∈ startEvents, ∀ d ∈ event.daemon, d < 2 := by decide +kernel
    exact absurd (hsmall _ hmem e heq) (Nat.not_lt.2 he)
  have hclear : ∀ x ∈ startedRun.1, ∀ e < 2, x.before.phase e ≠ .clearing := by decide +kernel
  intro x hx
  cases hevent : x.event with
  | step d fault =>
    refine ⟨fun _ e => ?_, fun _ _ => ?_⟩
    · rcases Nat.lt_or_ge e 2 with he | he
      · exact hclear x hx e he
      · rw [hidle x hx e he]
        decide
    · have hquiet : ∀ event ∈ startEvents, ∀ d fault, event = .step d fault → fault = none := by
        simp [startEvents]
      exact hquiet _ (hevents x hx) d fault hevent
  | start d => trivial
  | stop d => trivial
  | kill d => trivial
  | query => trivial

theorem one_daemon_started :
    startedRun.2.path = some (.socket 0) ∧ ∀ x ∈ startedRun.1, x.event = .query →
      x.outputs = [.reached 0] := by
  obtain ⟨-, hown, hall⟩ := one_daemon startedRun_runs startedRun_noRace
  have hqueried : ∀ x ∈ startedRun.1, x.event = .query → (x.before.phase 0).holds = true := by
    decide +kernel
  exact ⟨hown 0 (by decide +kernel), fun x hx hquery =>
    (hall x hx 0 (hqueried x hx hquery)).1 hquery⟩

/-! ## Two starts at once -/

namespace SocketWorld

/-- A move of the start of `d`, at which nothing fails. -/
def Starts (d : ℕ) (e : SocketEvent) : Prop := e = .start d ∨ e = .step d none

variable {w w' : SocketWorld} {d e p q r : ℕ} {phase : DaemonPhase}

theorem reached_enter (h : (w.phase d).listens = true → phase.listens = true)
    (hreached : w.reached = some r) : (w.enter d phase).reached = some r := by
  obtain ⟨hpath, hlistens⟩ := reached_eq_some.1 hreached
  refine reached_eq_some.2 ⟨hpath, ?_⟩
  rw [enter_phase]
  split_ifs with hrd
  · exact h (hrd ▸ hlistens)
  · exact hlistens

theorem reached_enter_none (h : phase.listens = false) (hreached : w.reached = none) :
    (w.enter d phase).reached = none := by
  by_contra hne
  obtain ⟨r, hr⟩ := Option.ne_none_iff_exists'.1 hne
  obtain ⟨hpath, hlistens⟩ := reached_eq_some.1 hr
  rw [enter_phase] at hlistens
  split_ifs at hlistens with hrd
  · rw [h] at hlistens
    cases hlistens
  · have hbefore : w.reached = some r := reached_eq_some.2 ⟨hpath, hlistens⟩
    rw [hreached] at hbefore
    cases hbefore

/-- Of two that start, neither is about to remove what is at the path: it is free, or somebody
answers there. -/
structure Orderly (p q : ℕ) (w : SocketWorld) : Prop where
  plain : ∀ d, d = p ∨ d = q → w.phase d ≠ .clearing ∧ w.phase d ≠ .stopping ∧ w.phase d ≠ .closing
  own : ∀ d, d = p ∨ d = q → (w.phase d).holds = true → w.path = some (.socket d)
  seen : ∀ d, d = p ∨ d = q → w.phase d = .connecting → w.path.isSome = true
  live : w.path = none ∨ ∃ r, w.reached = some r

theorem Orderly.enter (h : w.Orderly p q)
    (hplain : phase ≠ .clearing ∧ phase ≠ .stopping ∧ phase ≠ .closing)
    (hlistens : phase.listens = (w.phase d).listens) (hholds : phase.holds = (w.phase d).holds)
    (hseen : phase = .connecting → w.path.isSome = true) : (w.enter d phase).Orderly p q where
  plain e he := by
    rw [enter_phase]
    split_ifs
    · exact hplain
    · exact h.plain e he
  own e he hholding := by
    rw [enter_phase] at hholding
    split_ifs at hholding with hed
    · exact h.own e he (hed ▸ hholds ▸ hholding)
    · exact h.own e he hholding
  seen e he hphase := by
    rw [enter_phase] at hphase
    split_ifs at hphase
    · exact hseen hphase
    · exact h.seen e he hphase
  live := h.live.imp_right fun ⟨r, hr⟩ => ⟨r, reached_enter (fun hl => hlistens.trans hl) hr⟩

/-- **A call of one that starts**, in good order. -/
theorem Orderly.call (h : w.Orderly p q) (hd : d = p ∨ d = q) (hcall : w.call d none = some w') :
    w'.Orderly p q := by
  obtain ⟨hclearing, hstopping, hclosing⟩ := h.plain d hd
  unfold SocketWorld.call at hcall
  cases hphase : w.phase d with
  | probing =>
    simp only [hphase, Option.isNone_none, Bool.and_true] at hcall
    split_ifs at hcall with hpath <;> obtain rfl := Option.some.inj hcall
    · exact h.enter (by decide) (by rw [hphase]; rfl) (by rw [hphase]; rfl) fun _ => hpath
    · exact h.enter (by decide) (by rw [hphase]; rfl) (by rw [hphase]; rfl) fun hc => by cases hc
  | connecting =>
    obtain ⟨r, hr⟩ := h.live.resolve_left fun hnone => by
      have hsome := h.seen d hd hphase
      rw [hnone] at hsome
      cases hsome
    simp only [hphase, hr] at hcall
    obtain rfl := Option.some.inj hcall
    exact h.enter (by decide) (by rw [hphase]; rfl) (by rw [hphase]; rfl) fun hc => by cases hc
  | makingParent =>
    simp only [hphase] at hcall
    obtain rfl := Option.some.inj hcall
    exact h.enter (by decide) (by rw [hphase]; rfl) (by rw [hphase]; rfl) fun hc => by cases hc
  | binding =>
    simp only [hphase] at hcall
    split at hcall
    · next hnone =>
      obtain rfl := Option.some.inj hcall
      refine ⟨fun e he => ?_, fun e he hholds => ?_, fun _ _ _ => rfl, Or.inr ⟨d, ?_⟩⟩
      · rw [enter_phase]
        split_ifs
        · decide
        · exact h.plain e he
      · rw [enter_phase] at hholds
        split_ifs at hholds with hed
        · rw [hed]
          rfl
        · exact absurd ((h.own e he hholds).symm.trans hnone) (Option.some_ne_none _)
      · refine reached_eq_some.2 ⟨rfl, ?_⟩
        rw [enter_phase, if_pos rfl]
        rfl
    · obtain rfl := Option.some.inj hcall
      exact h.enter (by decide) (by rw [hphase]; rfl) (by rw [hphase]; rfl) fun hc => by cases hc
    · next hfault => cases hfault
  | restricting =>
    have hpath := h.own d hd (by rw [hphase]; rfl)
    simp only [hphase, hpath] at hcall
    obtain rfl := Option.some.inj hcall
    exact h.enter (by decide) (by rw [hphase]; rfl) (by rw [hphase]; rfl) fun hc => by cases hc
  | clearing => exact absurd hphase hclearing
  | stopping => exact absurd hphase hstopping
  | closing => exact absurd hphase hclosing
  | unborn => simp only [hphase] at hcall; cases hcall
  | serving => simp only [hphase] at hcall; cases hcall
  | done => simp only [hphase] at hcall; cases hcall
  | failed error => simp only [hphase] at hcall; cases hcall
  | killed => simp only [hphase] at hcall; cases hcall

theorem Orderly.move {x : Move SocketWorld SocketEvent QueryNotice} (hx : socketWorld.Makes x)
    (hstarts : Starts p x.event ∨ Starts q x.event) (h : x.before.Orderly p q) :
    x.after.Orderly p q := by
  obtain ⟨w, e, w', outputs⟩ := x
  unfold Makes at hx
  dsimp only at hx hstarts h ⊢
  have hwho : ∃ d, (d = p ∨ d = q) ∧ Starts d e := by
    rcases hstarts with hp | hq
    · exact ⟨p, Or.inl rfl, hp⟩
    · exact ⟨q, Or.inr rfl, hq⟩
  obtain ⟨d, hd, rfl | rfl⟩ := hwho
  · obtain ⟨hphase, hx⟩ := Option.ite_none_right_eq_some.1 hx
    obtain ⟨rfl, -⟩ := Prod.mk.inj (Option.some.inj hx)
    exact h.enter (by decide) (by rw [hphase]; rfl) (by rw [hphase]; rfl) fun hc => by cases hc
  · obtain ⟨u, hcall, hu⟩ := Option.map_eq_some_iff.1 hx
    obtain ⟨rfl, -⟩ := Prod.mk.inj hu
    exact h.call hd hcall

/-- A run of the start of `d`, from `w` to `w'`; nobody else moves. -/
structure StartRun (d : ℕ) (w w' : SocketWorld)
    (run : List (Move SocketWorld SocketEvent QueryNotice)) : Prop where
  runs : Runs socketWorld w run w'
  starts : ∀ x ∈ run, Starts d x.event
  others : ∀ e, e ≠ d → w'.phase e = w.phase e

theorem StartRun.nil (d : ℕ) (w : SocketWorld) : StartRun d w w [] :=
  ⟨.nil w, fun _ hx => absurd hx List.not_mem_nil, fun _ _ => rfl⟩

theorem StartRun.cons {u : SocketWorld} {run : List (Move SocketWorld SocketEvent QueryNotice)}
    (hcall : w.call d none = some w') (hothers : ∀ e, e ≠ d → w'.phase e = w.phase e)
    (h : StartRun d w' u run) : StartRun d w u (⟨w, .step d none, w', []⟩ :: run) where
  runs := by
    have hmakes : socketWorld.Makes ⟨w, .step d none, w', []⟩ := by
      show (w.call d none).map _ = _
      rw [hcall]
      rfl
    exact .cons hmakes h.runs
  starts := List.forall_mem_cons.2 ⟨Or.inr rfl, h.starts⟩
  others e he := (h.others e he).trans (hothers e he)

theorem enter_others (e : ℕ) (h : e ≠ d) : (w.enter d phase).phase e = w.phase e := by
  rw [enter_phase, if_neg h]

theorem enter_self : (w.enter d phase).phase d = phase := by
  rw [enter_phase, if_pos rfl]

/-- Before a dead socket, a start comes to the removal. -/
theorem exists_clearing (hphase : w.phase d = .unborn) (hpath : w.path.isSome = true)
    (hreached : w.reached = none) : ∃ run w', StartRun d w w' run ∧ w'.phase d = .clearing ∧
      w'.path.isSome = true ∧ w'.reached = none := by
  let w₁ := w.enter d .probing
  let w₂ := w₁.enter d .connecting
  let w₃ := w₂.enter d .clearing
  have hreached₂ : w₂.reached = none := reached_enter_none rfl (reached_enter_none rfl hreached)
  have hprobe : w₁.call d none = some w₂ := by
    simp only [SocketWorld.call, w₁, enter_self, enter_path, hpath, Option.isNone_none,
      Bool.and_self, if_true]
    rfl
  have hconnect : w₂.call d none = some w₃ := by
    have hphase₂ : w₂.phase d = .connecting := enter_self
    simp only [SocketWorld.call, hphase₂, hreached₂]
    rfl
  have hrest := (StartRun.nil d w₃).cons hconnect enter_others |>.cons hprobe enter_others
  have hstart : socketWorld.Makes ⟨w, .start d, w₁, []⟩ := by
    show (if w.phase d = .unborn then _ else _) = _
    rw [if_pos hphase]
  refine ⟨_, w₃, ⟨.cons hstart hrest.runs, ?_, fun e he => ?_⟩, enter_self, hpath,
    reached_enter_none rfl hreached₂⟩
  · exact List.forall_mem_cons.2 ⟨Or.inl rfl, hrest.starts⟩
  · rw [hrest.others e he, enter_others e he]

/-- From the removal on, a start comes to serve, whatever is at the path. -/
theorem exists_serving (hphase : w.phase d = .clearing) :
    ∃ run w', StartRun d w w' run ∧ w'.phase d = .serving := by
  let w₁ := { w with path := none }.enter d .makingParent
  let w₂ := w₁.enter d .binding
  let w₃ := { w₂ with path := some (.socket d) }.enter d .restricting
  let w₄ := w₃.enter d .serving
  have hclear : w.call d none = some w₁ := by
    simp only [SocketWorld.call, hphase]
    rfl
  have hparent : w₁.call d none = some w₂ := by
    have hphase₁ : w₁.phase d = .makingParent := enter_self
    simp only [SocketWorld.call, hphase₁]
    rfl
  have hbind : w₂.call d none = some w₃ := by
    have hphase₂ : w₂.phase d = .binding := enter_self
    simp only [SocketWorld.call, hphase₂, show w₂.path = none from rfl]
    rfl
  have hchmod : w₃.call d none = some w₄ := by
    have hphase₃ : w₃.phase d = .restricting := enter_self
    simp only [SocketWorld.call, hphase₃, show w₃.path = some (.socket d) from rfl]
    rfl
  exact ⟨_, w₄, (StartRun.nil d w₄).cons hchmod enter_others |>.cons hbind enter_others
    |>.cons hparent enter_others |>.cons hclear enter_others, enter_self⟩

end SocketWorld

open SocketWorld in
/-- **Two daemons from two starts.** Of two that start at once, and of which no call fails, both can
come to serve exactly when there is something at the path that nobody answers at. -/
theorem both_serve_iff {w : SocketWorld} {p q : ℕ} (hne : p ≠ q) (hp : w.phase p = .unborn)
    (hq : w.phase q = .unborn) :
    (∃ run w', Runs socketWorld w run w' ∧ (∀ x ∈ run, Starts p x.event ∨ Starts q x.event) ∧
      w'.phase p = .serving ∧ w'.phase q = .serving) ↔ w.path.isSome = true ∧ w.reached = none := by
  constructor
  · rintro ⟨run, w', hrun, hstarts, hpserves, hqserves⟩
    by_contra hdead
    have hlive : w.path = none ∨ ∃ r, w.reached = some r := by
      rw [not_and_or, Bool.not_eq_true, Option.isSome_eq_false_iff, Option.isNone_iff_eq_none] at hdead
      exact hdead.imp_right Option.ne_none_iff_exists'.1
    have hunborn : ∀ d, d = p ∨ d = q → w.phase d = .unborn := by
      rintro d (rfl | rfl)
      · exact hp
      · exact hq
    have hinit : w.Orderly p q := by
      refine ⟨fun d hd => ?_, fun d hd hholds => ?_, fun d hd hphase => ?_, hlive⟩
      · rw [hunborn d hd]
        decide
      · rw [hunborn d hd] at hholds
        cases hholds
      · rw [hunborn d hd] at hphase
        cases hphase
    have hend : w'.Orderly p q := hrun.invariant (fun x hx hm hi => hi.move hx hm) hstarts hinit
    have hown := (hend.own p (Or.inl rfl) (by rw [hpserves]; rfl)).symm.trans
      (hend.own q (Or.inr rfl) (by rw [hqserves]; rfl))
    exact hne (SocketNode.socket.inj (Option.some.inj hown))
  · rintro ⟨hpath, hreached⟩
    obtain ⟨run₁, w₁, h₁, hclear₁, hpath₁, hreached₁⟩ := exists_clearing hp hpath hreached
    obtain ⟨run₂, w₂, h₂, hclear₂, -, -⟩ :=
      exists_clearing ((h₁.others q hne.symm).trans hq) hpath₁ hreached₁
    obtain ⟨run₃, w₃, h₃, hserves₃⟩ := exists_serving ((h₂.others p hne).trans hclear₁)
    obtain ⟨run₄, w₄, h₄, hserves₄⟩ := exists_serving ((h₃.others q hne.symm).trans hclear₂)
    refine ⟨run₁ ++ (run₂ ++ (run₃ ++ run₄)), w₄,
      h₁.runs.append (h₂.runs.append (h₃.runs.append h₄.runs)), fun x hx => ?_,
      (h₄.others p hne).trans hserves₃, hserves₄⟩
    simp only [List.mem_append] at hx
    rcases hx with hx | hx | hx | hx
    · exact Or.inl (h₁.starts x hx)
    · exact Or.inr (h₂.starts x hx)
    · exact Or.inl (h₃.starts x hx)
    · exact Or.inr (h₄.starts x hx)

theorem both_serve_iff_leftover : ∃ run w', Runs socketWorld (.init (some .leftover)) run w' ∧
    (∀ x ∈ run, SocketWorld.Starts 0 x.event ∨ SocketWorld.Starts 1 x.event) ∧
    w'.phase 0 = .serving ∧ w'.phase 1 = .serving :=
  (both_serve_iff Nat.zero_ne_one rfl rfl).2 ⟨rfl, rfl⟩

end Bypass
