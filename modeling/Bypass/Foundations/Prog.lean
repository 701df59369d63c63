import Mathlib

/-!
# Programs of atomic actions on a shared state

A program is a tree of atomic actions on a state `σ`, ended by a result or an error. One program
has two readings, and both are needed of code that is run alone in a test and beside other
processes in the field:

* run alone, it is a function of the state (`Prog.run`), with a trace of the actions it took
  (`Prog.trace`). Its rules of pre- and postconditions are those of `Prog.wp`;
* run in an environment, which may act between any two of its actions, it is the relation
  `Prog.Exec`. The environment is a labelled transition system of its own, with a control state:
  another program (`Prog.toEnv`), or a bare relation on states (`Env.ofRel`).

An action shows an event `ℓ` computed from the state it acts on, so that a trace tells a call that
failed from one that did not.
-/

namespace Bypass

/-- A program over the state `σ`, with events `ℓ`, errors `ε` and results `α`. -/
inductive Prog (ℓ σ ε α : Type) where
  | done (r : Except ε α)
  /-- On the state `s`: show `ev s`, move to `upd s`, go on as `next s`. -/
  | act (ev : σ → ℓ) (upd : σ → σ) (next : σ → Prog ℓ σ ε α)

/-- One action of a trace: what it showed, and the states around it. -/
structure Step (ℓ σ : Type) where
  ev : ℓ
  before : σ
  after : σ

namespace Prog

variable {ℓ σ ε δ α β : Type}

/-! ## Sequencing -/

/-- Run `f` on the result of `p`; an error of `p` ends the program. -/
def bind (p : Prog ℓ σ ε α) (f : α → Prog ℓ σ ε β) : Prog ℓ σ ε β :=
  match p with
  | .done (.ok a) => f a
  | .done (.error e) => .done (.error e)
  | .act ev upd next => .act ev upd fun s => (next s).bind f

instance : Monad (Prog ℓ σ ε) where
  pure a := .done (.ok a)
  bind := bind

/-- Run `h` on an error of `p`. -/
def handle (p : Prog ℓ σ ε α) (h : ε → Prog ℓ σ ε α) : Prog ℓ σ ε α :=
  match p with
  | .done (.ok a) => .done (.ok a)
  | .done (.error e) => h e
  | .act ev upd next => .act ev upd fun s => (next s).handle h

instance : MonadExceptOf ε (Prog ℓ σ ε) where
  throw e := .done (.error e)
  tryCatch := handle

theorem bind_pure' (p : Prog ℓ σ ε α) : p.bind (fun a => .done (.ok a)) = p := by
  induction p with
  | done r => cases r <;> rfl
  | act ev upd next ih => exact congrArg (act ev upd) (funext ih)

theorem bind_assoc' {γ : Type} (p : Prog ℓ σ ε α) (f : α → Prog ℓ σ ε β) (g : β → Prog ℓ σ ε γ) :
    (p.bind f).bind g = p.bind fun a => (f a).bind g := by
  induction p with
  | done r => cases r <;> rfl
  | act ev upd next ih => exact congrArg (act ev upd) (funext ih)

instance : LawfulMonad (Prog ℓ σ ε) :=
  LawfulMonad.mk' _ bind_pure' (fun _ _ => rfl) bind_assoc'

/-- An error ends a sequence. -/
@[simp] theorem throw_bind (e : ε) (f : α → Prog ℓ σ ε β) :
    (throw e : Prog ℓ σ ε α) >>= f = throw e := rfl

/-- Rename the errors of a program. -/
def mapErr (f : ε → δ) : Prog ℓ σ ε α → Prog ℓ σ δ α
  | .done r => .done (r.mapError f)
  | .act ev upd next => .act ev upd fun s => (next s).mapErr f

/-- Run a program for its effect: its result, also an error, is dropped. -/
def ignore : Prog ℓ σ ε α → Prog ℓ σ δ Unit
  | .done _ => .done (.ok ())
  | .act ev upd next => .act ev upd fun s => (next s).ignore

/-- Run a program, and return its result, also an error. -/
def attempt : Prog ℓ σ ε α → Prog ℓ σ δ (Except ε α)
  | .done r => .done (.ok r)
  | .act ev upd next => .act ev upd fun s => (next s).attempt

/-- A program on the first of two states, with its events shown by `g`. -/
def onFst {m τ : Type} (g : ℓ → m) : Prog ℓ σ ε α → Prog m (σ × τ) ε α
  | .done r => .done r
  | .act ev upd next =>
    .act (fun s => g (ev s.1)) (fun s => (upd s.1, s.2)) fun s => (next s.1).onFst g

/-- A single action, which computes its result and the next state together. -/
def call (ev : Except ε α → ℓ) (f : σ → Except ε α × σ) : Prog ℓ σ ε α :=
  .act (fun s => ev (f s).1) (fun s => (f s).2) fun s => .done (f s).1

section OnFst

variable {m τ : Type} {g : ℓ → m}

theorem onFst_call (ev : Except ε α → ℓ) (f : σ → Except ε α × σ) :
    ((call ev f).onFst g : Prog m (σ × τ) ε α) =
      call (fun r => g (ev r)) fun s => ((f s.1).1, ((f s.1).2, s.2)) := rfl

theorem onFst_bind (p : Prog ℓ σ ε α) (f : α → Prog ℓ σ ε β) :
    ((p >>= f).onFst g : Prog m (σ × τ) ε β) = p.onFst g >>= fun a => (f a).onFst g := by
  induction p with
  | done r => cases r <;> rfl
  | act ev upd next ih => exact congrArg (act _ _) (funext fun s => ih s.1)

theorem onFst_mapErr (e : ε → δ) (p : Prog ℓ σ ε α) :
    ((p.mapErr e).onFst g : Prog m (σ × τ) δ α) = (p.onFst g).mapErr e := by
  induction p with
  | done r => rfl
  | act ev upd next ih => exact congrArg (act _ _) (funext fun s => ih s.1)

end OnFst

/-! ## Running alone -/

/-- The result of a program run alone, and the state it leaves. -/
def run : Prog ℓ σ ε α → σ → Except ε α × σ
  | .done r, s => (r, s)
  | .act _ upd next, s => (next s).run (upd s)

/-- The actions of a program run alone. -/
def trace : Prog ℓ σ ε α → σ → List (Step ℓ σ)
  | .done _, _ => []
  | .act ev upd next, s => ⟨ev s, s, upd s⟩ :: (next s).trace (upd s)

@[simp] theorem run_pure (a : α) (s : σ) : (pure a : Prog ℓ σ ε α).run s = (.ok a, s) := rfl

@[simp] theorem run_throw (e : ε) (s : σ) :
    (throw e : Prog ℓ σ ε α).run s = (.error e, s) := rfl

@[simp] theorem run_call (ev : Except ε α → ℓ) (f : σ → Except ε α × σ) (s : σ) :
    (call ev f).run s = f s := rfl

theorem run_bind (p : Prog ℓ σ ε α) (f : α → Prog ℓ σ ε β) (s : σ) :
    (p >>= f).run s = match p.run s with
      | (.ok a, t) => (f a).run t
      | (.error e, t) => (.error e, t) := by
  induction p generalizing s with
  | done r => cases r <;> rfl
  | act ev upd next ih => exact ih s (upd s)

@[simp] theorem run_mapErr (g : ε → δ) (p : Prog ℓ σ ε α) (s : σ) :
    (p.mapErr g).run s = ((p.run s).1.mapError g, (p.run s).2) := by
  induction p generalizing s with
  | done r => rfl
  | act ev upd next ih => exact ih s (upd s)

@[simp] theorem run_attempt (p : Prog ℓ σ ε α) (s : σ) :
    (p.attempt : Prog ℓ σ δ (Except ε α)).run s = (.ok (p.run s).1, (p.run s).2) := by
  induction p generalizing s with
  | done r => rfl
  | act ev upd next ih => exact ih s (upd s)

theorem run_ignore (p : Prog ℓ σ ε α) (s : σ) :
    (p.ignore : Prog ℓ σ δ Unit).run s = (.ok (), (p.run s).2) := by
  induction p generalizing s with
  | done r => rfl
  | act ev upd next ih => exact ih s (upd s)

/-- **Inversion of a sequence that succeeds.** -/
theorem run_bind_ok {p : Prog ℓ σ ε α} {f : α → Prog ℓ σ ε β} {s t : σ} {b : β}
    (h : (p >>= f).run s = (.ok b, t)) :
    ∃ a u, p.run s = (.ok a, u) ∧ (f a).run u = (.ok b, t) := by
  rw [run_bind] at h
  rcases hp : p.run s with ⟨e | a, u⟩
  · simp [hp] at h
  · exact ⟨a, u, rfl, by simpa [hp] using h⟩

theorem run_mapErr_ok {g : ε → δ} {p : Prog ℓ σ ε α} {s t : σ} {a : α}
    (h : (p.mapErr g).run s = (.ok a, t)) : p.run s = (.ok a, t) := by
  rw [run_mapErr] at h
  rcases hp : p.run s with ⟨e | a', u⟩
  · simp [hp, Except.mapError] at h
  · simpa [hp, Except.mapError] using h

@[simp] theorem trace_pure (a : α) (s : σ) : (pure a : Prog ℓ σ ε α).trace s = [] := rfl

@[simp] theorem trace_throw (e : ε) (s : σ) : (throw e : Prog ℓ σ ε α).trace s = [] := rfl

@[simp] theorem trace_call (ev : Except ε α → ℓ) (f : σ → Except ε α × σ) (s : σ) :
    (call ev f).trace s = [⟨ev (f s).1, s, (f s).2⟩] := rfl

theorem trace_bind (p : Prog ℓ σ ε α) (f : α → Prog ℓ σ ε β) (s : σ) :
    (p >>= f).trace s = p.trace s ++ match p.run s with
      | (.ok a, t) => (f a).trace t
      | (.error _, _) => [] := by
  induction p generalizing s with
  | done r =>
    cases r with
    | ok a => exact (List.nil_append _).symm
    | error e => rfl
  | act ev upd next ih => exact congrArg _ (ih s (upd s))

/-- The actions of a sequence. -/
theorem mem_trace_bind {p : Prog ℓ σ ε α} {f : α → Prog ℓ σ ε β} {s : σ} {c : Step ℓ σ} :
    c ∈ (p >>= f).trace s ↔
      c ∈ p.trace s ∨ ∃ a t, p.run s = (.ok a, t) ∧ c ∈ (f a).trace t := by
  rw [trace_bind, List.mem_append]
  refine or_congr_right ?_
  rcases hp : p.run s with ⟨e | a, t⟩ <;> simp

@[simp] theorem trace_mapErr (g : ε → δ) (p : Prog ℓ σ ε α) (s : σ) :
    (p.mapErr g).trace s = p.trace s := by
  induction p generalizing s with
  | done r => rfl
  | act ev upd next ih => exact congrArg _ (ih s (upd s))

@[simp] theorem trace_attempt (p : Prog ℓ σ ε α) (s : σ) :
    (p.attempt : Prog ℓ σ δ (Except ε α)).trace s = p.trace s := by
  induction p generalizing s with
  | done r => rfl
  | act ev upd next ih => exact congrArg _ (ih s (upd s))

theorem trace_ignore (p : Prog ℓ σ ε α) (s : σ) :
    (p.ignore : Prog ℓ σ δ Unit).trace s = p.trace s := by
  induction p generalizing s with
  | done r => rfl
  | act ev upd next ih => exact congrArg _ (ih s (upd s))

/-! ## Pre- and postconditions -/

/-- `p` run alone on `s` ends with `Q`: of its result, its trace and the state it leaves. -/
def wp (p : Prog ℓ σ ε α) (Q : Except ε α → List (Step ℓ σ) → σ → Prop) (s : σ) : Prop :=
  Q (p.run s).1 (p.trace s) (p.run s).2

theorem wp_mono {p : Prog ℓ σ ε α} {Q R : Except ε α → List (Step ℓ σ) → σ → Prop} {s : σ}
    (h : wp p Q s) (hQR : ∀ r tr t, Q r tr t → R r tr t) : wp p R s :=
  hQR _ _ _ h

theorem wp_and {p : Prog ℓ σ ε α} {Q R : Except ε α → List (Step ℓ σ) → σ → Prop} {s : σ}
    (hQ : wp p Q s) (hR : wp p R s) : wp p (fun r tr t => Q r tr t ∧ R r tr t) s :=
  ⟨hQ, hR⟩

@[simp] theorem wp_pure {a : α} {Q : Except ε α → List (Step ℓ σ) → σ → Prop} {s : σ} :
    wp (pure a) Q s ↔ Q (.ok a) [] s := Iff.rfl

@[simp] theorem wp_throw {e : ε} {Q : Except ε α → List (Step ℓ σ) → σ → Prop} {s : σ} :
    wp (throw e) Q s ↔ Q (.error e) [] s := Iff.rfl

@[simp] theorem wp_call {ev : Except ε α → ℓ} {f : σ → Except ε α × σ}
    {Q : Except ε α → List (Step ℓ σ) → σ → Prop} {s : σ} :
    wp (call ev f) Q s ↔ Q (f s).1 [⟨ev (f s).1, s, (f s).2⟩] (f s).2 := Iff.rfl

theorem wp_act {ev : σ → ℓ} {upd : σ → σ} {next : σ → Prog ℓ σ ε α}
    {Q : Except ε α → List (Step ℓ σ) → σ → Prop} {s : σ} :
    wp (.act ev upd next) Q s ↔
      wp (next s) (fun r tr t => Q r (⟨ev s, s, upd s⟩ :: tr) t) (upd s) := Iff.rfl

theorem wp_mapErr {g : ε → δ} {p : Prog ℓ σ ε α}
    {Q : Except δ α → List (Step ℓ σ) → σ → Prop} {s : σ} :
    wp (p.mapErr g) Q s ↔ wp p (fun r tr t => Q (r.mapError g) tr t) s := by
  simp only [wp, run_mapErr, trace_mapErr]

theorem wp_attempt {p : Prog ℓ σ ε α}
    {Q : Except δ (Except ε α) → List (Step ℓ σ) → σ → Prop} {s : σ} :
    wp p.attempt Q s ↔ wp p (fun r tr t => Q (.ok r) tr t) s := by
  simp only [wp, run_attempt, trace_attempt]

theorem wp_bind {p : Prog ℓ σ ε α} {f : α → Prog ℓ σ ε β}
    {Q : Except ε β → List (Step ℓ σ) → σ → Prop} {s : σ} :
    wp (p >>= f) Q s ↔ wp p (fun r tr t => match r with
      | .ok a => wp (f a) (fun r' tr' t' => Q r' (tr ++ tr') t') t
      | .error e => Q (.error e) tr t) s := by
  simp only [wp, run_bind, trace_bind]
  rcases h : p.run s with ⟨_ | _, t⟩ <;> simp

end Prog

/-! ## Running in an environment -/

/-- An environment: a control state `κ`, and the steps it takes on a shared state `σ`. -/
abbrev Env (κ m σ : Type) := κ → σ → m → κ → σ → Prop

/-- The environment that takes every step of the relation `R`. -/
def Env.ofRel {σ : Type} (R : σ → σ → Prop) : Env Unit Unit σ := fun _ s _ _ t => R s t

namespace Prog

variable {ℓ σ ε α β κ m : Type}

/-- A program as an environment of another: it takes its own actions, one at a time. -/
inductive toEnv : Env (Prog ℓ σ ε α) ℓ σ
  | act (ev : σ → ℓ) (upd : σ → σ) (next : σ → Prog ℓ σ ε α) (s : σ) :
    toEnv (.act ev upd next) s (ev s) (next s) (upd s)

/-- `Exec E k p s tr r k' t`: started in the state `s` beside the environment `E` in control
state `k`, the program `p` ends with the result `r` in the state `t`. Between two actions of the
program the environment takes any number of steps. -/
inductive Exec (E : Env κ m σ) :
    κ → Prog ℓ σ ε α → σ → List (Step (ℓ ⊕ m) σ) → Except ε α → κ → σ → Prop
  | done {k : κ} {r : Except ε α} {s : σ} : Exec E k (.done r) s [] r k s
  | env {k k' k'' : κ} {ev upd} {next : σ → Prog ℓ σ ε α} {s s' t : σ} {l : m} {tr r} :
    E k s l k' s' → Exec E k' (.act ev upd next) s' tr r k'' t →
      Exec E k (.act ev upd next) s (⟨.inr l, s, s'⟩ :: tr) r k'' t
  | act {k k' : κ} {ev upd} {next : σ → Prog ℓ σ ε α} {s t : σ} {tr r} :
    Exec E k (next s) (upd s) tr r k' t →
      Exec E k (.act ev upd next) s (⟨.inl (ev s), s, upd s⟩ :: tr) r k' t

variable {E : Env κ m σ}

/-! ### Schedules -/

section Schedule

variable (step : κ → σ → Option (m × κ × σ))

/-- At most `n` steps of an environment, each computed by `step`. -/
def envSteps : ℕ → κ → σ → List (Step (ℓ ⊕ m) σ) × κ × σ
  | 0, k, s => ([], k, s)
  | n + 1, k, s =>
    match step k s with
    | none => ([], k, s)
    | some (l, k', s') =>
      let rest := envSteps n k' s'
      (⟨.inr l, s, s'⟩ :: rest.1, rest.2)

/-- Run a program on a schedule: how many steps the environment takes before each action. -/
def runUnder : Prog ℓ σ ε α → List ℕ → κ → σ → List (Step (ℓ ⊕ m) σ) × Except ε α × κ × σ
  | .done r, _, k, s => ([], r, k, s)
  | .act ev upd next, ns, k, s =>
    let pre := envSteps step (ns.headD 0) k s
    let rest := (next pre.2.2).runUnder ns.tail pre.2.1 (upd pre.2.2)
    (pre.1 ++ ⟨.inl (ev pre.2.2), pre.2.2, upd pre.2.2⟩ :: rest.1, rest.2)

theorem exec_envSteps (hE : ∀ k s l k' s', step k s = some (l, k', s') → E k s l k' s')
    {ev upd} {next : σ → Prog ℓ σ ε α} (n : ℕ) (k : κ) (s : σ) {tr r k' t}
    (h : Exec E (@envSteps ℓ σ κ m step n k s).2.1 (.act ev upd next)
      (@envSteps ℓ σ κ m step n k s).2.2 tr r k' t) :
    Exec E k (.act ev upd next) s ((envSteps step n k s).1 ++ tr) r k' t := by
  induction n generalizing k s with
  | zero => exact h
  | succ n ih =>
    rw [envSteps] at h ⊢
    split at h
    · exact h
    · next l k' s' hs => exact .env (hE k s l k' s' hs) (ih k' s' h)

/-- **A schedule is a run in the environment.** -/
theorem exec_runUnder (hE : ∀ k s l k' s', step k s = some (l, k', s') → E k s l k' s')
    (p : Prog ℓ σ ε α) (ns : List ℕ) (k : κ) (s : σ) :
    Exec E k p s (p.runUnder step ns k s).1 (p.runUnder step ns k s).2.1
      (p.runUnder step ns k s).2.2.1 (p.runUnder step ns k s).2.2.2 := by
  induction p generalizing ns k s with
  | done r => exact .done
  | act ev upd next ih => exact exec_envSteps step hE _ k s (.act (ih _ _ _ _))

end Schedule

/-- The next action of a program, as a step of an environment. -/
def envStep : Prog ℓ σ ε α → σ → Option (ℓ × Prog ℓ σ ε α × σ)
  | .done _, _ => none
  | .act ev upd next, s => some (ev s, next s, upd s)

theorem toEnv_of_envStep {p p' : Prog ℓ σ ε α} {s s' : σ} {l : ℓ}
    (h : p.envStep s = some (l, p', s')) : toEnv p s l p' s' := by
  cases p with
  | done r => cases h
  | act ev upd next =>
    cases h
    exact .act ev upd next s

/-! ### Inversion -/

/-- Inversion of a finished program. -/
theorem Exec.done_inv {k k' : κ} {r r' : Except ε α} {s t : σ} {tr : List (Step (ℓ ⊕ m) σ)}
    (h : Exec E k (.done r) s tr r' k' t) : tr = [] ∧ r' = r ∧ k' = k ∧ t = s := by
  cases h
  exact ⟨rfl, rfl, rfl, rfl⟩

theorem Exec.pure_inv {k k' : κ} {a : α} {r : Except ε α} {s t : σ} {tr : List (Step (ℓ ⊕ m) σ)}
    (h : Exec E k (pure a) s tr r k' t) : tr = [] ∧ r = .ok a ∧ k' = k ∧ t = s :=
  h.done_inv

theorem Exec.throw_inv {k k' : κ} {e : ε} {r : Except ε α} {s t : σ}
    {tr : List (Step (ℓ ⊕ m) σ)} (h : Exec E k (throw e : Prog ℓ σ ε α) s tr r k' t) :
    r = .error e :=
  h.done_inv.2.1

/-- **Inversion of a sequence**: a run of `p >>= f` is a run of `p` that fails, or one that
returns `a` and then a run of `f a`. -/
theorem Exec.bind_inv {k k' : κ} {p : Prog ℓ σ ε α} {f : α → Prog ℓ σ ε β} {s t : σ} {tr r}
    (h : Exec E k (p >>= f) s tr r k' t) :
    (∃ e, r = .error e ∧ Exec E k p s tr (.error e) k' t) ∨
      ∃ a tr₁ tr₂ k₁ u, tr = tr₁ ++ tr₂ ∧ Exec E k p s tr₁ (.ok a) k₁ u ∧
        Exec E k₁ (f a) u tr₂ r k' t := by
  induction p generalizing k s tr with
  | done r₀ =>
    cases r₀ with
    | ok a => exact Or.inr ⟨a, [], tr, k, s, rfl, .done, h⟩
    | error e =>
      obtain ⟨rfl, rfl, rfl, rfl⟩ := h.done_inv
      exact Or.inl ⟨e, rfl, .done⟩
  | act ev upd next ih =>
    change Exec E k (.act ev upd fun s => next s >>= f) s tr r k' t at h
    generalize hq : (Prog.act ev upd fun s => next s >>= f) = q at h
    induction h with
    | done => cases hq
    | env hE h' ih' =>
      cases hq
      rcases ih' ih rfl with ⟨e, rfl, h⟩ | ⟨a, tr₁, tr₂, k₁, u, rfl, h₁, h₂⟩
      · exact Or.inl ⟨e, rfl, .env hE h⟩
      · exact Or.inr ⟨a, _, tr₂, k₁, u, rfl, .env hE h₁, h₂⟩
    | act h' _ =>
      cases hq
      rcases ih _ h' with ⟨e, rfl, h⟩ | ⟨a, tr₁, tr₂, k₁, u, rfl, h₁, h₂⟩
      · exact Or.inl ⟨e, rfl, .act h⟩
      · exact Or.inr ⟨a, _, tr₂, k₁, u, rfl, .act h₁, h₂⟩

/-- Inversion of a sequence that succeeds. -/
theorem Exec.bind_ok {k k' : κ} {p : Prog ℓ σ ε α} {f : α → Prog ℓ σ ε β} {s t : σ} {tr b}
    (h : Exec E k (p >>= f) s tr (.ok b) k' t) :
    ∃ a tr₁ tr₂ k₁ u, tr = tr₁ ++ tr₂ ∧ Exec E k p s tr₁ (.ok a) k₁ u ∧
      Exec E k₁ (f a) u tr₂ (.ok b) k' t := by
  rcases h.bind_inv with ⟨e, he, -⟩ | h
  · cases he
  · exact h

/-- Inversion of renamed errors. -/
theorem Exec.mapErr_inv {k k' : κ} {p : Prog ℓ σ ε α} {g : ε → δ} {s t : σ} {tr r}
    (h : Exec E k (p.mapErr g) s tr r k' t) :
    ∃ r₀ : Except ε α, r = r₀.mapError g ∧ Exec E k p s tr r₀ k' t := by
  induction p generalizing k s tr with
  | done r₀ =>
    obtain ⟨rfl, rfl, rfl, rfl⟩ := h.done_inv
    exact ⟨r₀, rfl, .done⟩
  | act ev upd next ih =>
    change Exec E k (.act ev upd fun s => (next s).mapErr g) s tr r k' t at h
    generalize hq : (Prog.act ev upd fun s => (next s).mapErr g) = q at h
    induction h with
    | done => cases hq
    | env hE h' ih' =>
      cases hq
      obtain ⟨r₀, rfl, h⟩ := ih' ih rfl
      exact ⟨r₀, rfl, .env hE h⟩
    | act h' _ =>
      cases hq
      obtain ⟨r₀, rfl, h⟩ := ih _ h'
      exact ⟨r₀, rfl, .act h⟩

theorem Exec.mapErr_ok {k k' : κ} {p : Prog ℓ σ ε α} {g : ε → δ} {s t : σ} {tr a}
    (h : Exec E k (p.mapErr g) s tr (.ok a) k' t) : Exec E k p s tr (.ok a) k' t := by
  obtain ⟨r₀, hr, h⟩ := h.mapErr_inv
  cases r₀ with
  | error e => cases hr
  | ok b =>
    cases hr
    exact h

/-- Inversion of a program whose result is looked at, also if it is an error. -/
theorem Exec.attempt_inv {k k' : κ} {p : Prog ℓ σ ε α} {s t : σ} {tr}
    {r : Except δ (Except ε α)} (h : Exec E k p.attempt s tr r k' t) :
    ∃ r₀, r = .ok r₀ ∧ Exec E k p s tr r₀ k' t := by
  induction p generalizing k s tr with
  | done r₀ =>
    obtain ⟨rfl, rfl, rfl, rfl⟩ := h.done_inv
    exact ⟨r₀, rfl, .done⟩
  | act ev upd next ih =>
    change Exec E k (.act ev upd fun s => (next s).attempt) s tr r k' t at h
    generalize hq : (Prog.act ev upd fun s => (next s).attempt) = q at h
    induction h with
    | done => cases hq
    | env hE h' ih' =>
      cases hq
      obtain ⟨r₀, rfl, h⟩ := ih' ih rfl
      exact ⟨r₀, rfl, .env hE h⟩
    | act h' _ =>
      cases hq
      obtain ⟨r₀, rfl, h⟩ := ih _ h'
      exact ⟨r₀, rfl, .act h⟩

/-! ### Traces as paths -/

/-- A trace is a path of states from `s` to `t`. -/
def Path {l : Type} (s : σ) : List (Step l σ) → σ → Prop
  | [], t => s = t
  | x :: tr, t => x.before = s ∧ Path x.after tr t

theorem path_append {l : Type} {s t : σ} {tr tr' : List (Step l σ)} :
    Path s (tr ++ tr') t ↔ ∃ u, Path s tr u ∧ Path u tr' t := by
  induction tr generalizing s with
  | nil => simp [Path]
  | cons x tr ih => simp only [List.cons_append, Path, ih, and_assoc, exists_and_left]

/-- What no step changes is the same at both ends. -/
theorem Path.const {l β : Type} {g : σ → β} {s t : σ} {tr : List (Step l σ)} (h : Path s tr t)
    (hg : ∀ x ∈ tr, g x.after = g x.before) : g t = g s := by
  induction tr generalizing s with
  | nil => exact congrArg g h.symm
  | cons x tr ih =>
    obtain ⟨rfl, h⟩ := h
    rw [ih h fun y hy => hg y (List.mem_cons_of_mem _ hy), hg x List.mem_cons_self]

theorem Exec.path {k k' : κ} {p : Prog ℓ σ ε α} {s t : σ} {tr r}
    (h : Exec E k p s tr r k' t) : Path s tr t := by
  induction h with
  | done => rfl
  | env _ _ ih => exact ⟨rfl, ih⟩
  | act _ ih => exact ⟨rfl, ih⟩

/-- From `s` to `u` only the environment acts. -/
structure Idle (E : Env κ m σ) (s : σ) (tr : List (Step (ℓ ⊕ m) σ)) (u : σ) : Prop where
  path : Path s tr u
  steps : ∀ x ∈ tr, ∃ l k₁ k₂, x.ev = .inr l ∧ E k₁ x.before l k₂ x.after

/-- **Inversion of a single action**: the environment moves, and then the action is taken. -/
theorem Exec.call_inv {k k' : κ} {ev : Except ε α → ℓ} {f : σ → Except ε α × σ} {s t : σ} {tr r}
    (h : Exec E k (call ev f) s tr r k' t) :
    ∃ pre u, tr = pre ++ [⟨.inl (ev (f u).1), u, t⟩] ∧ Idle E s pre u ∧ f u = (r, t) := by
  unfold call at h
  generalize hq : (Prog.act (fun s => ev (f s).1) (fun s => (f s).2) fun s => .done (f s).1) = q
    at h
  induction h with
  | done => cases hq
  | env hE h' ih =>
    cases hq
    obtain ⟨pre, u, rfl, ⟨hpath, hsteps⟩, hf⟩ := ih rfl
    refine ⟨_ :: pre, u, rfl, ⟨⟨rfl, hpath⟩, ?_⟩, hf⟩
    intro x hx
    rcases List.mem_cons.1 hx with rfl | hx
    · exact ⟨_, _, _, rfl, hE⟩
    · exact hsteps x hx
  | act h' _ =>
    cases hq
    obtain ⟨rfl, rfl, -, rfl⟩ := h'.done_inv
    exact ⟨[], _, rfl, ⟨rfl, fun x hx => by simp at hx⟩, rfl⟩

/-- Every action that the program can take satisfies `Q`. -/
def Steps (Q : ℓ → σ → σ → Prop) : Prog ℓ σ ε α → Prop
  | .done _ => True
  | .act ev upd next => ∀ s, Q (ev s) s (upd s) ∧ Steps Q (next s)

section Steps

variable {Q : ℓ → σ → σ → Prop}

theorem steps_pure (a : α) : Steps Q (pure a : Prog ℓ σ ε α) := trivial

theorem steps_throw (e : ε) : Steps Q (throw e : Prog ℓ σ ε α) := trivial

theorem steps_call {ev : Except ε α → ℓ} {f : σ → Except ε α × σ}
    (h : ∀ s, Q (ev (f s).1) s (f s).2) : Steps Q (call ev f) :=
  fun s => ⟨h s, trivial⟩

theorem Steps.imp {R : ℓ → σ → σ → Prop} {p : Prog ℓ σ ε α} (h : Steps Q p)
    (hQR : ∀ l s t, Q l s t → R l s t) : Steps R p := by
  induction p with
  | done r => trivial
  | act ev upd next ih => exact fun s => ⟨hQR _ _ _ (h s).1, ih s (h s).2⟩

theorem Steps.mapErr {g : ε → δ} {p : Prog ℓ σ ε α} (h : Steps Q p) : Steps Q (p.mapErr g) := by
  induction p with
  | done r => trivial
  | act ev upd next ih => exact fun s => ⟨(h s).1, ih s (h s).2⟩

theorem Steps.ignore {p : Prog ℓ σ ε α} (h : Steps Q p) :
    Steps Q (p.ignore : Prog ℓ σ δ Unit) := by
  induction p with
  | done r => trivial
  | act ev upd next ih => exact fun s => ⟨(h s).1, ih s (h s).2⟩

theorem Steps.bind {p : Prog ℓ σ ε α} {f : α → Prog ℓ σ ε β} (h : Steps Q p)
    (hf : ∀ a, Steps Q (f a)) : Steps Q (p >>= f) := by
  induction p with
  | done r =>
    cases r with
    | ok a => exact hf a
    | error e => trivial
  | act ev upd next ih => exact fun s => ⟨(h s).1, ih s (h s).2⟩

theorem Steps.attempt {p : Prog ℓ σ ε α} (h : Steps Q p) :
    Steps Q (p.attempt : Prog ℓ σ δ (Except ε α)) := by
  induction p with
  | done r => trivial
  | act ev upd next ih => exact fun s => ⟨(h s).1, ih s (h s).2⟩

theorem Steps.onFst {τ : Type} {g : ℓ → m} {R : m → σ × τ → σ × τ → Prop} {p : Prog ℓ σ ε α}
    (h : Steps Q p) (hQ : ∀ l s s' t, Q l s s' → R (g l) (s, t) (s', t)) :
    Steps R (p.onFst g : Prog m (σ × τ) ε α) := by
  induction p with
  | done r => trivial
  | act ev upd next ih => exact fun s => ⟨hQ _ _ _ _ (h s.1).1, ih s.1 (h s.1).2⟩

/-- Every step of a run alone is an action of the program. -/
theorem Steps.trace {p : Prog ℓ σ ε α} (h : Steps Q p) (s : σ) :
    ∀ c ∈ p.trace s, Q c.ev c.before c.after := by
  induction p generalizing s with
  | done r => exact fun c hc => absurd hc List.not_mem_nil
  | act ev upd next ih =>
    intro c hc
    rcases List.mem_cons.1 hc with rfl | hc
    · exact (h s).1
    · exact ih s (h s).2 (upd s) c hc

/-- **What every action keeps, a run alone keeps.** -/
theorem Steps.keeps {R : σ → σ → Prop} (hrefl : ∀ s, R s s)
    (htrans : ∀ s t u, R s t → R t u → R s u) (hQ : ∀ l s t, Q l s t → R s t)
    {p : Prog ℓ σ ε α} (h : Steps Q p) (s : σ) : R s (p.run s).2 := by
  induction p generalizing s with
  | done r => exact hrefl s
  | act ev upd next ih => exact htrans s (upd s) _ (hQ _ _ _ (h s).1) (ih s (h s).2 (upd s))

/-- A program whose actions change nothing leaves the state as it was. -/
theorem Steps.run_eq {p : Prog ℓ σ ε α} (h : Steps (fun _ s s' => s' = s) p) (s : σ) :
    (p.run s).2 = s := by
  induction p generalizing s with
  | done r => rfl
  | act ev upd next ih =>
    show ((next s).run (upd s)).2 = s
    rw [(h s).1]
    exact ih s (h s).2 s

/-- **The steps of a run** are actions of the program, or steps of the environment. -/
theorem Exec.steps {k k' : κ} {p : Prog ℓ σ ε α} {s t : σ} {tr r}
    (h : Exec E k p s tr r k' t) (hp : Steps Q p) :
    ∀ x ∈ tr, (∃ l, x.ev = .inl l ∧ Q l x.before x.after) ∨
      ∃ l k₁ k₂, x.ev = .inr l ∧ E k₁ x.before l k₂ x.after := by
  induction h with
  | done => simp
  | env hE _ ih =>
    intro x hx
    rcases List.mem_cons.1 hx with rfl | hx
    · exact Or.inr ⟨_, _, _, rfl, hE⟩
    · exact ih hp x hx
  | @act k k' ev upd next s t tr r _ ih =>
    intro x hx
    rcases List.mem_cons.1 hx with rfl | hx
    · exact Or.inl ⟨_, rfl, (hp s).1⟩
    · exact ih (hp s).2 x hx

/-- The program's own steps of a run are among its actions. -/
theorem Exec.own {k k' : κ} {p : Prog ℓ σ ε α} {s t : σ} {tr r} (h : Exec E k p s tr r k' t)
    (hp : Steps Q p) : ∀ x ∈ tr, ∀ l, x.ev = .inl l → Q l x.before x.after := by
  intro x hx l hl
  rcases h.steps hp x hx with ⟨l', hl', hQ⟩ | ⟨l', -, -, hl', -⟩
  · rw [hl] at hl'
    cases hl'
    exact hQ
  · rw [hl] at hl'
    cases hl'

/-- A step of a program, and what it goes on as. -/
theorem Steps.toEnv {p p' : Prog ℓ σ ε α} {s s' : σ} {l : ℓ} (hp : Steps Q p)
    (h : Prog.toEnv p s l p' s') : Q l s s' ∧ Steps Q p' := by
  cases h with
  | act => exact hp s

end Steps

/-- Every result that the program can return satisfies `P`. -/
def Returns (P : α → Prop) : Prog ℓ σ ε α → Prop
  | .done (.ok a) => P a
  | .done (.error _) => True
  | .act _ _ next => ∀ s, Returns P (next s)

section Returns

variable {P : α → Prop} {Q : β → Prop}

theorem returns_pure {a : α} (h : P a) : Returns P (pure a : Prog ℓ σ ε α) := h

theorem returns_throw (e : ε) : Returns P (throw e : Prog ℓ σ ε α) := trivial

theorem returns_true (p : Prog ℓ σ ε α) : Returns (fun _ => True) p := by
  induction p with
  | done r => cases r <;> trivial
  | act ev upd next ih => exact ih

theorem returns_bind {p : Prog ℓ σ ε α} {f : α → Prog ℓ σ ε β} (hf : ∀ a, Returns Q (f a)) :
    Returns Q (p >>= f) := by
  induction p with
  | done r =>
    cases r with
    | ok a => exact hf a
    | error e => trivial
  | act ev upd next ih => exact fun s => ih s

/-- The result of a run alone is one that the program can return. -/
theorem Returns.run {p : Prog ℓ σ ε α} (h : Returns P p) {s t : σ} {a : α}
    (hrun : p.run s = (.ok a, t)) : P a := by
  induction p generalizing s with
  | done r =>
    obtain ⟨rfl, -⟩ := Prod.mk.inj hrun
    exact h
  | act ev upd next ih => exact ih s (h s) hrun

end Returns

/-- **The steps of an environment** that keeps an invariant of its control state. -/
theorem Exec.env_steps {I : κ → Prop} {P : m → σ → σ → Prop}
    (hI : ∀ k s l k' s', I k → E k s l k' s' → P l s s' ∧ I k')
    {k k' : κ} {p : Prog ℓ σ ε α} {s t : σ} {tr r} (h : Exec E k p s tr r k' t) (hk : I k) :
    (∀ x ∈ tr, ∀ l, x.ev = .inr l → P l x.before x.after) ∧ I k' := by
  induction h with
  | done => exact ⟨by simp, hk⟩
  | env hE _ ih =>
    obtain ⟨hP, hk'⟩ := hI _ _ _ _ _ hk hE
    refine ⟨fun x hx l hl => ?_, (ih hk').2⟩
    rcases List.mem_cons.1 hx with rfl | hx
    · cases hl
      exact hP
    · exact (ih hk').1 x hx l hl
  | act _ ih =>
    refine ⟨fun x hx l hl => ?_, (ih hk).2⟩
    rcases List.mem_cons.1 hx with rfl | hx
    · cases hl
    · exact (ih hk).1 x hx l hl

/-! ### Marked steps -/

section Marked

variable {M : ℓ → Prop} {p : Prog ℓ σ ε α} {f : α → Prog ℓ σ ε β} {k k' : κ} {s t : σ}
  {r : Except ε β} {tr front back : List (Step (ℓ ⊕ m) σ)} {x : Step (ℓ ⊕ m) σ} {l : ℓ}

/-- A program that takes no marked action has none in its runs. -/
theorem Exec.not_marked {r : Except ε α} (h : Exec E k p s tr r k' t)
    (hp : Steps (fun l _ _ => ¬ M l) p) (hl : x.ev = .inl l) (hM : M l) : x ∉ tr := by
  intro hx
  rcases h.steps hp x hx with ⟨l', hl', hnot⟩ | ⟨l', -, -, hl', -⟩
  · rw [hl] at hl'
    cases hl'
    exact hnot hM
  · rw [hl] at hl'
    cases hl'

/-- The program's step in a run of a single action. -/
theorem Exec.call_own {ev : Except ε α → ℓ} {g : σ → Except ε α × σ} {r : Except ε α}
    (h : Exec E k (call ev g) s (front ++ x :: back) r k' t) (hl : x.ev = .inl l) :
    l = ev (g x.before).1 ∧ Idle E s front x.before := by
  obtain ⟨pre, u, hsplit, hidle, -⟩ := h.call_inv
  rcases List.eq_nil_or_concat' back with rfl | ⟨rest, y, rfl⟩
  · obtain ⟨rfl, hx⟩ := List.append_inj' hsplit rfl
    obtain rfl := (List.cons.inj hx).1
    exact ⟨(Sum.inl.inj hl).symm, hidle⟩
  · rw [← List.cons_append, ← List.append_assoc] at hsplit
    obtain ⟨rfl, -⟩ := List.append_inj' hsplit rfl
    obtain ⟨l', -, -, hev, -⟩ := hidle.steps x (by simp)
    rw [hl] at hev
    cases hev

/-- **A marked step of a sequence is in its second part** when the first has none. -/
theorem Exec.marked_later (h : Exec E k (p >>= f) s (front ++ x :: back) r k' t)
    (hp : Steps (fun l _ _ => ¬ M l) p) (hl : x.ev = .inl l) (hM : M l) :
    ∃ a tr₁ front₂ k₁ u, front = tr₁ ++ front₂ ∧ Exec E k p s tr₁ (.ok a) k₁ u ∧
      Exec E k₁ (f a) u (front₂ ++ x :: back) r k' t := by
  rcases h.bind_inv with ⟨e, -, h⟩ | ⟨a, tr₁, tr₂, k₁, u, hsplit, h₁, h₂⟩
  · exact absurd (by simp) (h.not_marked hp hl hM)
  · have hx := h₁.not_marked hp hl hM
    rcases List.append_eq_append_iff.1 hsplit with ⟨c, rfl, hc⟩ | ⟨front₂, rfl, rfl⟩
    · cases c with
      | nil =>
        rw [List.nil_append] at hc
        rw [List.append_nil] at h₁
        exact ⟨a, front, [], k₁, u, by simp, h₁, hc ▸ h₂⟩
      | cons y c =>
        obtain ⟨rfl, -⟩ := List.cons.inj hc
        exact absurd (by simp) hx
    · exact ⟨a, tr₁, front₂, k₁, u, rfl, h₁, h₂⟩

/-- **A marked step of a sequence is in its first part** when the second has none. -/
theorem Exec.marked_before (h : Exec E k (p >>= f) s (front ++ x :: back) r k' t)
    (hf : ∀ a, Steps (fun l _ _ => ¬ M l) (f a)) (hl : x.ev = .inl l) (hM : M l) :
    ∃ r₁ back₁ k₁ u, Exec E k p s (front ++ x :: back₁) r₁ k₁ u := by
  rcases h.bind_inv with ⟨e, -, h⟩ | ⟨a, tr₁, tr₂, k₁, u, hsplit, h₁, h₂⟩
  · exact ⟨.error e, back, k', t, h⟩
  · have hx := h₂.not_marked (hf a) hl hM
    rcases List.append_eq_append_iff.1 hsplit with ⟨c, rfl, hc⟩ | ⟨front₂, rfl, rfl⟩
    · cases c with
      | nil =>
        rw [List.nil_append] at hc
        exact absurd (by simp [← hc]) hx
      | cons y c =>
        obtain ⟨rfl, -⟩ := List.cons.inj hc
        exact ⟨.ok a, c, k₁, u, h₁⟩
    · exact absurd (by simp) hx

end Marked

/-! ### The others' last step -/

/-- The last step of the environment. -/
def lastOther (tr : List (Step (ℓ ⊕ m) σ)) : Option (Step (ℓ ⊕ m) σ) :=
  (tr.filter fun x => x.ev.isRight).getLast?

/-- **What no action of the program changes** is as the last step of the environment left it. -/
theorem Path.lastOther {g : σ → β} {s t : σ} {tr : List (Step (ℓ ⊕ m) σ)} (h : Path s tr t)
    (hown : ∀ x ∈ tr, ∀ l, x.ev = .inl l → g x.after = g x.before) :
    g t = ((Prog.lastOther tr).map fun x => g x.after).getD (g s) := by
  induction tr generalizing s with
  | nil => exact congrArg g h.symm
  | cons x tr ih =>
    obtain ⟨rfl, h⟩ := h
    have hrest := ih h fun y hy => hown y (List.mem_cons_of_mem _ hy)
    rw [hrest, Prog.lastOther, Prog.lastOther]
    cases hev : x.ev with
    | inl l => simp [hev, hown x List.mem_cons_self l hev]
    | inr l =>
      rw [List.filter_cons_of_pos (by simp [hev]), List.getLast?_cons]
      cases (tr.filter fun x => x.ev.isRight).getLast? <;> rfl

end Prog

end Bypass
