import Mathlib

/-!
# Runs of a machine

A machine reacts to events: in a state, an event is refused, or it leads to another state and
shows some outputs. A run is a list of moves, one after the other. What holds of a whole run is
proved of one move:

* `Runs.induct`: an invariant, together with a property of the moves that it gives;
* `Runs.invariant`, `Runs.moves`: the two halves of it;
* `Runs.history`: an invariant of the state and of the moves that have led to it;
* `Runs.budget`, `Runs.balance`: a quantity that the moves use up, and nothing else does;
* `Runs.owed`: what stays owed until a move meets it;
* `Runs.seen`: the moves of a machine, as those of another one on what is seen of its states.

A run may be promised to meet a condition at each of its moves, which may speak of the state and of
the event.
-/

namespace Bypass

/-- States `σ`, events `ε`, outputs `ω`. -/
abbrev Machine (σ ε ω : Type) := σ → ε → Option (σ × List ω)

/-- One move: the event, what it showed, and the states around it. -/
structure Move (σ ε ω : Type) where
  before : σ
  event : ε
  after : σ
  outputs : List ω

/-- A move, with what is seen of the states. -/
def Move.seen {σ σ' ε ω : Type} (view : σ → σ') (x : Move σ ε ω) : Move σ' ε ω :=
  ⟨view x.before, x.event, view x.after, x.outputs⟩

namespace Machine

variable {σ ε ω : Type} {machine : Machine σ ε ω} {s t u : σ} {run run' : List (Move σ ε ω)}

/-- The move is one of the machine. -/
def Makes (machine : Machine σ ε ω) (x : Move σ ε ω) : Prop :=
  machine x.before x.event = some (x.after, x.outputs)

/-- The moves lead from one state to the other. -/
inductive Runs (machine : Machine σ ε ω) : σ → List (Move σ ε ω) → σ → Prop
  | nil (s : σ) : Runs machine s [] s
  | cons {x : Move σ ε ω} {run : List (Move σ ε ω)} {u : σ} : machine.Makes x →
      Runs machine x.after run u → Runs machine x.before (x :: run) u

/-- The run that a list of events makes. -/
def exec (machine : Machine σ ε ω) : σ → List ε → Option (List (Move σ ε ω) × σ)
  | s, [] => some ([], s)
  | s, e :: es => (machine s e).bind fun (t, outputs) =>
    (exec machine t es).map fun (run, u) => (⟨s, e, t, outputs⟩ :: run, u)

theorem exec_runs {es : List ε} (h : exec machine s es = some (run, t)) :
    Runs machine s run t := by
  induction es generalizing s run with
  | nil =>
    obtain ⟨rfl, rfl⟩ := Prod.mk.inj (Option.some.inj h)
    exact .nil _
  | cons e es ih =>
    obtain ⟨⟨t₁, outputs⟩, hmove, h⟩ := Option.bind_eq_some_iff.1 h
    obtain ⟨⟨run₁, u⟩, hrest, h⟩ := Option.map_eq_some_iff.1 h
    obtain ⟨rfl, rfl⟩ := Prod.mk.inj h
    have hmakes : machine.Makes ⟨s, e, t₁, outputs⟩ := hmove
    exact .cons hmakes (ih hrest)

theorem get_runs {es : List ε} (h : (exec machine s es).isSome = true) :
    Runs machine s ((exec machine s es).get h).1 ((exec machine s es).get h).2 :=
  exec_runs (Option.some_get h).symm

theorem Runs.append (h : Runs machine s run t) (h' : Runs machine t run' u) :
    Runs machine s (run ++ run') u := by
  induction h with
  | nil => exact h'
  | cons hmove _ ih => exact .cons hmove (ih h')

/-- What a run shows. -/
def shown (run : List (Move σ ε ω)) : List ω := run.flatMap Move.outputs

theorem countP_shown (p : ω → Bool) :
    (shown run).countP p = (run.map fun x => x.outputs.countP p).sum := List.countP_flatMap

theorem mem_shown {o : ω} : o ∈ shown run ↔ ∃ x ∈ run, o ∈ x.outputs := List.mem_flatMap

@[simp] theorem shown_snoc {x : Move σ ε ω} : shown (run ++ [x]) = shown run ++ x.outputs := by
  simp [shown]

/-- A run up to one of its moves, and from there on. -/
theorem Runs.split {x : Move σ ε ω} (h : Runs machine s (run ++ x :: run') t) :
    Runs machine s run x.before ∧ machine.Makes x ∧ Runs machine x.after run' t := by
  induction run generalizing s with
  | nil =>
    cases h with
    | cons hx hrest => exact ⟨.nil _, hx, hrest⟩
  | cons y run ih =>
    cases h with
    | cons hy hrest =>
      obtain ⟨hbefore, hx, hafter⟩ := ih hrest
      exact ⟨.cons hy hbefore, hx, hafter⟩

theorem Runs.makes (h : Runs machine s run t) : ∀ x ∈ run, machine.Makes x := by
  induction h with
  | nil => exact fun x hx => absurd hx List.not_mem_nil
  | cons hx _ ih => exact List.forall_mem_cons.2 ⟨hx, ih⟩

/-- What comes after a move of a run is a run. -/
theorem Runs.rest (h : Runs machine s run t) :
    ∀ x ∈ run, ∃ rest, (∀ y ∈ rest, y ∈ run) ∧ Runs machine x.after rest t := by
  induction h with
  | nil => exact fun x hx => absurd hx List.not_mem_nil
  | @cons x run u _ hrest ih =>
    intro y hy
    rcases List.mem_cons.1 hy with rfl | hy
    · exact ⟨run, fun z hz => List.mem_cons_of_mem _ hz, hrest⟩
    · obtain ⟨rest, hmem, hruns⟩ := ih y hy
      exact ⟨rest, fun z hz => List.mem_cons_of_mem _ (hmem z hz), hruns⟩

/-- What each move costs is paid from what the state holds. -/
theorem Runs.budget (rank : σ → ℕ) (cost : Move σ ε ω → ℕ) (h : Runs machine s run t)
    (hmove : ∀ x ∈ run, cost x + rank x.after ≤ rank x.before) :
    (run.map cost).sum + rank t ≤ rank s := by
  induction h with
  | nil => simp
  | @cons x rest u _ _ ih =>
    have hone := hmove x List.mem_cons_self
    have hrest := ih fun y hy => hmove y (List.mem_cons_of_mem _ hy)
    rw [List.map_cons, List.sum_cons]
    omega

/-- What the moves cost is what the state holds less. -/
theorem Runs.balance (rank : σ → ℕ) (cost : Move σ ε ω → ℕ) (h : Runs machine s run t)
    (hmove : ∀ x ∈ run, cost x + rank x.after = rank x.before) :
    (run.map cost).sum + rank t = rank s := by
  induction h with
  | nil => simp
  | @cons x rest u _ _ ih =>
    have hone := hmove x List.mem_cons_self
    have hrest := ih fun y hy => hmove y (List.mem_cons_of_mem _ hy)
    rw [List.map_cons, List.sum_cons]
    omega

/-- What is owed stays owed, until a move meets it. -/
theorem Runs.owed (Owed : σ → Prop) (Met : Move σ ε ω → Prop)
    (hmove : ∀ x, machine.Makes x → Owed x.before → Owed x.after ∨ Met x)
    (h : Runs machine s run t) (hs : Owed s) : Owed t ∨ ∃ x ∈ run, Met x := by
  induction h with
  | nil => exact Or.inl hs
  | @cons x rest u hx _ ih =>
    rcases hmove x hx hs with hafter | hmet
    · refine (ih hafter).imp_right fun ⟨y, hy, hmet⟩ => ?_
      exact ⟨y, List.mem_cons_of_mem _ hy, hmet⟩
    · exact Or.inr ⟨x, List.mem_cons_self, hmet⟩

section Rules

/-- A move keeps what holds of the state and of the moves before it. -/
theorem Runs.history {I : List (Move σ ε ω) → σ → Prop}
    (hmove : ∀ past x, machine.Makes x → I past x.before → I (past ++ [x]) x.after)
    (h : Runs machine s run t) (hs : I [] s) : I run t := by
  suffices hfrom : ∀ past, I past s → I (past ++ run) t from hfrom [] hs
  clear hs
  induction h with
  | nil => exact fun past hpast => by simpa using hpast
  | cons hx _ ih =>
    intro past hpast
    simpa using ih _ (hmove past _ hx hpast)

variable {I : σ → Prop} {Meets P : Move σ ε ω → Prop}

/-- **The rule of runs.** A move that meets the condition keeps the invariant, and has a property
where the invariant holds. So it is with every move of a run that meets the condition throughout. -/
theorem Runs.induct
    (hmove : ∀ x, machine.Makes x → Meets x → I x.before → I x.after ∧ P x)
    (h : Runs machine s run t) (hmeets : ∀ x ∈ run, Meets x) (hs : I s) :
    I t ∧ ∀ x ∈ run, I x.before ∧ I x.after ∧ P x := by
  induction h with
  | nil => exact ⟨hs, fun x hx => absurd hx List.not_mem_nil⟩
  | @cons x rest u hx _ ih =>
    obtain ⟨hafter, hP⟩ := hmove x hx (hmeets x List.mem_cons_self) hs
    obtain ⟨hend, hrest⟩ := ih (fun y hy => hmeets y (List.mem_cons_of_mem _ hy)) hafter
    refine ⟨hend, fun y hy => ?_⟩
    rcases List.mem_cons.1 hy with rfl | hy
    · exact ⟨hs, hafter, hP⟩
    · exact hrest y hy

/-- An invariant holds wherever a run comes. -/
theorem Runs.invariant (hmove : ∀ x, machine.Makes x → Meets x → I x.before → I x.after)
    (h : Runs machine s run t) (hmeets : ∀ x ∈ run, Meets x) (hs : I s) : I t :=
  (h.induct (P := fun _ => True) (fun x hx hm hi => ⟨hmove x hx hm hi, trivial⟩) hmeets hs).1

/-- Every move of a run has what the invariant gives. -/
theorem Runs.moves (hmove : ∀ x, machine.Makes x → Meets x → I x.before → I x.after ∧ P x)
    (h : Runs machine s run t) (hmeets : ∀ x ∈ run, Meets x) (hs : I s) : ∀ x ∈ run, P x :=
  fun x hx => ((h.induct hmove hmeets hs).2 x hx).2.2

/-- **A run, as it is seen.** Where an invariant holds, each move is one of another machine on what is
seen of the states, and so is the run. -/
theorem Runs.seen {σ' : Type} {machine' : Machine σ' ε ω} (view : σ → σ')
    (hmove : ∀ x, machine.Makes x → Meets x → I x.before →
      I x.after ∧ machine'.Makes (x.seen view))
    (h : Runs machine s run t) (hmeets : ∀ x ∈ run, Meets x) (hs : I s) :
    I t ∧ Runs machine' (view s) (run.map (Move.seen view)) (view t) := by
  induction h with
  | nil s => exact ⟨hs, .nil _⟩
  | @cons x rest u hx _ ih =>
    obtain ⟨hafter, hseen⟩ := hmove x hx (hmeets x List.mem_cons_self) hs
    obtain ⟨hend, hrest⟩ := ih (fun y hy => hmeets y (List.mem_cons_of_mem _ hy)) hafter
    exact ⟨hend, .cons hseen hrest⟩

end Rules

@[simp] theorem shown_map_seen {σ' : Type} (view : σ → σ') :
    shown (run.map (Move.seen view)) = shown run := by
  simp [shown, Move.seen, List.flatMap_map]

@[simp] theorem events_map_seen {σ' : Type} (view : σ → σ') :
    (run.map (Move.seen view)).map Move.event = run.map Move.event := by
  simp [Move.seen]

end Machine

end Bypass
