import Bypass.Foundations.Prog
import Bypass.Foundations.Runs

/-!
# Programs side by side

Any number of programs act on one state, one action at a time and in any order. To one of them the
others are a disturbance: before each of its actions, the state may have changed. What they may
change is a relation, and what holds of the program under any such disturbance holds of it in the
pool.

* `Prog.disturbed`: a program and its disturbance, as a program on the state and a clock.
* `pool_disturbed`: **in a pool, every program is disturbed** by what the others do.
* `pool_steps`: every move of a pool is an action of the program that makes it.
-/

namespace Bypass

open Machine

namespace Prog

variable {ℓ σ ε δ α β : Type}

/-! ## Disturbance -/

/-- The program `p`, before the `n`-th action of which the state changes by `js n`. -/
def disturbed (js : ℕ → σ → σ) : Prog ℓ σ ε α → Prog ℓ (ℕ × σ) ε α
  | .done r => .done r
  | .act ev upd next => .act (fun s => ev (js s.1 s.2)) (fun s => (s.1 + 1, upd (js s.1 s.2)))
      fun s => (next (js s.1 s.2)).disturbed js

/-- What a call does when it is disturbed. -/
def disturbedCall (js : ℕ → σ → σ) (f : σ → Except ε α × σ) (s : ℕ × σ) : Except ε α × (ℕ × σ) :=
  ((f (js s.1 s.2)).1, (s.1 + 1, (f (js s.1 s.2)).2))

variable {js js' : ℕ → σ → σ}

@[simp] theorem disturbed_pure (a : α) : (pure a : Prog ℓ σ ε α).disturbed js = pure a := rfl

@[simp] theorem disturbed_throw (e : ε) :
    (throw e : Prog ℓ σ ε α).disturbed js = throw e := rfl

@[simp] theorem disturbed_call (ev : Except ε α → ℓ) (f : σ → Except ε α × σ) :
    (call ev f).disturbed js = call ev (disturbedCall js f) := rfl

@[simp] theorem disturbed_bind (p : Prog ℓ σ ε α) (f : α → Prog ℓ σ ε β) :
    (p >>= f).disturbed js = p.disturbed js >>= fun a => (f a).disturbed js := by
  induction p with
  | done r => cases r <;> rfl
  | act ev upd next ih => exact congrArg (act _ _) (funext fun s => ih (js s.1 s.2))

@[simp] theorem disturbed_mapErr (g : ε → δ) (p : Prog ℓ σ ε α) :
    (p.mapErr g).disturbed js = (p.disturbed js).mapErr g := by
  induction p with
  | done r => rfl
  | act ev upd next ih => exact congrArg (act _ _) (funext fun s => ih (js s.1 s.2))

@[simp] theorem disturbed_attempt (p : Prog ℓ σ ε α) :
    (p.attempt : Prog ℓ σ δ (Except ε α)).disturbed js = (p.disturbed js).attempt := by
  induction p with
  | done r => rfl
  | act ev upd next ih => exact congrArg (act _ _) (funext fun s => ih (js s.1 s.2))

@[simp] theorem disturbed_ite {c : Prop} [Decidable c] (p q : Prog ℓ σ ε α) :
    (if c then p else q).disturbed js = if c then p.disturbed js else q.disturbed js :=
  apply_ite _ _ _ _

/-- Only the disturbances to come matter. -/
theorem disturbed_congr (p : Prog ℓ σ ε α) {n : ℕ} (s : σ) (h : ∀ k, n ≤ k → js k = js' k) :
    (p.disturbed js).run (n, s) = (p.disturbed js').run (n, s) ∧
      ((p.disturbed js).trace (n, s)).map Step.ev =
        ((p.disturbed js').trace (n, s)).map Step.ev := by
  induction p generalizing n s with
  | done r => exact ⟨rfl, rfl⟩
  | act ev upd next ih =>
    obtain ⟨hrun, htrace⟩ := ih (js n s) (upd (js n s))
      fun k hk => h k (Nat.le_of_succ_le hk)
    simp only [disturbed, run, trace, List.map_cons, ← h n (le_refl n)]
    exact ⟨hrun, congrArg _ htrace⟩

end Prog

/-! ## The pool -/

section Pool

variable {ι ℓ σ ε α : Type} [DecidableEq ι]

/-- **Programs side by side**: an event is whose turn it is. -/
def pool : Machine (σ × (ι → Prog ℓ σ ε α)) ι (ι × ℓ) := fun s i =>
  match s.2 i with
  | .done _ => none
  | .act ev upd next => some ((upd s.1, Function.update s.2 i (next s.1)), [(i, ev s.1)])

/-- The actions of one program, among those of all. -/
def actionsOf (i : ι) (outputs : List (ι × ℓ)) : List ℓ :=
  outputs.filterMap fun o => if o.1 = i then some o.2 else none

variable {s t : σ} {ps qs : ι → Prog ℓ σ ε α} {i : ι}
  {x : Move (σ × (ι → Prog ℓ σ ε α)) ι (ι × ℓ)}
  {run : List (Move (σ × (ι → Prog ℓ σ ε α)) ι (ι × ℓ))}

/-- **What a move is**: an action of the program whose turn it is. -/
theorem pool_cases (hx : pool.Makes x) : ∃ ev upd next, x.before.2 x.event = .act ev upd next ∧
    x.after.1 = upd x.before.1 ∧
    x.after.2 = Function.update x.before.2 x.event (next x.before.1) ∧
    x.outputs = [(x.event, ev x.before.1)] := by
  unfold Makes pool at hx
  split at hx
  · cases hx
  · next ev upd next hact =>
    obtain ⟨hafter, hout⟩ := Prod.mk.inj (Option.some.inj hx)
    exact ⟨ev, upd, next, hact, hafter ▸ rfl, hafter ▸ rfl, hout.symm⟩

/-- **Every move is an action of its program.** -/
theorem pool_steps {Q : ι → ℓ → σ → σ → Prop} (hrun : Runs pool (s, ps) run (t, qs))
    (hps : ∀ i, (ps i).Steps (Q i)) : ∀ x ∈ run, ∃ l, Q x.event l x.before.1 x.after.1 := by
  have hall : ∀ x ∈ run, True := fun _ _ => trivial
  refine hrun.moves (I := fun s => ∀ i, (s.2 i).Steps (Q i)) (fun x hx _ hi => ?_) hall hps
  obtain ⟨ev, upd, next, hact, hstate, hprogs, -⟩ := pool_cases hx
  have hown := hi x.event
  rw [hact] at hown
  obtain ⟨hQ, hnext⟩ := hown x.before.1
  refine ⟨fun j => ?_, _, hstate ▸ hQ⟩
  rw [hprogs]
  by_cases hj : j = x.event
  · rw [hj, Function.update_self]
    exact hnext
  · rw [Function.update_of_ne hj]
    exact hi j

open Classical in
/-- A disturbance that brings every state to `s` from which that is allowed. -/
noncomputable def towards (R : σ → σ → Prop) (s u : σ) : σ := if R u s then s else u

theorem towards_allowed {R : σ → σ → Prop} (hrefl : ∀ s, R s s) (s u : σ) : R u (towards R s u) := by
  unfold towards
  split_ifs with h
  · exact h
  · exact hrefl u

/-- **In a pool, every program is disturbed by the others.** When they do only what `R` allows, there
is a disturbance within `R` under which the program, run alone, does what it has done in the pool,
and goes on, undisturbed, from a state that differs from that of the pool by `R`. -/
theorem pool_disturbed {R : σ → σ → Prop} (hrefl : ∀ s, R s s)
    (htrans : ∀ s t u, R s t → R t u → R s u) (hrun : Runs pool (s, ps) run (t, qs))
    (hothers : ∀ x ∈ run, x.event ≠ i → R x.before.1 x.after.1) :
    ∃ js : ℕ → σ → σ, (∀ k u, R u (js k u)) ∧ ∃ n u, (∀ k, n ≤ k → js k = id) ∧ R u t ∧
      ((ps i).disturbed js).run (0, s) = ((qs i).disturbed js).run (n, u) ∧
      (((ps i).disturbed js).trace (0, s)).map Step.ev =
        actionsOf i (shown run) ++ (((qs i).disturbed js).trace (n, u)).map Step.ev := by
  -- the program may be behind, at a state that the others have left since
  suffices hfrom : ∀ m s₀, R s₀ s → ∃ js : ℕ → σ → σ, (∀ k u, R u (js k u)) ∧ ∃ n u, m ≤ n ∧
      (∀ k, n ≤ k → js k = id) ∧ R u t ∧
      ((ps i).disturbed js).run (m, s₀) = ((qs i).disturbed js).run (n, u) ∧
      (((ps i).disturbed js).trace (m, s₀)).map Step.ev =
        actionsOf i (shown run) ++ (((qs i).disturbed js).trace (n, u)).map Step.ev by
    obtain ⟨js, hjs, n, u, -, hu⟩ := hfrom 0 s (hrefl s)
    exact ⟨js, hjs, n, u, hu⟩
  generalize hstart : (s, ps) = start at hrun
  generalize hstop : (t, qs) = stop at hrun
  induction hrun generalizing s ps with
  | nil s' =>
    intro m s₀ hs
    obtain ⟨rfl, rfl⟩ := Prod.mk.inj (hstart.trans hstop.symm)
    exact ⟨fun _ => id, fun _ u => hrefl u, m, s₀, le_refl m, fun _ _ => rfl, hs, rfl, rfl⟩
  | @cons x rest u hx hrest ih =>
    intro m s₀ hs
    obtain ⟨hmove, hothers⟩ := List.forall_mem_cons.1 hothers
    obtain ⟨ev, upd, next, hact, hstate, hprogs, hout⟩ := pool_cases hx
    rw [← hstart] at hact hstate hprogs hout hmove
    change ps x.event = .act ev upd next at hact
    have hafter : (upd s, Function.update ps x.event (next s)) = x.after := by
      rw [← hstate, ← hprogs]
    have hshown : actionsOf i (shown (x :: rest)) =
        actionsOf i [(x.event, ev s)] ++ actionsOf i (shown rest) := by
      rw [actionsOf, shown, List.flatMap_cons, List.filterMap_append, hout]
      rfl
    rw [hshown]
    by_cases hi : x.event = i
    · -- its own action, before which the state is brought to where the pool is
      subst hi
      obtain ⟨js, hjs, n, v, hn, hid, hv, hrun, htrace⟩ :=
        ih hothers hafter hstop (m + 1) (upd s) (hrefl _)
      rw [Function.update_self] at hrun htrace
      let js' : ℕ → σ → σ := fun k => if k = m then towards R s else js k
      have hlater : ∀ k, m + 1 ≤ k → js' k = js k := fun k hk => if_neg (Nat.ne_of_gt hk)
      have hnow : js' m s₀ = s := by
        show (if m = m then towards R s else js m) s₀ = s
        rw [if_pos rfl, towards, if_pos hs]
      obtain ⟨hrun₁, htrace₁⟩ := Prog.disturbed_congr (next s) (upd s) hlater
      obtain ⟨hrun₂, htrace₂⟩ := Prog.disturbed_congr (qs x.event) v
        fun k hk => hlater k (hn.trans hk)
      refine ⟨js', fun k w => ?_, n, v, Nat.le_of_succ_le hn,
        fun k hk => (hlater k (hn.trans hk)).trans (hid k hk), hv, ?_, ?_⟩
      · show R w ((if k = m then towards R s else js k) w)
        split_ifs
        · exact towards_allowed hrefl s w
        · exact hjs k w
      · rw [hact, hrun₂, ← hrun, ← hrun₁]
        show ((next (js' m s₀)).disturbed js').run (m + 1, upd (js' m s₀)) = _
        rw [hnow]
      · rw [hact, htrace₂]
        show ev (js' m s₀) ::
          (((next (js' m s₀)).disturbed js').trace (m + 1, upd (js' m s₀))).map Step.ev = _
        rw [hnow, htrace₁, htrace]
        simp [actionsOf]
    · -- an action of another, which the program does not see yet
      have hps : Function.update ps x.event (next s) i = ps i :=
        Function.update_of_ne (Ne.symm hi) _ _
      have hR : R s₀ (upd s) := htrans s₀ s _ hs (hstate ▸ hmove hi)
      obtain ⟨js, hjs, n, v, hn, hid, hv, hrun, htrace⟩ := ih hothers hafter hstop m s₀ hR
      rw [hps] at hrun htrace
      refine ⟨js, hjs, n, v, hn, hid, hv, hrun, ?_⟩
      rw [htrace]
      simp [actionsOf, hi]

end Pool

end Bypass
