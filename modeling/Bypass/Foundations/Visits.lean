import Bypass.Foundations.Prog

/-!
# The states on the way

A process may end at any instant of a run. What it then leaves is the state that it started from,
the state after one of its actions, or one that an action passes through by itself: `inside` says
which these are.

* `visits_bind`: a sequence visits what its parts visit.
* `Steps.visits`: **what every action keeps, within itself too, holds on the whole way**.
-/

namespace Bypass

namespace Prog

variable {ℓ σ ε δ α β : Type} {inside : ℓ → σ → σ → Prop} {s u : σ}

/-- **The states that a run visits.** -/
def Visits (inside : ℓ → σ → σ → Prop) (p : Prog ℓ σ ε α) (s u : σ) : Prop :=
  u = s ∨ ∃ c ∈ p.trace s, u = c.after ∨ inside c.ev c.before u

/-- A run ends where it started, or after one of its actions. -/
theorem run_after (p : Prog ℓ σ ε α) (s : σ) :
    (p.run s).2 = s ∨ ∃ c ∈ p.trace s, (p.run s).2 = c.after := by
  induction p generalizing s with
  | done r => exact Or.inl rfl
  | act ev upd next ih =>
    have hrun : ((Prog.act ev upd next).run s).2 = ((next s).run (upd s)).2 := rfl
    have hhead : (⟨ev s, s, upd s⟩ : Step ℓ σ) ∈ (Prog.act ev upd next).trace s :=
      List.mem_cons_self
    rcases ih s (upd s) with hstart | ⟨c, hc, hafter⟩
    · exact Or.inr ⟨_, hhead, hrun.trans hstart⟩
    · exact Or.inr ⟨c, List.mem_cons_of_mem _ hc, hrun.trans hafter⟩

/-- So its end is visited. -/
theorem visits_end (p : Prog ℓ σ ε α) (s : σ) : Visits inside p s (p.run s).2 :=
  (run_after p s).imp_right fun ⟨c, hc, hafter⟩ => ⟨c, hc, Or.inl hafter⟩

theorem visits_call {ev : Except ε α → ℓ} {f : σ → Except ε α × σ}
    (h : Visits inside (call ev f) s u) : u = s ∨ u = (f s).2 ∨ inside (ev (f s).1) s u := by
  refine h.imp_right fun ⟨c, hc, hu⟩ => ?_
  rw [trace_call, List.mem_singleton] at hc
  rwa [hc] at hu

theorem visits_mapErr {g : ε → δ} {p : Prog ℓ σ ε α} :
    Visits inside (p.mapErr g) s u ↔ Visits inside p s u := by
  rw [Visits, Visits, trace_mapErr]

/-- **A sequence** visits what its first part visits, and then what the second does. -/
theorem visits_bind {p : Prog ℓ σ ε α} {f : α → Prog ℓ σ ε β} (h : Visits inside (p >>= f) s u) :
    Visits inside p s u ∨ ∃ a t, p.run s = (.ok a, t) ∧ Visits inside (f a) t u := by
  rcases h with rfl | ⟨c, hc, hu⟩
  · exact Or.inl (Or.inl rfl)
  rcases mem_trace_bind.1 hc with hc | ⟨a, t, hrun, hc⟩
  · exact Or.inl (Or.inr ⟨c, hc, hu⟩)
  · exact Or.inr ⟨a, t, hrun, Or.inr ⟨c, hc, hu⟩⟩

/-- **What every action keeps**, within itself too, holds on the whole way. -/
theorem Steps.visits {Q : ℓ → σ → σ → Prop} {R : σ → σ → Prop} (hrefl : ∀ s, R s s)
    (htrans : ∀ s t u, R s t → R t u → R s u) (hQ : ∀ l s t, Q l s t → R s t)
    (hinside : ∀ l s t u, Q l s t → inside l s u → R s u) {p : Prog ℓ σ ε α} (hp : p.Steps Q)
    (h : Visits inside p s u) : R s u := by
  induction p generalizing s with
  | done r =>
    rcases h with rfl | ⟨c, hc, -⟩
    · exact hrefl u
    · exact absurd hc List.not_mem_nil
  | act ev upd next ih =>
    obtain ⟨hstep, hnext⟩ := hp s
    rcases h with rfl | ⟨c, hc, hu⟩
    · exact hrefl u
    rcases List.mem_cons.1 hc with rfl | hc
    · rcases hu with rfl | hu
      · exact hQ _ _ _ hstep
      · exact hinside _ _ _ _ hstep hu
    · exact htrans s (upd s) u (hQ _ _ _ hstep) (ih s hnext (Or.inr ⟨c, hc, hu⟩))

end Prog

end Bypass
