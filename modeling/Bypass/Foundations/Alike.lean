import Bypass.Foundations.Prog

/-!
# Programs that run alike

Two programs may call different things and still do the same wherever an invariant holds: a call and
the same call behind a check that the invariant makes pass. `Prog.Alike I Q p q` says that, run alone
where `I` holds, both return the same, show the same and leave the same; that `I` holds again; and
that `Q` holds of what they return. What holds of every run of `q` then holds of the runs of `p` that
start where `I` does.

* `Prog.Alike.bind`: **in a sequence**, what the first part returns may be relied on by the second.
* `Prog.alike_call`: **one call**.
-/

namespace Bypass

namespace Prog

variable {ℓ σ ε δ α β : Type}

/-- **Where `I` holds both do the same**, keep `I`, and return what `Q` says. -/
def Alike (I : σ → Prop) (Q : α → Prop) (p q : Prog ℓ σ ε α) : Prop :=
  ∀ s, I s → p.run s = q.run s ∧ p.trace s = q.trace s ∧ I (p.run s).2 ∧
    ∀ a, (p.run s).1 = .ok a → Q a

variable {I : σ → Prop} {Q Q' : α → Prop} {R : β → Prop} {p q : Prog ℓ σ ε α}

theorem alike_pure {a : α} (ha : Q a) : Alike I Q (pure a : Prog ℓ σ ε α) (pure a) :=
  fun _ hs => ⟨rfl, rfl, hs, fun _ heq => Except.ok.inj heq ▸ ha⟩

theorem alike_throw (e : ε) : Alike I Q (throw e : Prog ℓ σ ε α) (throw e) :=
  fun _ hs => ⟨rfl, rfl, hs, nofun⟩

/-- **One call.** -/
theorem alike_call {ev : Except ε α → ℓ} {f g : σ → Except ε α × σ}
    (hsame : ∀ s, I s → f s = g s) (hkeeps : ∀ s, I s → I (f s).2)
    (hQ : ∀ s a, I s → (f s).1 = .ok a → Q a) : Alike I Q (call ev f) (call ev g) := by
  intro s hs
  refine ⟨hsame s hs, ?_, hkeeps s hs, fun a => hQ s a hs⟩
  rw [trace_call, trace_call, hsame s hs]

theorem Alike.mono (h : Alike I Q p q) (hQ : ∀ a, Q a → Q' a) : Alike I Q' p q := fun s hs =>
  (h s hs).imp_right (And.imp_right (And.imp_right fun hr a ha => hQ a (hr a ha)))

theorem Alike.mapErr (h : Alike I Q p q) (g : ε → δ) : Alike I Q (p.mapErr g) (q.mapErr g) := by
  intro s hs
  obtain ⟨hrun, htrace, hI, hQ⟩ := h s hs
  simp only [run_mapErr, trace_mapErr, ← hrun, htrace]
  refine ⟨trivial, trivial, hI, fun a ha => hQ a ?_⟩
  cases hr : (p.run s).1 with
  | ok b =>
    rw [hr] at ha
    exact congrArg Except.ok (Except.ok.inj ha)
  | error e =>
    rw [hr] at ha
    cases ha

/-- **In a sequence**, the second part may rely on what the first part returned. -/
theorem Alike.bind (h : Alike I Q p q) {f g : α → Prog ℓ σ ε β}
    (hfg : ∀ a, Q a → Alike I R (f a) (g a)) : Alike I R (p >>= f) (q >>= g) := by
  intro s hs
  obtain ⟨hrun, htrace, hI, hQ⟩ := h s hs
  simp only [run_bind, trace_bind, ← hrun, ← htrace]
  rcases hp : p.run s with ⟨e | a, t⟩
  · rw [hp] at hI
    exact ⟨rfl, rfl, hI, nofun⟩
  · rw [hp] at hI hQ
    obtain ⟨hrun', htrace', hI', hQ'⟩ := hfg a (hQ a rfl) t hI
    exact ⟨hrun', congrArg _ htrace', hI', hQ'⟩

theorem Alike.ite {c : Prop} [Decidable c] {p' q' : Prog ℓ σ ε α} (h : Alike I Q p q)
    (h' : Alike I Q p' q') : Alike I Q (if c then p else p') (if c then q else q') := by
  split_ifs
  · exact h
  · exact h'

end Prog

end Bypass
