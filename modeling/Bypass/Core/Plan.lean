import Bypass.Core.Store

/-!
# Mutations as plans

Every mutation of a store has the same shape. It asks the backends, without changing a file, what
to change; it then makes its changes one by one, and commits. The first half is a program that
answers with a `Plan`; the second is `execute`, the same for all. This file states the shape, and
shows once what follows from it.

* `insert_eq`, `remove_eq`, `copy_eq`, …: each operation is its plan, executed.
* `execute_spec`: what executing a plan does to the files, on success and on failure.
* `Outcome`, `Asks.outcome`: how a planned operation can end.
-/

namespace Bypass

/-! ## Plans -/

/-- A change of the storage. -/
inductive Change where
  | write (path : RelPath) (data : Bytes)
  | remove (path : RelPath)

def Change.path : Change → RelPath
  | write p _ => p
  | remove p => p

/-- What is at the path of a change that succeeded. -/
def Change.value : Change → Option Bytes
  | write _ d => some d
  | remove _ => none

/-- The files after a change. -/
def Change.apply (c : Change) (f : Files) : Files := Function.update f c.path c.value

/-- The files after a list of changes. -/
def applyAll (cs : List Change) (f : Files) : Files := cs.foldl (fun g c => c.apply g) f

@[simp] theorem applyAll_nil (f : Files) : applyAll [] f = f := rfl

@[simp] theorem applyAll_cons (c : Change) (cs : List Change) (f : Files) :
    applyAll (c :: cs) f = applyAll cs (c.apply f) := rfl

/-- What an operation decided: its changes, its commit if it makes one, and its result. -/
structure Plan (α : Type) where
  changes : List Change
  commit : Option (List RelPath × Str)
  result : α

variable {W CE SE VE α : Type}

/-! ## Execution -/

namespace Store

variable (store : Store W CE SE VE)

/-- Make a change. -/
def change : Change → StoreM W CE SE VE Unit
  | .write p d => (store.storage.write p d).mapErr .storage
  | .remove p => (store.storage.remove p).mapErr .storage

/-- Make changes in order. -/
def changeAll : List Change → StoreM W CE SE VE Unit
  | [] => pure ()
  | c :: cs => do
    store.change c
    changeAll cs

/-- Make the changes of a plan, then its commit. -/
def execute (plan : Plan α) : StoreM W CE SE VE α := do
  store.changeAll plan.changes
  match plan.commit with
  | none => pure plan.result
  | some (paths, message) => do
    (store.vcs.commit paths message).mapErr .vcs
    pure plan.result

end Store

/-- `tr` ends with its only failing call, which came after the first `n` of the changes `cs`. -/
def FailedAfter (files : W → Files) (cs : List Change) (n : ℕ) (s : W)
    (tr : Trace W CE SE VE) (t : W) : Prop :=
  ∃ pre c, tr = pre ++ [c] ∧ c.ev.failed = true ∧ ¬ Faulty pre ∧ c.after = t ∧
    files c.before = applyAll (cs.take n) (files s)

/-- What a run of changes did: to paths it does not name, nothing; when it names no path twice, it
cannot undo a change. -/
structure Changed (files : W → Files) (cs : List Change) (s : W) (tr : Trace W CE SE VE)
    (t : W) : Prop where
  frame : ∀ q, q ∉ cs.map Change.path → files t q = files s q
  quiet_of_eq : (cs.map Change.path).Nodup → files t = files s → Quiet files tr

section Execute

variable {store : Store W CE SE VE} {files : W → Files} (h : OnMap store files)
include h

theorem change_spec (c : Change) (s : W) :
    (store.change c).wp (fun r tr t => ∃ call, tr = [call] ∧ call.before = s ∧ call.after = t ∧
      (∀ q, q ≠ c.path → files t q = files s q) ∧ (call.ev.failed = true ↔ ∃ e, r = .error e) ∧
      (r = .ok () → files t = c.apply (files s))) s := by
  cases c with
  | write p d =>
    refine Prog.wp_mapErr.2 (Prog.wp_call.2 ⟨_, rfl, rfl, rfl, h.write_frame p d s, ?_, ?_⟩)
    · cases (store.storage.writeFn p d s).1 <;>
        simp [Event.failed, Except.isOk, Except.toBool, Except.mapError]
    · intro hr
      refine h.write_ok p d s ?_
      cases hw : (store.storage.writeFn p d s).1 with
      | ok u => rfl
      | error e => simp [hw, Except.mapError] at hr
  | remove p =>
    refine Prog.wp_mapErr.2 (Prog.wp_call.2 ⟨_, rfl, rfl, rfl, h.remove_frame p s, ?_, ?_⟩)
    · cases (store.storage.removeFn p s).1 <;>
        simp [Event.failed, Except.isOk, Except.toBool, Except.mapError]
    · intro hr
      refine h.remove_ok p s ?_
      cases hw : (store.storage.removeFn p s).1 with
      | ok u => rfl
      | error e => simp [hw, Except.mapError] at hr

/-- **Making changes in order.** -/
theorem changeAll_spec (cs : List Change) (s : W) :
    (store.changeAll cs).wp (fun r tr t => Changed files cs s tr t ∧ match r with
      | .ok _ => ¬ Faulty tr ∧ files t = applyAll cs (files s)
      | .error _ => ∃ n, FailedAfter files cs n s tr t) s := by
  induction cs generalizing s with
  | nil => exact ⟨⟨fun _ _ => rfl, fun _ _ => quiet_nil⟩, not_faulty_nil, rfl⟩
  | cons c cs ih =>
    refine Prog.wp_bind.2 (Prog.wp_mono (change_spec h c s) ?_)
    rintro r _ u ⟨call, rfl, rfl, rfl, hframe, hfail, hok⟩
    have hframe' : ∀ q, q ∉ (c :: cs).map Change.path →
        files call.after q = files call.before q := fun q hq => hframe q (by simp_all)
    cases r with
    | error e =>
      refine ⟨⟨hframe', fun _ heq => quiet_singleton.2 heq⟩, 0, [], call, rfl, ?_⟩
      exact ⟨hfail.2 ⟨e, rfl⟩, not_faulty_nil, rfl, rfl⟩
    | ok v =>
      have hc : call.ev.failed ≠ true := fun hf => by
        obtain ⟨e, he⟩ := hfail.1 hf
        cases he
      have hu := hok rfl
      refine Prog.wp_mono (ih call.after) fun r tr t ⟨hch, hr⟩ => ⟨⟨?_, ?_⟩, ?_⟩
      · intro q hq
        rw [hch.frame q (by simp_all), hframe' q hq]
      · intro hnd heq
        obtain ⟨hp, hnd⟩ := List.nodup_cons.1 hnd
        -- no later change is at the path of `c`, so `c` itself changed nothing
        have hcu : files call.after = files call.before := funext fun q => by
          by_cases hq : q = c.path
          · rw [hq, ← hch.frame c.path hp, heq]
          · exact hframe q hq
        exact quiet_append.2 ⟨quiet_singleton.2 hcu, hch.quiet_of_eq hnd (heq.trans hcu.symm)⟩
      · cases r with
        | ok w =>
          exact ⟨fun hf => (faulty_append.1 hf).elim (fun hf => hc (faulty_singleton.1 hf)) hr.1,
            by rw [hr.2, hu]; rfl⟩
        | error e =>
          obtain ⟨n, pre, d, rfl, hd, hpre, hafter, hbefore⟩ := hr
          refine ⟨n + 1, [call] ++ pre, d, by simp, hd, ?_, hafter, ?_⟩
          · exact fun hf => (faulty_append.1 hf).elim (fun hf => hc (faulty_singleton.1 hf)) hpre
          · rw [hbefore, hu, List.take_succ_cons, applyAll_cons]

/-- **Executing a plan.** -/
theorem execute_spec (plan : Plan α) (s : W) :
    (store.execute plan).wp (fun r tr t => Changed files plan.changes s tr t ∧ match r with
      | .ok a => a = plan.result ∧ ¬ Faulty tr ∧ files t = applyAll plan.changes (files s)
      | .error _ => ∃ n, FailedAfter files plan.changes n s tr t) s := by
  refine Prog.wp_bind.2 (Prog.wp_mono (changeAll_spec h plan.changes s) ?_)
  rintro r tr t ⟨hch, hr⟩
  cases r with
  | error e => exact ⟨hch, hr⟩
  | ok u =>
    obtain ⟨hnf, hfiles⟩ := hr
    cases plan.commit with
    | none => exact ⟨by simpa using hch, rfl, by simpa using hnf, hfiles⟩
    | some pm =>
      obtain ⟨paths, message⟩ := pm
      refine Prog.wp_bind.2 (Prog.wp_mapErr.2 (Prog.wp_call.2 ?_))
      have hcf := h.commit_files paths message t
      -- the commit changes no file, so what the changes did stands
      have hch' : Changed files plan.changes s
          (tr ++ [⟨.commit paths message (store.vcs.commitFn paths message t).1, t,
            (store.vcs.commitFn paths message t).2⟩]) (store.vcs.commitFn paths message t).2 := by
        refine ⟨fun q hq => by rw [hcf, hch.frame q hq], fun hnd heq => ?_⟩
        rw [hcf] at heq
        exact quiet_append.2 ⟨hch.quiet_of_eq hnd heq, quiet_singleton.2 hcf⟩
      cases hcm : (store.vcs.commitFn paths message t).1 with
      | ok v =>
        rw [hcm] at hch'
        refine ⟨by simpa using hch', rfl, ?_, hcf.trans hfiles⟩
        simp [hnf, Event.failed, Except.isOk, Except.toBool]
      | error e =>
        rw [hcm] at hch'
        refine ⟨hch', plan.changes.length, tr, _, rfl, ?_, hnf, rfl, ?_⟩
        · simp [Event.failed, Except.isOk, Except.toBool]
        · rw [List.take_length, hfiles]

end Execute

/-! ## Outcomes -/

/-- How a planned operation, started in `s`, can end. -/
inductive Outcome (files : W → Files) (s : W) (refused : StoreError CE SE VE → Prop)
    (planned : Plan α → Trace W CE SE VE → Prop) :
    Except (StoreError CE SE VE) α → Trace W CE SE VE → W → Prop
  /-- It changed nothing: a call failed while it planned, or it refused. -/
  | stopped {e tr t} : Quiet files tr → files t = files s → Faulty tr ∨ refused e →
      Outcome files s refused planned (.error e) tr t
  /-- It made the changes it planned. -/
  | done {plan asked tr t} : Quiet files asked → ¬ Faulty (asked ++ tr) → planned plan asked →
      Changed files plan.changes s tr t → files t = applyAll plan.changes (files s) →
      Outcome files s refused planned (.ok plan.result) (asked ++ tr) t
  /-- A call failed when it had made the first `n` changes it planned. -/
  | broken {plan asked tr t e n} : Quiet files asked → ¬ Faulty asked → planned plan asked →
      Changed files plan.changes s tr t → FailedAfter files plan.changes n s tr t →
      Outcome files s refused planned (.error e) (asked ++ tr) t

/-- Without a fault, an operation refused, or made all the changes it planned. -/
theorem Outcome.ended {files : W → Files} {s t : W} {refused : StoreError CE SE VE → Prop}
    {planned : Plan α → Trace W CE SE VE → Prop} {r : Except (StoreError CE SE VE) α}
    {tr : Trace W CE SE VE} (ho : Outcome files s refused planned r tr t) (hnf : ¬ Faulty tr) :
    (∃ e, r = .error e ∧ refused e ∧ files t = files s) ∨
      ∃ plan asked, r = .ok plan.result ∧ planned plan asked ∧
        files t = applyAll plan.changes (files s) := by
  cases ho with
  | stopped _ ht hr => exact Or.inl ⟨_, rfl, hr.resolve_left hnf, ht⟩
  | done _ _ hp _ ht => exact Or.inr ⟨_, _, rfl, hp, ht⟩
  | broken _ _ _ _ hf =>
    obtain ⟨pre, c, rfl, hc, -⟩ := hf
    exact absurd (faulty_append.2 (Or.inr (faulty_append.2 (Or.inr (faulty_singleton.2 hc))))) hnf

/-- **An operation that plans and executes has an outcome.** -/
theorem Asks.outcome {store : Store W CE SE VE} {files : W → Files} (h : OnMap store files)
    {p : StoreM W CE SE VE (Plan α)} {s : W} {refused : StoreError CE SE VE → Prop}
    {planned : Plan α → Trace W CE SE VE → Prop} (hp : Asks files p s refused planned) :
    (p >>= store.execute).wp (Outcome files s refused planned) s := by
  refine Prog.wp_bind.2 (Prog.wp_mono hp ?_)
  rintro r asked u ⟨hq, hu, hr⟩
  cases r with
  | error e => exact .stopped hq hu hr
  | ok plan =>
    refine Prog.wp_mono (execute_spec h plan u) ?_
    rintro r tr t ⟨⟨hframe, hquiet⟩, hr'⟩
    have hch : Changed files plan.changes s tr t :=
      ⟨fun q hq => by rw [hframe q hq, hu], fun hnd heq => hquiet hnd (by rw [heq, hu])⟩
    cases r with
    | ok a =>
      obtain ⟨rfl, hnf, ht⟩ := hr'
      exact .done hq (by simp [hr.1, hnf]) hr.2 hch (by rw [ht, hu])
    | error e =>
      obtain ⟨n, pre, c, rfl, hc, hpre, hafter, hbefore⟩ := hr'
      exact .broken hq hr.1 hr.2 hch ⟨pre, c, rfl, hc, hpre, hafter, by rw [hbefore, hu]⟩

end Bypass
