import Bypass.Core.StorePlan

/-!
# Runs of operations

The operations of a store as a type, so that a claim can speak of every sequence of them. A run
goes on after an operation that failed, as a user of the store does.
-/

namespace Bypass

/-- An operation on the entries of a store, with its arguments. -/
inductive Op where
  | insert (entry : RelPath) (plaintext : Bytes) (overwrite : Bool)
  | insertNoCommit (entry : RelPath) (plaintext : Bytes)
  | «show» (entry : RelPath)
  | list (subpath : Option RelPath)
  | find (pattern : Str)
  | remove (entry : RelPath)
  | copy (source dest : RelPath) (overwrite : Bool)
  | rename (source dest : RelPath) (overwrite : Bool)
  | removeRecursive (dir : RelPath)

/-- What an operation returns. -/
inductive Output where
  | unit
  | path (p : RelPath)
  | plaintext (bytes : Bytes)
  | entries (l : List RelPath)
  deriving DecidableEq

variable {W CE SE VE : Type}

namespace Store

variable (store : Store W CE SE VE)

/-- The program of an operation. -/
def program : Op → StoreM W CE SE VE Output
  | .insert entry plaintext overwrite => do
    store.insert entry plaintext overwrite
    pure .unit
  | .insertNoCommit entry plaintext => do
    let blob ← store.insertNoCommit entry plaintext
    pure (.path blob)
  | .show entry => do
    let secret ← store.show entry
    pure (.plaintext secret)
  | .list subpath => do
    let entries ← store.list subpath
    pure (.entries entries)
  | .find pattern => do
    let entries ← store.find pattern
    pure (.entries entries)
  | .remove entry => do
    store.remove entry
    pure .unit
  | .copy source dest overwrite => do
    store.copy source dest overwrite
    pure .unit
  | .rename source dest overwrite => do
    store.rename source dest overwrite
    pure .unit
  | .removeRecursive dir => do
    let entries ← store.removeRecursive dir
    pure (.entries entries)

/-- Run a sequence of operations: what each returned, and the last world. -/
def runOps : List Op → W → List (Except (StoreError CE SE VE) Output) × W
  | [], w => ([], w)
  | op :: ops, w =>
    let (r, w') := (store.program op).run w
    let (rs, w'') := runOps ops w'
    (r :: rs, w'')

/-- The backend calls of such a run. -/
def traceOps : List Op → W → Trace W CE SE VE
  | [], _ => []
  | op :: ops, w => (store.program op).trace w ++ traceOps ops ((store.program op).run w).2

@[simp] theorem runOps_nil (w : W) : store.runOps [] w = ([], w) := rfl

@[simp] theorem runOps_cons (op : Op) (ops : List Op) (w : W) :
    store.runOps (op :: ops) w =
      (((store.program op).run w).1 :: (store.runOps ops ((store.program op).run w).2).1,
        (store.runOps ops ((store.program op).run w).2).2) := rfl

@[simp] theorem traceOps_cons (op : Op) (ops : List Op) (w : W) :
    store.traceOps (op :: ops) w =
      (store.program op).trace w ++ store.traceOps ops ((store.program op).run w).2 := rfl

end Store

/-- Naming the result of a program changes neither its trace nor what it leaves. -/
theorem wp_bind_pure {α β : Type} {p : StoreM W CE SE VE α} {f : α → β} {s : W}
    {Q : Except (StoreError CE SE VE) β → Trace W CE SE VE → W → Prop}
    (h : p.wp (fun r tr t => Q (r.map f) tr t) s) :
    Prog.wp (do let a ← p; pure (f a)) Q s := by
  refine Prog.wp_bind.2 (Prog.wp_mono h fun r tr t hr => ?_)
  cases r with
  | ok a => simpa [Except.map] using hr
  | error e => exact hr

/-- **A run preserves what each operation preserves**, as long as the trace satisfies what the
operations need of it. -/
theorem runOps_preserves {store : Store W CE SE VE} {I : Trace W CE SE VE → W → Prop}
    {ok : Trace W CE SE VE → Prop} (hok : ∀ tr tr', ok (tr ++ tr') → ok tr ∧ ok tr')
    (hstep : ∀ op log s, I log s → ok ((store.program op).trace s) →
      I (log ++ (store.program op).trace s) ((store.program op).run s).2)
    (ops : List Op) (log : Trace W CE SE VE) (s : W) (hs : I log s)
    (htr : ok (store.traceOps ops s)) :
    I (log ++ store.traceOps ops s) (store.runOps ops s).2 := by
  induction ops generalizing log s with
  | nil => simpa [Store.traceOps] using hs
  | cons op ops ih =>
    obtain ⟨h₁, h₂⟩ := hok _ _ htr
    have := ih _ _ (hstep op log s hs h₁) h₂
    rwa [List.append_assoc] at this

end Bypass
