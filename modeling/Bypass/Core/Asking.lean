import Bypass.Core.StorePlan

/-!
# Planning only asks

The part of a mutation that plans calls neither `write`, `remove` nor `commit`. What the other calls
keep, planning keeps: besides the files, that may be the state of a repository. `Asks` says what
planning finds out; here is only of which calls it is made (`Prog.Steps`).

* `asking_insertPlan`, `asking_copyPlan`, …: each plan is made by asking.
* `Asking.keeps`: planning keeps what is kept by the calls that ask.
* `insertPlan_commits`, `renamePlan_commits`, …: a plan that commits, commits all that it changes.
* `touched`: the paths that a run has written or removed.
-/

namespace Bypass

open Prog

variable {W CE SE VE : Type}

/-- The call may change files or the repository. -/
def Event.changes : Event CE SE VE → Bool
  | .write _ _ _ => true
  | .remove _ _ => true
  | .commit _ _ _ => true
  | _ => false

/-- A call that asks, and keeps `R`. -/
def Asking (R : W → W → Prop) (ev : Event CE SE VE) (s t : W) : Prop :=
  ev.changes = false ∧ R s t

/-- The calls that ask keep `R`. -/
structure Calm (store : Store W CE SE VE) (R : W → W → Prop) : Prop where
  encrypt : ∀ p rs w, R w (store.crypto.encryptFn p rs w).2
  decrypt : ∀ c w, R w (store.crypto.decryptFn c w).2
  read : ∀ p w, R w (store.storage.readFn p w).2
  exists_ : ∀ p w, R w (store.storage.existsFn p w).2
  list : ∀ d w, R w (store.storage.listFn d w).2

/-- Planning keeps what is kept by the calls that ask. -/
theorem Asking.keeps {R : W → W → Prop} (hrefl : ∀ s, R s s)
    (htrans : ∀ s t u, R s t → R t u → R s u) {ε α : Type} {p : Prog (Event CE SE VE) W ε α}
    (h : p.Steps (Asking R)) (s : W) : R s (p.run s).2 :=
  Steps.keeps hrefl htrans (fun _ _ _ hc => hc.2) h s

/-- The calls of a storage that is a map keep the files. -/
theorem OnMap.calm {store : Store W CE SE VE} {files : W → Files} (h : OnMap store files) :
    Calm store fun s t => files t = files s where
  encrypt := h.encrypt_files
  decrypt := h.decrypt_files
  read := h.read_files
  exists_ := h.exists_files
  list := h.list_files

section Plans

variable {store : Store W CE SE VE} {R : W → W → Prop} (h : Calm store R)
include h

theorem asking_read (path : RelPath) :
    (store.storage.read path : Prog (Event CE SE VE) W SE _).Steps (Asking R) :=
  steps_call fun s => ⟨rfl, h.read path s⟩

theorem asking_exists (path : RelPath) :
    (store.storage.exists path : Prog (Event CE SE VE) W SE _).Steps (Asking R) :=
  steps_call fun s => ⟨rfl, h.exists_ path s⟩

theorem asking_encrypt (plaintext : Bytes) (recipients : List KeyId) :
    (store.crypto.encrypt plaintext recipients : Prog (Event CE SE VE) W CE _).Steps (Asking R) :=
  steps_call fun s => ⟨rfl, h.encrypt plaintext recipients s⟩

theorem asking_decrypt (ciphertext : Bytes) :
    (store.crypto.decrypt ciphertext : Prog (Event CE SE VE) W CE _).Steps (Asking R) :=
  steps_call fun s => ⟨rfl, h.decrypt ciphertext s⟩

theorem asking_list (subpath : Option RelPath) : (store.list subpath).Steps (Asking R) := by
  unfold Store.list
  have hcall : (store.storage.list subpath : Prog (Event CE SE VE) W SE _).Steps (Asking R) :=
    steps_call fun s => ⟨rfl, h.list subpath s⟩
  exact hcall.mapErr.bind fun _ => steps_pure _

theorem asking_resolveFrom (current : Option RelPath) :
    (resolveFrom store.storage current : Prog (Event CE SE VE) W _ _).Steps (Asking R) := by
  induction hn : depth current using Nat.strong_induction_on generalizing current with
  | _ n ih =>
    rw [resolveFrom.eq_def]
    refine (asking_read h _).mapErr.bind fun v => ?_
    cases v with
    | some bytes =>
      cases hparse : (parseGpgId bytes : Except (GpgIdError SE) _) with
      | ok rs => simp only [hparse, steps_pure]
      | error e => simp only [hparse, steps_throw]
    | none =>
      cases current with
      | none => exact steps_throw _
      | some p => exact ih _ (hn ▸ depth_parent_lt p) p.parent rfl

theorem asking_resolve (entry : RelPath) :
    (resolveRecipients store.storage entry : Prog (Event CE SE VE) W _ _).Steps (Asking R) :=
  asking_resolveFrom h entry.parent

theorem asking_encryptFor (entry : RelPath) (plaintext : Bytes) :
    (store.encryptFor entry plaintext).Steps (Asking R) :=
  (asking_resolve h entry).mapErr.bind fun _ => (asking_encrypt h _ _).mapErr

theorem asking_taken (blob : RelPath) (overwrite : Bool) :
    (store.taken blob overwrite).Steps (Asking R) := by
  rw [Store.taken]
  split
  · exact steps_pure _
  · exact (asking_exists h _).mapErr

theorem asking_unlessTaken {α : Type} (entry : RelPath) (overwrite : Bool)
    {next : StoreM W CE SE VE α} (hnext : next.Steps (Asking R)) :
    (store.unlessTaken entry overwrite next).Steps (Asking R) := by
  refine (asking_taken h (entryToBlob entry) overwrite).bind fun taken => ?_
  cases taken with
  | true => exact steps_throw _
  | false => exact hnext

theorem asking_insertPlan (entry : RelPath) (plaintext : Bytes) (overwrite : Bool) :
    (store.insertPlan entry plaintext overwrite).Steps (Asking R) :=
  asking_unlessTaken h entry overwrite
    ((asking_encryptFor h entry plaintext).bind fun _ => steps_pure _)

theorem asking_insertNoCommitPlan (entry : RelPath) (plaintext : Bytes) :
    (store.insertNoCommitPlan entry plaintext).Steps (Asking R) :=
  (asking_encryptFor h entry plaintext).bind fun _ => steps_pure _

theorem asking_removePlan (entry : RelPath) : (store.removePlan entry).Steps (Asking R) := by
  refine (asking_exists h _).mapErr.bind fun present => ?_
  cases present with
  | true => exact steps_pure _
  | false => exact steps_throw _

theorem asking_transferCiphertext (source dest : RelPath) (overwrite : Bool) :
    (store.transferCiphertext source dest overwrite).Steps (Asking R) := by
  refine asking_unlessTaken h dest overwrite ((asking_read h _).mapErr.bind fun v => ?_)
  cases v with
  | none => exact steps_throw _
  | some ciphertext =>
    refine (asking_resolve h source).mapErr.bind fun rs =>
      (asking_resolve h dest).mapErr.bind fun rd => ?_
    cases hequal : recipientsEqual rs rd with
    | true => exact steps_pure _
    | false =>
      exact (asking_decrypt h ciphertext).mapErr.bind fun _ => (asking_encrypt h _ rd).mapErr

theorem asking_copyPlan (source dest : RelPath) (overwrite : Bool) :
    (store.copyPlan source dest overwrite).Steps (Asking R) :=
  (asking_transferCiphertext h source dest overwrite).bind fun _ => steps_pure _

theorem asking_renamePlan (source dest : RelPath) (overwrite : Bool) :
    (store.renamePlan source dest overwrite).Steps (Asking R) := by
  unfold Store.renamePlan
  split_ifs
  · exact steps_pure _
  · exact (asking_transferCiphertext h source dest overwrite).bind fun _ => steps_pure _

theorem asking_removeRecursivePlan (dir : RelPath) :
    (store.removeRecursivePlan dir).Steps (Asking R) := by
  refine (asking_list h (some dir)).bind fun entries => ?_
  split
  · exact steps_throw _
  · exact steps_pure _

end Plans

/-! ## What a plan commits -/

/-- The plan commits every path that it changes. -/
def Plan.Commits {α : Type} (plan : Plan α) : Prop :=
  ∀ c ∈ plan.changes, ∃ paths message, plan.commit = some (paths, message) ∧ c.path ∈ paths

section Commits

variable (store : Store W CE SE VE)

theorem unlessTaken_returns {α : Type} {P : α → Prop} (entry : RelPath) (overwrite : Bool)
    {next : StoreM W CE SE VE α} (hnext : next.Returns P) :
    (store.unlessTaken entry overwrite next).Returns P := by
  refine returns_bind fun taken => ?_
  cases taken with
  | true => exact returns_throw _
  | false => exact hnext

theorem insertPlan_commits (entry : RelPath) (plaintext : Bytes) (overwrite : Bool) :
    (store.insertPlan entry plaintext overwrite).Returns Plan.Commits := by
  refine unlessTaken_returns store entry overwrite (returns_bind fun c => returns_pure ?_)
  exact List.forall_mem_singleton.2 ⟨_, _, rfl, List.mem_singleton_self _⟩

theorem removePlan_commits (entry : RelPath) :
    (store.removePlan entry).Returns Plan.Commits := by
  refine returns_bind fun present => ?_
  cases present with
  | true =>
    exact returns_pure (List.forall_mem_singleton.2 ⟨_, _, rfl, List.mem_singleton_self _⟩)
  | false => exact returns_throw _

theorem copyPlan_commits (source dest : RelPath) (overwrite : Bool) :
    (store.copyPlan source dest overwrite).Returns Plan.Commits :=
  returns_bind fun _ =>
    returns_pure (List.forall_mem_singleton.2 ⟨_, _, rfl, List.mem_singleton_self _⟩)

theorem renamePlan_commits (source dest : RelPath) (overwrite : Bool) :
    (store.renamePlan source dest overwrite).Returns Plan.Commits := by
  unfold Store.renamePlan
  split_ifs
  · exact returns_pure (List.forall_mem_nil _)
  · refine returns_bind fun c => returns_pure fun change hchange => ⟨_, _, rfl, ?_⟩
    -- it writes the destination, and removes the source
    rcases List.mem_pair.1 hchange with rfl | rfl
    · exact List.mem_pair.2 (.inr rfl)
    · exact List.mem_pair.2 (.inl rfl)

theorem removeRecursivePlan_commits (dir : RelPath) :
    (store.removeRecursivePlan dir).Returns Plan.Commits := by
  refine returns_bind fun entries => ?_
  split
  · exact returns_throw _
  · refine returns_pure fun change hchange => ⟨_, _, rfl, ?_⟩
    obtain ⟨e, he, rfl⟩ := List.mem_map.1 hchange
    exact List.mem_map_of_mem he

end Commits

/-! ## What a run touches -/

/-- The path that a call writes or removes. -/
def Event.target : Event CE SE VE → Option RelPath
  | .write path _ _ => some path
  | .remove path _ => some path
  | _ => none

/-- The paths that the calls of a trace write or remove. -/
def touched (tr : Trace W CE SE VE) : Set RelPath := {q | ∃ call ∈ tr, call.ev.target = some q}

@[simp] theorem touched_nil : touched ([] : Trace W CE SE VE) = ∅ := by
  ext q
  simp [touched]

theorem touched_append (tr tr' : Trace W CE SE VE) :
    touched (tr ++ tr') = touched tr ∪ touched tr' := by
  ext q
  simp only [touched, List.mem_append, or_and_right, exists_or, Set.mem_ofPred_eq, Set.mem_union]

/-- A call that asks touches nothing. -/
theorem Event.target_of_changes {ev : Event CE SE VE} (h : ev.changes = false) :
    ev.target = none := by
  cases ev <;> first | rfl | cases h

/-- Planning touches nothing. -/
theorem Asking.touched_eq {R : W → W → Prop} {ε α : Type} {p : Prog (Event CE SE VE) W ε α}
    (h : p.Steps (Asking R)) (s : W) : touched (p.trace s) = ∅ := by
  ext q
  refine iff_of_false (fun ⟨call, hcall, hq⟩ => ?_) (Set.notMem_empty q)
  rw [Event.target_of_changes (h.trace s call hcall).1] at hq
  cases hq

/-- A sequence touches what its parts touch. -/
theorem touched_bind {ε α β : Type} {p : Prog (Event CE SE VE) W ε α}
    {f : α → Prog (Event CE SE VE) W ε β} {P : Set RelPath} {s : W}
    (hp : touched (p.trace s) ⊆ P) (hf : ∀ a t, touched ((f a).trace t) ⊆ P) :
    touched ((p >>= f).trace s) ⊆ P := by
  rw [trace_bind, touched_append]
  refine Set.union_subset hp ?_
  rcases p.run s with ⟨_ | a, t⟩
  · exact touched_nil ▸ Set.empty_subset P
  · exact hf a t

/-- So does one whose first part succeeds. -/
theorem touched_bind_ok {ε α β : Type} {p : Prog (Event CE SE VE) W ε α}
    {f : α → Prog (Event CE SE VE) W ε β} {P Q : Set RelPath} {s t : W} {a : α}
    (hrun : p.run s = (.ok a, t)) (hp : touched (p.trace s) ⊆ P)
    (hf : touched ((f a).trace t) ⊆ Q) : touched ((p >>= f).trace s) ⊆ P ∪ Q := by
  rw [trace_bind, touched_append, hrun]
  exact Set.union_subset_union hp hf

/-- A change touches its path, -/
theorem touched_change (store : Store W CE SE VE) (c : Change) (s : W) :
    touched ((store.change c).trace s) ⊆ {c.path} := by
  rintro q ⟨call, hcall, hq⟩
  rcases c with ⟨p, d⟩ | p
  all_goals
    simp only [Store.change, trace_mapErr, Storage.write, Storage.remove, trace_call,
      List.mem_singleton] at hcall
    subst hcall
    exact (Option.some.inj hq).symm

theorem touched_changeAll (store : Store W CE SE VE) (cs : List Change) (s : W) :
    touched ((store.changeAll cs).trace s) ⊆ {q | q ∈ cs.map Change.path} := by
  induction cs generalizing s with
  | nil => exact touched_nil.subset.trans (Set.empty_subset _)
  | cons c cs ih =>
    refine touched_bind ((touched_change store c s).trans ?_) fun _ t => (ih t).trans ?_
    · exact Set.singleton_subset_iff.2 List.mem_cons_self
    · exact fun q hq => List.mem_cons_of_mem _ hq

/-- a commit touches none, -/
theorem touched_commitChanges (store : Store W CE SE VE) (paths : List RelPath) (message : Str)
    (s : W) : touched ((store.commitChanges paths message).trace s) ⊆ ∅ := by
  rintro q ⟨call, hcall, hq⟩
  simp only [Store.commitChanges, trace_mapErr, VersionControl.commit, trace_call,
    List.mem_singleton] at hcall
  subst hcall
  cases hq

/-- and a plan that is executed touches the paths of its changes. -/
theorem touched_execute (store : Store W CE SE VE) {α : Type} (plan : Plan α) (s : W) :
    touched ((store.execute plan).trace s) ⊆ {q | q ∈ plan.changes.map Change.path} := by
  refine touched_bind (touched_changeAll store plan.changes s) fun _ t => ?_
  cases plan.commit with
  | none => exact touched_nil.subset.trans (Set.empty_subset _)
  | some call =>
    refine touched_bind ((touched_commitChanges store call.1 call.2 t).trans (Set.empty_subset _))
      fun _ u => ?_
    exact touched_nil.subset.trans (Set.empty_subset _)

/-! ## Planned operations -/

/-- **The stages of a planned operation that succeeds**: it asks, makes its changes, and commits if
it decided to. It touches the paths of its changes. -/
theorem planned_ok {R : W → W → Prop} (hrefl : ∀ s, R s s)
    (htrans : ∀ s t u, R s t → R t u → R s u) {store : Store W CE SE VE} {α : Type}
    {plan : StoreM W CE SE VE (Plan α)} (hasks : plan.Steps (Asking R)) {s t : W} {a : α}
    (hrun : (plan >>= store.execute).run s = (.ok a, t)) :
    ∃ decided u v, plan.run s = (.ok decided, u) ∧ R s u ∧
      (store.changeAll decided.changes).run u = (.ok (), v) ∧
      (decided.commit = none ∧ t = v ∨ ∃ paths message, decided.commit = some (paths, message) ∧
        store.vcs.commitFn paths message v = (.ok (), t)) ∧ a = decided.result ∧
      touched ((plan >>= store.execute).trace s) ⊆ {q | q ∈ decided.changes.map Change.path} := by
  obtain ⟨decided, u, hplan, hexecute⟩ := run_bind_ok hrun
  have hsu := Asking.keeps hrefl htrans hasks s
  rw [hplan] at hsu
  obtain ⟨_, v, hchanges, hend⟩ := run_bind_ok hexecute
  refine ⟨decided, u, v, hplan, hsu, hchanges, ?_, ?_, ?_⟩
  · cases hcommit : decided.commit with
    | none =>
      rw [hcommit] at hend
      exact Or.inl ⟨rfl, (Prod.mk.inj hend).2.symm⟩
    | some call =>
      rw [hcommit] at hend
      obtain ⟨_, w, hcall, hresult⟩ := run_bind_ok hend
      obtain ⟨-, rfl⟩ := Prod.mk.inj hresult
      exact Or.inr ⟨_, _, rfl, run_mapErr_ok hcall⟩
  · cases hcommit : decided.commit with
    | none =>
      rw [hcommit] at hend
      exact (Except.ok.inj (Prod.mk.inj hend).1).symm
    | some call =>
      rw [hcommit] at hend
      obtain ⟨_, w, -, hresult⟩ := run_bind_ok hend
      exact (Except.ok.inj (Prod.mk.inj hresult).1).symm
  · rw [trace_bind, touched_append, Asking.touched_eq hasks, Set.empty_union, hplan]
    exact touched_execute store decided u

end Bypass
