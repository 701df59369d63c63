import Bypass.Cli.ImportRun
import Bypass.Core.StoreWhile
import Bypass.Foundations.Pool

/-!
# Processes on one store

Several processes work on the same store, each by a list of operations, and their backend calls come
in any order. What the others do between two calls of a process is a disturbance of its store; as
long as they leave its entries and the recipients alone, a disturbed store is still a map for the
entries of the process.

* `Store.session`: a process.
* `OnMap.disturbed`: **the disturbed store is a map**.
* `processes_apart`: **processes on different entries do not see each other**.
-/

namespace Bypass

open Prog Machine

variable {W CE SE VE : Type}

/-! ## A process -/

namespace Store

/-- A process: one operation after the other, also after an error. -/
def session (store : Store W CE SE VE) :
    List Op → Prog (Event CE SE VE) W Empty (List (Except (StoreError CE SE VE) Output))
  | [] => pure []
  | op :: ops => do
    let r ← (store.program op).attempt
    let rs ← session store ops
    pure (r :: rs)

theorem run_session (store : Store W CE SE VE) (ops : List Op) (w : W) :
    (store.session ops).run w = (.ok (store.runOps ops w).1, (store.runOps ops w).2) := by
  induction ops generalizing w with
  | nil => rfl
  | cons op ops ih =>
    rw [session, run_bind, run_attempt]
    dsimp only
    rw [run_bind, ih]
    rfl

theorem trace_session (store : Store W CE SE VE) (ops : List Op) (w : W) :
    (store.session ops).trace w = store.traceOps ops w := by
  induction ops generalizing w with
  | nil => rfl
  | cons op ops ih =>
    rw [session, trace_bind, trace_attempt, run_attempt]
    dsimp only
    rw [trace_bind, ih, run_session, traceOps_cons]
    simp

/-- The store between whose calls others act. -/
def disturbed (js : ℕ → W → W) (store : Store W CE SE VE) : Store (ℕ × W) CE SE VE where
  crypto := {
    encryptFn := fun p rs => disturbedCall js (store.crypto.encryptFn p rs)
    decryptFn := fun c => disturbedCall js (store.crypto.decryptFn c) }
  storage := {
    readFn := fun p => disturbedCall js (store.storage.readFn p)
    writeFn := fun p d => disturbedCall js (store.storage.writeFn p d)
    removeFn := fun p => disturbedCall js (store.storage.removeFn p)
    existsFn := fun p => disturbedCall js (store.storage.existsFn p)
    listFn := fun d => disturbedCall js (store.storage.listFn d) }
  vcs := { commitFn := fun ps m => disturbedCall js (store.vcs.commitFn ps m) }

end Store

/-! ## Disturbed operations -/

section Disturbed

variable (js : ℕ → W → W) (store : Store W CE SE VE)

@[simp] theorem read_disturbed (p : RelPath) :
    (store.storage.read p : Prog (Event CE SE VE) W SE _).disturbed js =
      (store.disturbed js).storage.read p := rfl

@[simp] theorem write_disturbed (p : RelPath) (d : Bytes) :
    (store.storage.write p d : Prog (Event CE SE VE) W SE _).disturbed js =
      (store.disturbed js).storage.write p d := rfl

@[simp] theorem remove_disturbed (p : RelPath) :
    (store.storage.remove p : Prog (Event CE SE VE) W SE _).disturbed js =
      (store.disturbed js).storage.remove p := rfl

@[simp] theorem exists_disturbed (p : RelPath) :
    (store.storage.exists p : Prog (Event CE SE VE) W SE _).disturbed js =
      (store.disturbed js).storage.exists p := rfl

@[simp] theorem storage_list_disturbed (d : Option RelPath) :
    (store.storage.list d : Prog (Event CE SE VE) W SE _).disturbed js =
      (store.disturbed js).storage.list d := rfl

@[simp] theorem encrypt_disturbed (p : Bytes) (rs : List KeyId) :
    (store.crypto.encrypt p rs : Prog (Event CE SE VE) W CE _).disturbed js =
      (store.disturbed js).crypto.encrypt p rs := rfl

@[simp] theorem decrypt_disturbed (c : Bytes) :
    (store.crypto.decrypt c : Prog (Event CE SE VE) W CE _).disturbed js =
      (store.disturbed js).crypto.decrypt c := rfl

@[simp] theorem commit_disturbed (ps : List RelPath) (m : Str) :
    (store.vcs.commit ps m : Prog (Event CE SE VE) W VE _).disturbed js =
      (store.disturbed js).vcs.commit ps m := rfl

theorem resolveFrom_disturbed (current : Option RelPath) :
    (resolveFrom store.storage current :
      Prog (Event CE SE VE) W (GpgIdError SE) (List KeyId)).disturbed js =
      resolveFrom (store.disturbed js).storage current := by
  induction hn : depth current using Nat.strong_induction_on generalizing current with
  | _ n ih =>
    rw [resolveFrom.eq_def, resolveFrom.eq_def (store.disturbed js).storage, disturbed_bind,
      disturbed_mapErr]
    refine congrArg _ (funext fun v => ?_)
    cases v with
    | some bytes =>
      dsimp only
      split <;> rfl
    | none =>
      cases current with
      | none => rfl
      | some p => exact ih _ (hn ▸ depth_parent_lt p) p.parent rfl

@[simp] theorem resolve_disturbed (entry : RelPath) :
    (resolveRecipients store.storage entry :
      Prog (Event CE SE VE) W (GpgIdError SE) (List KeyId)).disturbed js =
      resolveRecipients (store.disturbed js).storage entry :=
  resolveFrom_disturbed js store entry.parent

@[simp] theorem taken_disturbed (blob : RelPath) (overwrite : Bool) :
    (store.taken blob overwrite).disturbed js = (store.disturbed js).taken blob overwrite := by
  cases overwrite <;> rfl

@[simp] theorem list_disturbed (subpath : Option RelPath) :
    (store.list subpath).disturbed js = (store.disturbed js).list subpath := by
  simp only [Store.list, disturbed_bind, disturbed_mapErr, storage_list_disturbed, disturbed_pure]

theorem insert_disturbed (entry : RelPath) (plaintext : Bytes) (overwrite : Bool) :
    (store.insert entry plaintext overwrite).disturbed js =
      (store.disturbed js).insert entry plaintext overwrite := by
  simp only [Store.insert, disturbed_bind, disturbed_mapErr, disturbed_ite, disturbed_throw,
    taken_disturbed, resolve_disturbed, encrypt_disturbed, write_disturbed, commit_disturbed]

theorem insertNoCommit_disturbed (entry : RelPath) (plaintext : Bytes) :
    (store.insertNoCommit entry plaintext).disturbed js =
      (store.disturbed js).insertNoCommit entry plaintext := by
  simp only [Store.insertNoCommit, disturbed_bind, disturbed_mapErr, disturbed_pure,
    resolve_disturbed, encrypt_disturbed, write_disturbed, remove_disturbed]

theorem show_disturbed (entry : RelPath) :
    (store.show entry).disturbed js = (store.disturbed js).show entry := by
  simp only [Store.show, disturbed_bind, disturbed_mapErr, read_disturbed]
  refine congrArg _ (funext fun v => ?_)
  cases v <;> rfl

theorem entry_remove_disturbed (entry : RelPath) :
    (store.remove entry).disturbed js = (store.disturbed js).remove entry := by
  simp only [Store.remove, disturbed_bind, disturbed_mapErr, disturbed_ite, disturbed_throw,
    exists_disturbed, remove_disturbed, commit_disturbed]

theorem transferBlob_disturbed (source dest : RelPath) (overwrite : Bool) :
    (store.transferBlob source dest overwrite).disturbed js =
      (store.disturbed js).transferBlob source dest overwrite := by
  simp only [Store.transferBlob, disturbed_bind, disturbed_mapErr, disturbed_ite, disturbed_throw,
    taken_disturbed, read_disturbed]
  refine congrArg _ (funext fun taken => ?_)
  refine congrArg (ite _ _) (congrArg _ (funext fun v => ?_))
  cases v with
  | none => rfl
  | some c =>
    simp only [disturbed_bind, disturbed_mapErr, disturbed_ite, disturbed_pure, resolve_disturbed,
      decrypt_disturbed, encrypt_disturbed, write_disturbed]

theorem removeEntries_disturbed (entries : List RelPath) :
    (store.removeEntries entries).disturbed js = (store.disturbed js).removeEntries entries := by
  induction entries with
  | nil => rfl
  | cons e es ih =>
    simp only [Store.removeEntries, disturbed_bind, disturbed_mapErr, disturbed_pure,
      remove_disturbed, ih]

/-- **A disturbed operation is an operation of the disturbed store.** -/
theorem program_disturbed (op : Op) :
    (store.program op).disturbed js = (store.disturbed js).program op := by
  cases op with
  | insert entry plaintext overwrite =>
    simp only [Store.program, disturbed_bind, disturbed_pure, insert_disturbed]
  | insertNoCommit entry plaintext =>
    simp only [Store.program, disturbed_bind, disturbed_pure, insertNoCommit_disturbed]
  | «show» entry => simp only [Store.program, disturbed_bind, disturbed_pure, show_disturbed]
  | list subpath => simp only [Store.program, disturbed_bind, disturbed_pure, list_disturbed]
  | find pattern =>
    simp only [Store.program, Store.find, disturbed_bind, disturbed_pure, list_disturbed]
  | remove entry =>
    simp only [Store.program, disturbed_bind, disturbed_pure, entry_remove_disturbed]
  | copy source dest overwrite =>
    simp only [Store.program, Store.copy, disturbed_bind, disturbed_mapErr, disturbed_pure,
      transferBlob_disturbed, commit_disturbed]
  | rename source dest overwrite =>
    simp only [Store.program, Store.rename, disturbed_bind, disturbed_mapErr, disturbed_pure,
      disturbed_ite, transferBlob_disturbed, remove_disturbed, commit_disturbed]
  | removeRecursive dir =>
    simp only [Store.program, Store.removeRecursive, disturbed_bind, disturbed_mapErr,
      disturbed_pure, disturbed_ite, disturbed_throw, list_disturbed, removeEntries_disturbed,
      commit_disturbed]

theorem session_disturbed (ops : List Op) :
    (store.session ops).disturbed js = (store.disturbed js).session ops := by
  induction ops with
  | nil => rfl
  | cons op ops ih =>
    simp only [Store.session, disturbed_bind, disturbed_attempt, disturbed_pure, program_disturbed,
      ih]

end Disturbed

/-! ## The disturbed store is a map -/

/-- The operations on these entries that list nothing. -/
def Scope.only (entries : Set RelPath) : Scope := ⟨Set.univ, (· ∈ entries), fun _ => False⟩

/-- A path that is no blob of another entry. -/
def Own (entries : Set RelPath) (q : RelPath) : Prop := ∀ e, blobToEntry q = some e → e ∈ entries

/-- Own paths are as they were. -/
def Leaves (files : W → Files) (entries : Set RelPath) (w w' : W) : Prop :=
  ∀ q, Own entries q → files w' q = files w q

open Classical in
/-- The files of a disturbed store: on other paths, what was there at first. -/
noncomputable def ownFiles (files : W → Files) (entries : Set RelPath) (first : Files)
    (s : ℕ × W) : Files := fun q => if Own entries q then files s.2 q else first q

section OnMap

variable {files : W → Files} {entries : Set RelPath} {first : Files} {js : ℕ → W → W}
  {store : Store W CE SE VE} {p q : RelPath} {s : ℕ × W}

theorem own_of_reached (h : Reached (.only entries) p) : Own entries p := by
  intro e he
  obtain ⟨d, -, rfl⟩ | ⟨e', he', rfl⟩ := h
  · exact absurd (blobToEntry_eq_some.1 he) (gpgIdIn_ne_entryToBlob d e)
  · rw [blobToEntry_entryToBlob] at he
    exact Option.some.inj he ▸ he'

theorem ownFiles_own (h : Own entries q) : ownFiles files entries first s q = files s.2 q :=
  if_pos h

theorem ownFiles_start (w : W) (n : ℕ) : ownFiles files entries (files w) (n, w) = files w := by
  funext q
  unfold ownFiles
  split_ifs <;> rfl

/-- Before a call, others have left the own paths alone. -/
theorem ownFiles_call {ε α : Type} {f : W → Except ε α × W}
    (hjs : ∀ k w, Leaves files entries w (js k w))
    (hq : Own entries q → files (f (js s.1 s.2)).2 q = files (js s.1 s.2) q) :
    ownFiles files entries first (disturbedCall js f s).2 q = ownFiles files entries first s q := by
  unfold ownFiles
  split_ifs with hown
  · exact (hq hown).trans (hjs s.1 s.2 q hown)
  · rfl

theorem ownFiles_update {ε α : Type} {f : W → Except ε α × W} {v : Option Bytes}
    (hjs : ∀ k w, Leaves files entries w (js k w)) (hp : Own entries p)
    (hf : files (f (js s.1 s.2)).2 = Function.update (files (js s.1 s.2)) p v) :
    ownFiles files entries first (disturbedCall js f s).2 =
      Function.update (ownFiles files entries first s) p v := by
  funext q
  by_cases hq : q = p
  · subst hq
    rw [Function.update_self, ownFiles_own hp]
    show files (f (js s.1 s.2)).2 q = v
    rw [hf, Function.update_self]
  · rw [Function.update_of_ne hq]
    refine ownFiles_call hjs fun _ => ?_
    rw [hf, Function.update_of_ne hq]

/-- **The disturbed store is a map** for operations on the own entries. -/
theorem OnMap.disturbed (h : OnMap store files) (hjs : ∀ k w, Leaves files entries w (js k w)) :
    OnMapWhile (fun _ => True) (.only entries) (store.disturbed js)
      (ownFiles files entries first) where
  parent _ _ _ _ := Set.mem_univ _
  inside _ _ _ _ := Set.mem_univ _
  listed _ _ _ _ hd := hd.elim
  encrypt p rs s _ := ⟨trivial, funext fun q =>
    ownFiles_call hjs fun _ => congrFun (h.encrypt_files p rs _) q⟩
  decrypt c s _ := ⟨trivial, funext fun q =>
    ownFiles_call hjs fun _ => congrFun (h.decrypt_files c _) q⟩
  read p s hp _ := by
    refine ⟨trivial, funext fun q => ownFiles_call hjs fun _ => congrFun (h.read_files p _) q,
      fun v hv => ?_⟩
    rw [ownFiles_own (own_of_reached hp), ← hjs s.1 s.2 p (own_of_reached hp)]
    exact h.read_ok p _ v hv
  write p d s hp _ := ⟨trivial,
    fun q hq => ownFiles_call hjs fun _ => h.write_frame p d _ q hq,
    fun hok => ownFiles_update hjs (own_of_reached hp) (h.write_ok p d _ hok)⟩
  remove p s hp _ := ⟨trivial,
    fun q hq => ownFiles_call hjs fun _ => h.remove_frame p _ q hq,
    fun hok => ownFiles_update hjs (own_of_reached hp) (h.remove_ok p _ hok)⟩
  exists_ p s hp _ := by
    refine ⟨trivial, funext fun q => ownFiles_call hjs fun _ => congrFun (h.exists_files p _) q,
      fun b hb => ?_⟩
    rw [ownFiles_own (own_of_reached hp), ← hjs s.1 s.2 p (own_of_reached hp)]
    exact h.exists_ok p _ b hb
  list _ _ hd := hd.elim
  commit ps m s _ := ⟨trivial, funext fun q =>
    ownFiles_call hjs fun _ => congrFun (h.commit_files ps m _) q⟩

theorem RoundTrip.disturbed (h : RoundTrip store) (js : ℕ → W → W) :
    RoundTrip (store.disturbed js) :=
  fun p rs s c hc s' q hq => h p rs (js s.1 s.2) c hc (js s'.1 s'.2) q hq

/-- Where a disturbance has come to its end, the same is decrypted as without it. -/
theorem decrypts_disturbed {n : ℕ} (hid : js n = id) :
    Decrypts (store.disturbed js) = Decrypts store := by
  funext c b
  refine propext ⟨fun h w a ha => h (n, w) a ?_, fun h s a ha => h (js s.1 s.2) a ha⟩
  show (store.crypto.decryptFn c (js n w)).1 = _
  rwa [hid]

end OnMap

/-! ## What a process leaves alone -/

/-- A call that changes no path but the blobs of these entries. -/
def Frames (files : W → Files) (entries : Set RelPath) (_ : Event CE SE VE) (w w' : W) : Prop :=
  ∀ q, (∀ e ∈ entries, q ≠ entryToBlob e) → files w' q = files w q

section Frames

variable {store : Store W CE SE VE} {files : W → Files} {entries : Set RelPath}

theorem frames_asking {ε α : Type} {p : Prog (Event CE SE VE) W ε α}
    (hp : p.Steps (Asking fun s t => files t = files s)) : p.Steps (Frames files entries) :=
  hp.imp fun _ _ _ hasking q _ => congrFun hasking.2 q

variable (h : OnMap store files)
include h

theorem frames_write {e : RelPath} (he : e ∈ entries) (c : Bytes) :
    (store.storage.write (entryToBlob e) c : Prog (Event CE SE VE) W SE _).Steps
      (Frames files entries) :=
  steps_call fun s q hq => h.write_frame _ c s q (hq e he)

theorem frames_remove {e : RelPath} (he : e ∈ entries) :
    (store.storage.remove (entryToBlob e) : Prog (Event CE SE VE) W SE _).Steps
      (Frames files entries) :=
  steps_call fun s q hq => h.remove_frame _ s q (hq e he)

theorem frames_commit (ps : List RelPath) (m : Str) :
    (store.vcs.commit ps m : Prog (Event CE SE VE) W VE _).Steps (Frames files entries) :=
  steps_call fun s q _ => congrFun (h.commit_files ps m s) q

theorem frames_transferBlob {source dest : RelPath} (hdest : dest ∈ entries) (overwrite : Bool) :
    (store.transferBlob source dest overwrite).Steps (Frames files entries) := by
  rw [Store.transferBlob_eq]
  refine (frames_asking (asking_transferCiphertext h.calm source dest overwrite)).bind fun c => ?_
  exact (frames_write h hdest c).mapErr.bind fun _ => steps_pure _

/-- **An operation on these entries changes no others.** -/
theorem program_frames {op : Op} (hop : op.Within (.only entries)) :
    (store.program op).Steps (Frames files entries) := by
  cases op with
  | insert e p overwrite =>
    refine Steps.bind ?_ fun _ => steps_pure _
    refine (frames_asking (asking_taken h.calm _ overwrite)).bind fun taken => ?_
    cases taken with
    | true => exact steps_throw _
    | false =>
      rw [if_neg Bool.false_ne_true]
      refine (frames_asking (asking_resolve h.calm e)).mapErr.bind fun rs => ?_
      refine (frames_asking (asking_encrypt h.calm p rs)).mapErr.bind fun c => ?_
      exact (frames_write h hop c).mapErr.bind fun _ => (frames_commit h _ _).mapErr
  | insertNoCommit e p =>
    refine Steps.bind ?_ fun _ => steps_pure _
    refine (frames_asking (asking_resolve h.calm e)).mapErr.bind fun rs => ?_
    refine (frames_asking (asking_encrypt h.calm p rs)).mapErr.bind fun c => ?_
    refine (frames_remove h hop).mapErr.bind fun _ => ?_
    exact (frames_write h hop c).mapErr.bind fun _ => steps_pure _
  | «show» e =>
    refine Steps.bind ((frames_asking (asking_read h.calm _)).mapErr.bind fun v => ?_)
      fun _ => steps_pure _
    cases v with
    | none => exact steps_throw _
    | some c => exact (frames_asking (asking_decrypt h.calm c)).mapErr
  | list subpath => exact hop.elim
  | find pattern => exact hop.elim
  | remove e =>
    refine Steps.bind ((frames_asking (asking_exists h.calm _)).mapErr.bind fun present => ?_)
      fun _ => steps_pure _
    cases present with
    | true => exact (frames_remove h hop).mapErr.bind fun _ => (frames_commit h _ _).mapErr
    | false => exact steps_throw _
  | copy source dest overwrite =>
    refine Steps.bind ?_ fun _ => steps_pure _
    exact (frames_transferBlob h hop.2 overwrite).bind fun _ => (frames_commit h _ _).mapErr
  | rename source dest overwrite =>
    refine Steps.bind ?_ fun _ => steps_pure _
    unfold Store.rename
    split_ifs
    · exact steps_pure _
    · refine (frames_transferBlob h hop.2 overwrite).bind fun _ => ?_
      exact (frames_remove h hop.1).mapErr.bind fun _ => (frames_commit h _ _).mapErr
  | removeRecursive dir => exact hop.elim

theorem session_frames {ops : List Op} (hops : ∀ op ∈ ops, op.Within (.only entries)) :
    (store.session ops).Steps (Frames files entries) := by
  induction ops with
  | nil => exact steps_pure _
  | cons op ops ih =>
    obtain ⟨hop, hops⟩ := List.forall_mem_cons.1 hops
    exact (program_frames h hop).attempt.bind fun _ => (ih hops).bind fun _ => steps_pure _

end Frames

/-! ## Processes on different entries -/

section Processes

variable {ι : Type} [DecidableEq ι] [Nonempty SE] {store : Store W CE SE VE} {files : W → Files}

/-- **Processes on different entries do not see each other.** Each works on entries of its own, and
lists nothing. However their calls are interleaved: a process that has ended, and of which no call
failed, has returned what its operations return on the map alone, and its entries are what they
leave; and whatever is no entry of any process is as it was. -/
theorem processes_apart (hon : OnMap store files) (hrt : RoundTrip store)
    {entries : ι → Set RelPath} (hdisjoint : ∀ i j, i ≠ j → Disjoint (entries i) (entries j))
    {ops : ι → List Op} (hops : ∀ i, ∀ op ∈ ops i, op.Within (.only (entries i)))
    {w : W} {m : EntryMap} (hres : Resolvable SE (files w)) (hm : Holds store (files w) m)
    {run : List (Move (W × (ι → Prog (Event CE SE VE) W Empty _)) ι (ι × Event CE SE VE))} {t : W}
    {ps : ι → Prog (Event CE SE VE) W Empty (List (Except (StoreError CE SE VE) Output))}
    (hrun : Runs pool (w, fun i => store.session (ops i)) run (t, ps)) :
    (∀ i r, ps i = .done r → (∀ ev ∈ actionsOf i (shown run), ev.failed = false) →
      r = .ok ((m.steps (ops i)).1.map fun a => a.mapError MapError.toStore) ∧
      ∀ e ∈ entries i,
        Option.Rel (Decrypts store) (files t (entryToBlob e)) (m.steps (ops i)).2[e]?) ∧
    ∀ q, (∀ i, ∀ e ∈ entries i, q ≠ entryToBlob e) → files t q = files w q := by
  have hframes : ∀ x ∈ run, ∀ q, (∀ e ∈ entries x.event, q ≠ entryToBlob e) →
      files x.after.1 q = files x.before.1 q := fun x hx => by
    obtain ⟨_, hframe⟩ := pool_steps hrun (fun i => session_frames hon (hops i)) x hx
    exact hframe
  refine ⟨fun i r hdone hsound => ?_, fun q hq => ?_⟩
  · have hothers : ∀ x ∈ run, x.event ≠ i → Leaves files (entries i) x.before.1 x.after.1 := by
      intro x hx hne q hq
      refine hframes x hx q fun e he heq => ?_
      subst heq
      exact Set.disjoint_left.1 (hdisjoint _ _ hne) he (hq e (blobToEntry_entryToBlob e))
    obtain ⟨js, hjs, n, u, hid, hu, hrunu, htrace⟩ :=
      pool_disturbed (R := Leaves files (entries i)) (fun _ _ _ => rfl)
        (fun a b c hab hbc q hq => (hbc q hq).trans (hab q hq)) hrun hothers
    rw [hdone, session_disturbed, Store.run_session] at hrunu
    rw [hdone, session_disturbed, Store.trace_session] at htrace
    obtain ⟨hr, hend⟩ := Prod.mk.inj hrunu
    have hnf : ¬ Faulty ((store.disturbed js).traceOps (ops i) (0, w)) := by
      rintro ⟨c, hc, hfailed⟩
      have hmem := List.mem_map_of_mem (f := Step.ev) hc
      rw [htrace] at hmem
      rw [hsound c.ev (by simpa [Prog.disturbed, Prog.trace] using hmem)] at hfailed
      cases hfailed
    have hmap : OnMapWhile (fun _ => True) (.only (entries i)) (store.disturbed js)
        (ownFiles files (entries i) (files w)) := hon.disturbed hjs
    have hstart : ownFiles files (entries i) (files w) (0, w) = files w := ownFiles_start w 0
    have hdecrypts : Decrypts (store.disturbed js) = Decrypts store :=
      decrypts_disturbed (hid n (le_refl n))
    have hm' : Holds (store.disturbed js) (ownFiles files (entries i) (files w) (0, w)) m := by
      rw [hstart, Holds, hdecrypts]
      exact hm
    obtain ⟨hresults, hholds, -⟩ := runOps_refines_while hmap (Classical.arbitrary SE)
      (hrt.disturbed js) (hops i) trivial (by rwa [hstart]) hm' hnf
    refine ⟨hr.symm.trans (congrArg Except.ok hresults), fun e he => ?_⟩
    have hown : Own (entries i) (entryToBlob e) := fun e' he' => by
      rw [blobToEntry_entryToBlob] at he'
      exact Option.some.inj he' ▸ he
    have hrel := hholds e
    rwa [ownFiles_own hown, hend, hdecrypts, ← hu _ hown] at hrel
  · have hkept : ∀ x ∈ run, files x.after.1 q = files x.before.1 q := fun x hx =>
      hframes x hx q (hq x.event)
    exact hrun.invariant (I := fun s => files s.1 q = files w q)
      (fun x _ hx hi => hx.trans hi) hkept rfl

end Processes

/-! ## Two processes in memory -/

open Import (smallStore smallStore_onMap)

/-- The first process adds an entry and shows it; the other asks for one that is not there. -/
def processOps : Bool → List Op
  | false => [.insert ⟨"a".toList, validate_a⟩ [1] false, .show ⟨"a".toList, validate_a⟩]
  | true => [.show ⟨"b".toList, validate_b⟩, .remove ⟨"b".toList, validate_b⟩]

def processEntries : Bool → Set RelPath
  | false => {⟨"a".toList, validate_a⟩}
  | true => {⟨"b".toList, validate_b⟩}

def processRun : List (Move (MemFiles × (Bool → Prog (Event TaggedError NoSpace Empty) MemFiles
    Empty (List (Except (StoreError TaggedError NoSpace Empty) Output)))) Bool
      (Bool × Event TaggedError NoSpace Empty)) ×
    (MemFiles × (Bool → Prog (Event TaggedError NoSpace Empty) MemFiles
      Empty (List (Except (StoreError TaggedError NoSpace Empty) Output)))) :=
  (exec pool (memFresh, fun i => smallStore.session (processOps i))
    [false, true, false, false, true, false, false, false, false]).get (by decide +kernel)

theorem smallStore_roundTrip : RoundTrip smallStore :=
  fun p rs w c hc w' q hq => memStore_roundTrip p rs w c hc w' q hq

theorem smallStore_resolvable : Resolvable NoSpace (memFiles memFresh) := fun e => by
  refine recipientsIn_isOk (by decide) (fun d b hb => ?_) e.parent
  obtain ⟨-, rfl⟩ := memFresh_file hb
  exact ⟨[⟨"ALICE".toList⟩], by decide⟩

theorem smallStore_holds : Holds smallStore (memFiles memFresh) ∅ := memFresh_holds

theorem processes_apart_small : ∃ r, processRun.2.2 false = .done r ∧
    r = .ok (((∅ : EntryMap).steps (processOps false)).1.map fun a =>
      a.mapError MapError.toStore) := by
  have : Nonempty NoSpace := ⟨.noSpace⟩
  have hrun : Runs pool (memFresh, fun i => smallStore.session (processOps i)) processRun.1
      (processRun.2.1, processRun.2.2) := get_runs _
  have hdisjoint : ∀ i j, i ≠ j → Disjoint (processEntries i) (processEntries j) := by
    have hne : (⟨"a".toList, validate_a⟩ : RelPath) ≠ ⟨"b".toList, validate_b⟩ := by decide
    rintro (_ | _) (_ | _) hij
    · exact absurd rfl hij
    · exact Set.disjoint_singleton.2 hne
    · exact Set.disjoint_singleton.2 hne.symm
    · exact absurd rfl hij
  have hops : ∀ i, ∀ op ∈ processOps i, op.Within (.only (processEntries i)) := by
    rintro (_ | _)
    · exact List.forall_mem_cons.2 ⟨rfl, List.forall_mem_singleton.2 rfl⟩
    · exact List.forall_mem_cons.2 ⟨rfl, List.forall_mem_singleton.2 rfl⟩
  obtain ⟨hprocess, -⟩ := processes_apart smallStore_onMap smallStore_roundTrip hdisjoint hops
    smallStore_resolvable smallStore_holds hrun
  have hended : ∀ p : Prog (Event TaggedError NoSpace Empty) MemFiles Empty
      (List (Except (StoreError TaggedError NoSpace Empty) Output)),
      (match p with | .done _ => true | .act _ _ _ => false) = true → ∃ r, p = .done r := by
    rintro (r | ⟨ev, upd, next⟩) h
    · exact ⟨r, rfl⟩
    · cases h
  obtain ⟨r, hr⟩ := hended (processRun.2.2 false) (by decide +kernel)
  refine ⟨r, hr, (hprocess false r hr ?_).1⟩
  decide +kernel

end Bypass
