import Bypass.Core.Plan

/-!
# The plans of the store's mutations

For each mutation: the part of it that asks (`insertPlan`, …), that the operation is this plan
executed (`insert_eq`, …), and what the plan is when nothing fails (`insert_asks`, …). What a plan
says of the operation's ciphertext is `Encrypted`, a call of the run.
-/

namespace Bypass

variable {W CE SE VE : Type}

namespace Store

variable (store : Store W CE SE VE)

/-! ## Plans -/

/-- Refuse when `overwrite` is off and the blob exists, else go on as `next`. -/
def unlessTaken {α : Type} (entry : RelPath) (overwrite : Bool) (next : StoreM W CE SE VE α) :
    StoreM W CE SE VE α := do
  if ← store.taken (entryToBlob entry) overwrite then
    throw (.alreadyExists entry.str)
  else next

/-- The ciphertext of a new entry. -/
def encryptFor (entry : RelPath) (plaintext : Bytes) : StoreM W CE SE VE Bytes := do
  let recipients ← (resolveRecipients store.storage entry).mapErr .fromGpgId
  (store.crypto.encrypt plaintext recipients).mapErr .crypto

def insertPlan (entry : RelPath) (plaintext : Bytes) (overwrite : Bool) :
    StoreM W CE SE VE (Plan Unit) :=
  store.unlessTaken entry overwrite do
    let ciphertext ← store.encryptFor entry plaintext
    pure {
      changes := [.write (entryToBlob entry) ciphertext]
      commit := some ([entryToBlob entry], "bypass: ".toList ++
        (if overwrite then "Update".toList else "Add".toList) ++
        " password for ".toList ++ entry.str)
      result := () }

def insertNoCommitPlan (entry : RelPath) (plaintext : Bytes) :
    StoreM W CE SE VE (Plan RelPath) := do
  let ciphertext ← store.encryptFor entry plaintext
  pure {
    changes := [.remove (entryToBlob entry), .write (entryToBlob entry) ciphertext]
    commit := none
    result := entryToBlob entry }

def removePlan (entry : RelPath) : StoreM W CE SE VE (Plan Unit) := do
  let present ← (store.storage.exists (entryToBlob entry)).mapErr .storage
  if present then
    pure {
      changes := [.remove (entryToBlob entry)]
      commit := some ([entryToBlob entry], "bypass: Remove ".toList ++ entry.str)
      result := () }
  else throw (.notFound entry.str)

/-- The ciphertext that `transfer_blob` writes at the destination. -/
def transferCiphertext (source dest : RelPath) (overwrite : Bool) : StoreM W CE SE VE Bytes :=
  store.unlessTaken dest overwrite do
    match ← (store.storage.read (entryToBlob source)).mapErr .storage with
    | none => throw (.notFound source.str)
    | some ciphertext =>
      let srcRecipients ← (resolveRecipients store.storage source).mapErr .fromGpgId
      let dstRecipients ← (resolveRecipients store.storage dest).mapErr .fromGpgId
      if recipientsEqual srcRecipients dstRecipients then
        pure ciphertext
      else do
        let plain ← (store.crypto.decrypt ciphertext).mapErr .crypto
        (store.crypto.encrypt plain dstRecipients).mapErr .crypto

def copyPlan (source dest : RelPath) (overwrite : Bool) : StoreM W CE SE VE (Plan Unit) := do
  let ciphertext ← store.transferCiphertext source dest overwrite
  pure {
    changes := [.write (entryToBlob dest) ciphertext]
    commit := some ([entryToBlob dest],
      "bypass: Copy ".toList ++ source.str ++ " to ".toList ++ dest.str)
    result := () }

def renamePlan (source dest : RelPath) (overwrite : Bool) : StoreM W CE SE VE (Plan Unit) := do
  if source.str = dest.str then
    pure { changes := [], commit := none, result := () }
  else
    let ciphertext ← store.transferCiphertext source dest overwrite
    pure {
      changes := [.write (entryToBlob dest) ciphertext, .remove (entryToBlob source)]
      commit := some ([entryToBlob source, entryToBlob dest],
        "bypass: Rename ".toList ++ source.str ++ " to ".toList ++ dest.str)
      result := () }

def removeRecursivePlan (dir : RelPath) : StoreM W CE SE VE (Plan (List RelPath)) := do
  let entries ← store.list (some dir)
  if entries.isEmpty then throw (.notFound dir.str)
  else
    pure {
      changes := entries.map fun e => .remove (entryToBlob e)
      commit := some (entries.map entryToBlob, "bypass: Remove ".toList ++ dir.str ++ "/".toList)
      result := entries }

/-! ## An operation is its plan, executed -/

theorem unlessTaken_bind {α β : Type} (entry : RelPath) (overwrite : Bool)
    (next : StoreM W CE SE VE α) (f : α → StoreM W CE SE VE β) :
    store.unlessTaken entry overwrite next >>= f =
      store.unlessTaken entry overwrite (next >>= f) := by
  simp only [unlessTaken, bind_assoc]
  refine congrArg _ (funext fun b => ?_)
  cases b with
  | true => exact Prog.throw_bind _ f
  | false => rfl

theorem execute_one (c : Change) (paths : List RelPath) (message : Str) :
    store.execute { changes := [c], commit := some (paths, message), result := () } = (do
      store.change c
      (store.vcs.commit paths message).mapErr .vcs) := by
  simp only [execute, changeAll, bind_assoc, pure_bind]
  exact congrArg _ (funext fun _ => bind_pure_unit)

theorem insert_eq (entry : RelPath) (plaintext : Bytes) (overwrite : Bool) :
    store.insert entry plaintext overwrite =
      store.insertPlan entry plaintext overwrite >>= store.execute := by
  rw [insertPlan, unlessTaken_bind]
  simp only [insert, unlessTaken, encryptFor, bind_assoc, pure_bind, execute_one, change]

/-- The parts of `insert_no_commit`. -/
theorem insertNoCommit_parts (entry : RelPath) (plaintext : Bytes) :
    store.insertNoCommit entry plaintext = (do
      let ciphertext ← store.encryptFor entry plaintext
      store.change (.remove (entryToBlob entry))
      store.change (.write (entryToBlob entry) ciphertext)
      pure (entryToBlob entry)) := by
  simp only [insertNoCommit, encryptFor, bind_assoc, change]

theorem insertNoCommit_eq (entry : RelPath) (plaintext : Bytes) :
    store.insertNoCommit entry plaintext =
      store.insertNoCommitPlan entry plaintext >>= store.execute := by
  simp only [insertNoCommit_parts, insertNoCommitPlan, bind_assoc, pure_bind, execute, changeAll]

theorem remove_eq (entry : RelPath) :
    store.remove entry = store.removePlan entry >>= store.execute := by
  simp only [remove, removePlan, bind_assoc]
  refine congrArg _ (funext fun present => ?_)
  cases present with
  | true =>
    simp only [if_true, pure_bind]
    exact (store.execute_one (.remove (entryToBlob entry)) _ _).symm
  | false => rfl

theorem transferBlob_eq (source dest : RelPath) (overwrite : Bool) :
    store.transferBlob source dest overwrite = (do
      let ciphertext ← store.transferCiphertext source dest overwrite
      store.change (.write (entryToBlob dest) ciphertext)
      pure (entryToBlob dest)) := by
  rw [transferCiphertext, unlessTaken_bind]
  simp only [transferBlob, unlessTaken, bind_assoc]
  refine congrArg _ (funext fun b => ?_)
  cases b with
  | true => rfl
  | false =>
    simp only [Bool.false_eq_true, if_false]
    refine congrArg _ (funext fun v => ?_)
    cases v with
    | none => rfl
    | some ciphertext =>
      simp only [bind_assoc]
      refine congrArg _ (funext fun src => congrArg _ (funext fun dst => ?_))
      cases recipientsEqual src dst with
      | true => rfl
      | false => simp only [Bool.false_eq_true, if_false, bind_assoc, change]

theorem copy_eq (source dest : RelPath) (overwrite : Bool) :
    store.copy source dest overwrite = store.copyPlan source dest overwrite >>= store.execute := by
  simp only [copy, transferBlob_eq, copyPlan, bind_assoc, pure_bind, execute_one]

/-- The parts of a rename to another path. -/
theorem rename_parts {source dest : RelPath} (hne : source ≠ dest) (overwrite : Bool) :
    store.rename source dest overwrite = (do
      let ciphertext ← store.transferCiphertext source dest overwrite
      store.change (.write (entryToBlob dest) ciphertext)
      store.change (.remove (entryToBlob source))
      (store.vcs.commit [entryToBlob source, entryToBlob dest]
        ("bypass: Rename ".toList ++ source.str ++ " to ".toList ++ dest.str)).mapErr .vcs) := by
  rw [rename, if_neg fun h => hne (RelPath.ext h)]
  simp only [transferBlob_eq, bind_assoc, pure_bind, change]

theorem rename_eq (source dest : RelPath) (overwrite : Bool) :
    store.rename source dest overwrite =
      store.renamePlan source dest overwrite >>= store.execute := by
  rw [rename, renamePlan]
  split_ifs with heq
  · rfl
  · simp only [transferBlob_eq, bind_assoc, pure_bind, execute, changeAll, change, bind_pure_unit]

theorem removeEntries_eq (entries : List RelPath) :
    store.removeEntries entries = (do
      store.changeAll (entries.map fun e => .remove (entryToBlob e))
      pure (entries.map entryToBlob)) := by
  induction entries with
  | nil => rfl
  | cons e es ih =>
    simp only [removeEntries, ih, List.map_cons, changeAll, change, bind_assoc, pure_bind]

theorem removeRecursive_eq (dir : RelPath) :
    store.removeRecursive dir = store.removeRecursivePlan dir >>= store.execute := by
  simp only [removeRecursive, removeRecursivePlan, bind_assoc]
  refine congrArg _ (funext fun entries => ?_)
  cases hes : entries.isEmpty with
  | true => rfl
  | false => simp [removeEntries_eq, execute]

end Store

/-! ## What the plans are -/

/-- An operation that does not overwrite finds the entry's blob in the way. -/
def Taken (f : Files) (entry : RelPath) (overwrite : Bool) : Prop :=
  overwrite = false ∧ (f (entryToBlob entry)).isSome = true

/-- The error of an operation that finds no recipients for the entry. -/
def Unresolved (f : Files) (entry : RelPath) (e : StoreError CE SE VE) : Prop :=
  ∃ e', recipientsFor f entry = .error e' ∧ e = .fromGpgId e'

/-- `c` is `plaintext` encrypted for the entry, by a call of the trace. -/
def EncryptedFor (store : Store W CE SE VE) (f : Files) (entry : RelPath) (plaintext c : Bytes)
    (tr : Trace W CE SE VE) : Prop :=
  ∃ rs, Resolves SE f entry rs ∧ Encrypted store tr plaintext rs c

/-- `c'` carries the secret of the ciphertext `c` from `source` to `dest`: it is `c` itself, when
the recipients are the same, or `c` decrypted and encrypted for `dest`. -/
def Carries (store : Store W CE SE VE) (f : Files) (source dest : RelPath) (c c' : Bytes)
    (tr : Trace W CE SE VE) : Prop :=
  (∃ rs rd, Resolves SE f source rs ∧ Resolves SE f dest rd ∧ recipientsEqual rs rd = true ∧
      c' = c) ∨
    ∃ p w, (store.crypto.decryptFn c w).1 = .ok p ∧ EncryptedFor store f dest p c' tr

/-- The refusals of `transfer_blob`. -/
def TransferRefused (f : Files) (source dest : RelPath) (overwrite : Bool)
    (e : StoreError CE SE VE) : Prop :=
  Taken f dest overwrite ∧ e = .alreadyExists dest.str ∨
    ¬ Taken f dest overwrite ∧ (f (entryToBlob source) = none ∧ e = .notFound source.str ∨
      Unresolved f source e ∨ Unresolved f dest e)

/-- What `transfer_blob` writes at the destination. -/
def Transferred (store : Store W CE SE VE) (f : Files) (source dest : RelPath) (overwrite : Bool)
    (c' : Bytes) (tr : Trace W CE SE VE) : Prop :=
  ¬ Taken f dest overwrite ∧
    ∃ c, f (entryToBlob source) = some c ∧ Carries store f source dest c c' tr

theorem Encrypted.append {store : Store W CE SE VE} {tr tr' : Trace W CE SE VE} {p c : Bytes}
    {rs : List KeyId} (h : Encrypted store tr' p rs c) : Encrypted store (tr ++ tr') p rs c := by
  obtain ⟨call, hc, h⟩ := h
  exact ⟨call, List.mem_append_right _ hc, h⟩

theorem Encrypted.append_left {store : Store W CE SE VE} {tr tr' : Trace W CE SE VE} {p c : Bytes}
    {rs : List KeyId} (h : Encrypted store tr p rs c) : Encrypted store (tr ++ tr') p rs c := by
  obtain ⟨call, hc, h⟩ := h
  exact ⟨call, List.mem_append_left _ hc, h⟩

section Asks

variable {store : Store W CE SE VE} {files : W → Files} (h : OnMap store files) {s : W}
include h

theorem unlessTaken_asks {α : Type} {entry : RelPath} {overwrite : Bool}
    {next : StoreM W CE SE VE α} {refused : StoreError CE SE VE → Prop}
    {answered : α → Trace W CE SE VE → Prop}
    (hr : Taken (files s) entry overwrite → refused (.alreadyExists entry.str))
    (hn : ¬ Taken (files s) entry overwrite → ∀ tr u, files u = files s →
      Asks files next u refused fun a tr' => answered a (tr ++ tr')) :
    Asks files (store.unlessTaken entry overwrite next) s refused answered := by
  have htaken : Asks files (store.taken (entryToBlob entry) overwrite) s refused
      fun b _ => b = true ↔ Taken (files s) entry overwrite := by
    rw [Store.taken]
    cases overwrite with
    | true => exact asks_pure (by simp [Taken])
    | false =>
      exact (asks_exists h).mapErr.mono (fun _ hf => hf) fun b _ hb => by simp [Taken, hb]
  refine htaken.bind fun b tr u hu hb => ?_
  cases b with
  | true => exact asks_throw (hr (hb.1 rfl))
  | false => exact hn (fun ht => by simpa using hb.2 ht) tr u hu

/-- The recipients of an entry, asked for by an operation. -/
theorem recipients_asks (entry : RelPath) :
    Asks files (((resolveRecipients store.storage entry).mapErr .fromGpgId :
        StoreM W CE SE VE _)) s
      (Unresolved (files s) entry) fun rs _ => Resolves SE (files s) entry rs := by
  refine Asks.mapErr ((resolve_asks h entry s).mono (fun e he => ?_) fun _ _ hrs => hrs)
  exact ⟨e, he, rfl⟩

theorem encryptFor_asks (entry : RelPath) (plaintext : Bytes) :
    Asks files (store.encryptFor entry plaintext) s (Unresolved (files s) entry)
      fun c tr => EncryptedFor store (files s) entry plaintext c tr := by
  unfold Store.encryptFor
  refine (recipients_asks h entry).bind fun rs tr u hu hrs => ?_
  refine (asks_encrypt h).mapErr.mono (fun e he => he) fun c tr' hc => ?_
  exact ⟨rs, hrs, hc.append⟩

theorem insert_asks (entry : RelPath) (plaintext : Bytes) (overwrite : Bool) :
    Asks files (store.insertPlan entry plaintext overwrite) s
      (fun e => Taken (files s) entry overwrite ∧ e = .alreadyExists entry.str ∨
        ¬ Taken (files s) entry overwrite ∧ Unresolved (files s) entry e)
      fun plan tr => ¬ Taken (files s) entry overwrite ∧ plan.result = () ∧
        ∃ c, EncryptedFor store (files s) entry plaintext c tr ∧
          plan.changes = [.write (entryToBlob entry) c] := by
  unfold Store.insertPlan
  refine unlessTaken_asks h (fun ht => Or.inl ⟨ht, rfl⟩) fun ht tr u hu => ?_
  have henc := encryptFor_asks (s := u) h entry plaintext
  rw [hu] at henc
  refine (henc.mono (fun e he => Or.inr ⟨ht, he⟩) fun _ _ hc => hc).bind fun c tr' v hv hc => ?_
  obtain ⟨rs, hrs, hc⟩ := hc
  exact asks_pure ⟨ht, rfl, c, ⟨rs, hrs, by simpa using hc.append⟩, rfl⟩

theorem insertNoCommit_asks (entry : RelPath) (plaintext : Bytes) :
    Asks files (store.insertNoCommitPlan entry plaintext) s (Unresolved (files s) entry)
      fun plan tr => plan.result = entryToBlob entry ∧
        ∃ c, EncryptedFor store (files s) entry plaintext c tr ∧
          plan.changes = [.remove (entryToBlob entry), .write (entryToBlob entry) c] := by
  unfold Store.insertNoCommitPlan
  refine (encryptFor_asks h entry plaintext).bind fun c tr u hu hc => ?_
  exact asks_pure ⟨rfl, c, by simpa using hc, rfl⟩

/-- What `insert_no_commit` has done when it succeeds. -/
theorem insertNoCommit_ok {entry blob : RelPath} {plaintext : Bytes} {t : W}
    (hrun : (store.insertNoCommit entry plaintext).run s = (.ok blob, t)) :
    blob = entryToBlob entry ∧ ∃ c rs w,
      files t = Function.update (files s) (entryToBlob entry) (some c) ∧
        Resolves SE (files s) entry rs ∧ (store.crypto.encryptFn plaintext rs w).1 = .ok c := by
  have hout := (insertNoCommit_asks h entry plaintext (s := s)).outcome h
  rw [← store.insertNoCommit_eq, Prog.wp, hrun] at hout
  generalize (store.insertNoCommit entry plaintext).trace s = tr at hout
  cases hout with
  | done hquiet hnf hplanned hchanged ht =>
    obtain ⟨hresult, c, ⟨rs, hrs, call, -, -, hc⟩, hch⟩ := hplanned
    refine ⟨hresult, c, rs, call.before, ?_, hrs, hc⟩
    rw [ht, hch]
    exact Function.update_idem _ _ _

theorem remove_asks (entry : RelPath) :
    Asks files (store.removePlan entry) s
      (fun e => files s (entryToBlob entry) = none ∧ e = .notFound entry.str)
      fun plan _ => (files s (entryToBlob entry)).isSome = true ∧ plan.result = () ∧
        plan.changes = [.remove (entryToBlob entry)] := by
  unfold Store.removePlan
  refine (asks_exists h).mapErr.bind fun b tr u hu hb => ?_
  cases b with
  | true => exact asks_pure ⟨hb.symm, rfl, rfl⟩
  | false => exact asks_throw ⟨by simpa using hb.symm, rfl⟩

theorem transfer_asks (source dest : RelPath) (overwrite : Bool) :
    Asks files (store.transferCiphertext source dest overwrite) s
      (TransferRefused (files s) source dest overwrite)
      (Transferred store (files s) source dest overwrite) := by
  unfold Store.transferCiphertext
  refine unlessTaken_asks h (fun ht => Or.inl ⟨ht, rfl⟩) fun ht tr u hu => ?_
  refine (asks_read h).mapErr.bind fun v tr₁ u₁ hu₁ hv => ?_
  rw [hu] at hu₁ hv
  cases v with
  | none => exact asks_throw (Or.inr ⟨ht, Or.inl ⟨hv.symm, rfl⟩⟩)
  | some c =>
    have hsrc := recipients_asks (s := u₁) h source
    rw [hu₁] at hsrc
    refine (hsrc.mono (fun e he => Or.inr ⟨ht, Or.inr (Or.inl he)⟩) fun _ _ hr => hr).bind
      fun rs tr₂ u₂ hu₂ hrs => ?_
    have hdst := recipients_asks (s := u₂) h dest
    rw [hu₂, hu₁] at hdst
    refine (hdst.mono (fun e he => Or.inr ⟨ht, Or.inr (Or.inr he)⟩) fun _ _ hr => hr).bind
      fun rd tr₃ u₃ hu₃ hrd => ?_
    cases heq : recipientsEqual rs rd with
    | true => exact asks_pure ⟨ht, c, hv.symm, Or.inl ⟨rs, rd, hrs, hrd, heq, rfl⟩⟩
    | false =>
      simp only [Bool.false_eq_true, if_false]
      refine (asks_decrypt h).mapErr.bind fun p tr₄ u₄ hu₄ hp => ?_
      refine (asks_encrypt h).mapErr.mono (fun e he => he) fun c' tr₅ hc' => ?_
      obtain ⟨w, hw⟩ := hp
      refine ⟨ht, c, hv.symm, Or.inr ⟨p, w, hw, rd, hrd, ?_⟩⟩
      exact hc'.append.append.append.append.append

theorem copy_asks (source dest : RelPath) (overwrite : Bool) :
    Asks files (store.copyPlan source dest overwrite) s
      (TransferRefused (files s) source dest overwrite)
      fun plan tr => plan.result = () ∧
        ∃ c, Transferred store (files s) source dest overwrite c tr ∧
          plan.changes = [.write (entryToBlob dest) c] := by
  unfold Store.copyPlan
  refine (transfer_asks h source dest overwrite).bind fun c tr u hu hc => ?_
  exact asks_pure ⟨rfl, c, by simpa using hc, rfl⟩

theorem rename_asks (source dest : RelPath) (overwrite : Bool) :
    Asks files (store.renamePlan source dest overwrite) s
      (fun e => source ≠ dest ∧ TransferRefused (files s) source dest overwrite e)
      fun plan tr => plan.result = () ∧ (source = dest ∧ plan.changes = [] ∨
        source ≠ dest ∧ ∃ c, Transferred store (files s) source dest overwrite c tr ∧
          plan.changes = [.write (entryToBlob dest) c, .remove (entryToBlob source)]) := by
  unfold Store.renamePlan
  split_ifs with heq
  · exact asks_pure ⟨rfl, Or.inl ⟨RelPath.ext heq, rfl⟩⟩
  · have hne : source ≠ dest := fun he => heq (congrArg RelPath.str he)
    refine ((transfer_asks h source dest overwrite).mono (fun e he => ⟨hne, he⟩)
      fun _ _ hc => hc).bind fun c tr u hu hc => ?_
    exact asks_pure ⟨rfl, Or.inr ⟨hne, c, by simpa using hc, rfl⟩⟩

/-- The entries that `list` returns, of the files `f`. -/
def Listed (f : Files) (subpath : Option RelPath) (entries : List RelPath) : Prop :=
  entries.Pairwise PathLE ∧ entries.Nodup ∧
    ∀ e, e ∈ entries ↔ (f (entryToBlob e)).isSome ∧ ∀ p ∈ subpath, p.Below e

theorem list_asks (subpath : Option RelPath) :
    Asks files (store.list subpath) s (fun _ => False)
      fun entries _ => Listed (files s) subpath entries := by
  unfold Store.list
  refine (asks_list h).mapErr.bind fun blobs tr u hu ⟨hnd, hmem⟩ => asks_pure ?_
  have hperm := List.perm_insertionSort PathLE (blobs.filterMap blobToEntry)
  refine ⟨List.pairwise_insertionSort _ _, hperm.nodup_iff.2 ?_, fun e => ?_⟩
  · refine hnd.filterMap fun b b' e he he' => ?_
    rw [Option.mem_def, blobToEntry_eq_some] at he he'
    rw [he, he']
  · rw [hperm.mem_iff, List.mem_filterMap]
    constructor
    · rintro ⟨b, hb, he⟩
      obtain rfl := blobToEntry_eq_some.1 he
      obtain ⟨hs, hbelow⟩ := (hmem _).1 hb
      exact ⟨hs, fun p hp => below_entryToBlob.1 (hbelow p hp)⟩
    · rintro ⟨hs, hbelow⟩
      refine ⟨entryToBlob e, (hmem _).2 ⟨hs, fun p hp => ?_⟩, blobToEntry_entryToBlob e⟩
      exact below_entryToBlob.2 (hbelow p hp)

theorem find_asks (pattern : Str) :
    Asks files (store.find pattern) s (fun _ => False) fun _ _ => True := by
  unfold Store.find
  exact (list_asks h none).bind fun _ _ _ _ _ => asks_pure trivial

theorem show_asks (entry : RelPath) :
    Asks files (store.show entry) s
      (fun e => files s (entryToBlob entry) = none ∧ e = .notFound entry.str)
      fun p _ => ∃ c w, files s (entryToBlob entry) = some c ∧
        (store.crypto.decryptFn c w).1 = .ok p := by
  unfold Store.show
  refine (asks_read h).mapErr.bind fun v tr u hu hv => ?_
  cases v with
  | none => exact asks_throw ⟨hv.symm, rfl⟩
  | some c =>
    refine (asks_decrypt h).mapErr.mono (fun e he => he) fun p tr' hp => ?_
    obtain ⟨w, hw⟩ := hp
    exact ⟨c, w, hv.symm, hw⟩

theorem removeRecursive_asks (dir : RelPath) :
    Asks files (store.removeRecursivePlan dir) s
      (fun e => Listed (files s) (some dir) [] ∧ e = .notFound dir.str)
      fun plan _ => Listed (files s) (some dir) plan.result ∧ plan.result ≠ [] ∧
        plan.changes = plan.result.map fun e => .remove (entryToBlob e) := by
  unfold Store.removeRecursivePlan
  refine ((list_asks h (some dir)).mono (fun e he => he.elim) fun _ _ hl => hl).bind
    fun entries tr u hu hl => ?_
  cases entries with
  | nil => exact asks_throw ⟨hl, rfl⟩
  | cons e es => exact asks_pure ⟨hl, by simp, rfl⟩

end Asks

end Bypass
