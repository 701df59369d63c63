import Bypass.Core.GpgId

/-!
# The store

The operations of the orchestrator on entries (`store.rs`), each as the program of backend calls
the source makes, in its order. A mutation asks the backends what to do, changes the storage, and
commits; nothing undoes the change when the commit refuses.
-/

namespace Bypass

/-! ## Errors -/

/-- `StoreError`. -/
inductive StoreError (CE SE VE : Type) where
  | notFound (entry : Str)
  | alreadyExists (entry : Str)
  | notInitialized
  | gpgIdMalformed (reason : Str)
  | crypto (e : CE)
  | storage (e : SE)
  | vcs (e : VE)
  deriving DecidableEq

/-- `StoreError::from_gpg_id`. -/
def StoreError.fromGpgId {CE SE VE : Type} : GpgIdError SE → StoreError CE SE VE
  | .missing => .notInitialized
  | .empty => .gpgIdMalformed "no recipients".toList
  | .notUtf8 => .gpgIdMalformed "not UTF-8".toList
  | .storage e => .storage e

/-! ## Order -/

/-- The order of strings, which `sort_by` and `sort_unstable` use. -/
def StrLE (a b : Str) : Prop := (compare a b).isLE = true

instance : DecidableRel StrLE := fun a b => inferInstanceAs (Decidable ((compare a b).isLE = true))

instance : Std.Total StrLE := ⟨fun a b => by
  have h := @Std.OrientedCmp.eq_swap Str compare _ a b
  rw [StrLE, StrLE, h]
  cases compare b a <;> simp⟩

instance : IsTrans Str StrLE :=
  ⟨fun a b c => @Std.TransCmp.isLE_trans Str compare _ a b c⟩

instance : Std.Antisymm StrLE := ⟨fun a b hab hba => by
  have h := @Std.OrientedCmp.eq_swap Str compare _ a b
  rw [StrLE] at hab hba
  cases hcmp : compare b a with
  | lt => simp [h, hcmp] at hab
  | eq => exact (@Std.LawfulEqCmp.eq_of_compare Str compare _ b a hcmp).symm
  | gt => simp [hcmp] at hba⟩

/-- Paths in the order of their strings. -/
def PathLE (p q : RelPath) : Prop := StrLE p.str q.str

instance : DecidableRel PathLE := fun p q => inferInstanceAs (Decidable (StrLE p.str q.str))

instance : Std.Total PathLE := ⟨fun p q => Std.Total.total (r := StrLE) p.str q.str⟩

instance : IsTrans RelPath PathLE := ⟨fun p q r => IsTrans.trans (r := StrLE) p.str q.str r.str⟩

/-- `recipients_equal`: equal lengths, and equal once sorted. -/
def recipientsEqual (a b : List KeyId) : Bool :=
  if a.length ≠ b.length then false
  else (a.map KeyId.str).insertionSort StrLE = (b.map KeyId.str).insertionSort StrLE

theorem KeyId.str_injective : Function.Injective KeyId.str := fun a b h => by
  cases a
  cases b
  cases h
  rfl

/-- Lists are judged equal when they are permutations of each other. -/
theorem recipientsEqual_iff {a b : List KeyId} : recipientsEqual a b = true ↔ List.Perm a b := by
  rw [recipientsEqual]
  constructor
  · intro h
    split_ifs at h
    have hs := of_decide_eq_true h
    have hp : List.Perm (a.map KeyId.str) (b.map KeyId.str) :=
      (List.perm_insertionSort StrLE _).symm.trans (hs ▸ List.perm_insertionSort StrLE _)
    exact (List.map_perm_map_iff KeyId.str_injective).1 hp
  · intro h
    rw [if_neg (not_not.2 h.length_eq), decide_eq_true_eq]
    have hp : List.Perm ((a.map KeyId.str).insertionSort StrLE)
        ((b.map KeyId.str).insertionSort StrLE) :=
      (List.perm_insertionSort StrLE _).trans
        ((h.map KeyId.str).trans (List.perm_insertionSort StrLE _).symm)
    exact hp.eq_of_pairwise' (List.pairwise_insertionSort _ _) (List.pairwise_insertionSort _ _)

/-! ## Operations -/

/-- A program of the orchestrator. -/
abbrev StoreM (W CE SE VE α : Type) := Prog (Event CE SE VE) W (StoreError CE SE VE) α

namespace Store

variable {W CE SE VE : Type} (store : Store W CE SE VE)

/-- `!overwrite && self.storage.exists(&blob)?`, which asks the storage only when it matters. -/
def taken (blob : RelPath) (overwrite : Bool) : StoreM W CE SE VE Bool :=
  if overwrite then pure false else (store.storage.exists blob).mapErr .storage

/-- `Store::insert`. -/
def insert (entry : RelPath) (plaintext : Bytes) (overwrite : Bool) : StoreM W CE SE VE Unit := do
  let blob := entryToBlob entry
  if ← store.taken blob overwrite then
    throw (.alreadyExists entry.str)
  else
    let recipients ← (resolveRecipients store.storage entry).mapErr .fromGpgId
    let ciphertext ← (store.crypto.encrypt plaintext recipients).mapErr .crypto
    (store.storage.write blob ciphertext).mapErr .storage
    let verb := if overwrite then "Update".toList else "Add".toList
    (store.vcs.commit [blob]
      ("bypass: ".toList ++ verb ++ " password for ".toList ++ entry.str)).mapErr .vcs

/-- `Store::insert_no_commit`. -/
def insertNoCommit (entry : RelPath) (plaintext : Bytes) : StoreM W CE SE VE RelPath := do
  let blob := entryToBlob entry
  let recipients ← (resolveRecipients store.storage entry).mapErr .fromGpgId
  let ciphertext ← (store.crypto.encrypt plaintext recipients).mapErr .crypto
  (store.storage.remove blob).mapErr .storage
  (store.storage.write blob ciphertext).mapErr .storage
  pure blob

/-- `Store::commit_changes`. -/
def commitChanges (paths : List RelPath) (message : Str) : StoreM W CE SE VE Unit :=
  (store.vcs.commit paths message).mapErr .vcs

/-- `Store::show`. -/
def «show» (entry : RelPath) : StoreM W CE SE VE Bytes := do
  match ← (store.storage.read (entryToBlob entry)).mapErr .storage with
  | none => throw (.notFound entry.str)
  | some ciphertext => (store.crypto.decrypt ciphertext).mapErr .crypto

/-- `Store::list`. -/
def list (subpath : Option RelPath) : StoreM W CE SE VE (List RelPath) := do
  let blobs ← (store.storage.list subpath).mapErr .storage
  pure ((blobs.filterMap blobToEntry).insertionSort PathLE)

/-- `Store::find`. -/
def find (pattern : Str) : StoreM W CE SE VE (List RelPath) := do
  let entries ← store.list none
  pure (entries.filter fun e => decide (pattern <:+: e.str))

/-- `Store::remove`. -/
def remove (entry : RelPath) : StoreM W CE SE VE Unit := do
  let blob := entryToBlob entry
  let present ← (store.storage.exists blob).mapErr .storage
  if present then
    (store.storage.remove blob).mapErr .storage
    (store.vcs.commit [blob] ("bypass: Remove ".toList ++ entry.str)).mapErr .vcs
  else
    throw (.notFound entry.str)

/-- `Store::transfer_blob`, the shared body of `copy` and `rename`. -/
def transferBlob (source dest : RelPath) (overwrite : Bool) : StoreM W CE SE VE RelPath := do
  let fromBlob := entryToBlob source
  let toBlob := entryToBlob dest
  if ← store.taken toBlob overwrite then
    throw (.alreadyExists dest.str)
  else
    match ← (store.storage.read fromBlob).mapErr .storage with
    | none => throw (.notFound source.str)
    | some ciphertext =>
      let srcRecipients ← (resolveRecipients store.storage source).mapErr .fromGpgId
      let dstRecipients ← (resolveRecipients store.storage dest).mapErr .fromGpgId
      let newCiphertext ←
        if recipientsEqual srcRecipients dstRecipients then
          pure ciphertext
        else do
          let plain ← (store.crypto.decrypt ciphertext).mapErr .crypto
          (store.crypto.encrypt plain dstRecipients).mapErr .crypto
      (store.storage.write toBlob newCiphertext).mapErr .storage
      pure toBlob

/-- `Store::copy`. -/
def copy (source dest : RelPath) (overwrite : Bool) : StoreM W CE SE VE Unit := do
  let toBlob ← store.transferBlob source dest overwrite
  (store.vcs.commit [toBlob]
    ("bypass: Copy ".toList ++ source.str ++ " to ".toList ++ dest.str)).mapErr .vcs

/-- `Store::rename`. -/
def rename (source dest : RelPath) (overwrite : Bool) : StoreM W CE SE VE Unit := do
  -- the byte copy and removal below would unlink the only copy of an entry renamed to itself
  if source.str = dest.str then
    pure ()
  else
    let toBlob ← store.transferBlob source dest overwrite
    let fromBlob := entryToBlob source
    (store.storage.remove fromBlob).mapErr .storage
    (store.vcs.commit [fromBlob, toBlob]
      ("bypass: Rename ".toList ++ source.str ++ " to ".toList ++ dest.str)).mapErr .vcs

/-- The loop of `remove_recursive`: remove the blob of each entry, and return the blobs. -/
def removeEntries : List RelPath → StoreM W CE SE VE (List RelPath)
  | [] => pure []
  | entry :: rest => do
    let blob := entryToBlob entry
    (store.storage.remove blob).mapErr .storage
    let blobs ← removeEntries rest
    pure (blob :: blobs)

/-- `Store::remove_recursive`. -/
def removeRecursive (dir : RelPath) : StoreM W CE SE VE (List RelPath) := do
  let entries ← store.list (some dir)
  if entries.isEmpty then
    throw (.notFound dir.str)
  else
    let blobs ← store.removeEntries entries
    (store.vcs.commit blobs ("bypass: Remove ".toList ++ dir.str ++ "/".toList)).mapErr .vcs
    pure entries

/-- The entries that `Store::list` reports in the world `w`. -/
def reported (dir : Option RelPath) (w : W) : Set RelPath :=
  {e | ∃ entries, ((store.list dir).run w).1 = .ok entries ∧ e ∈ entries}

/-- What is reported is told by one listing. -/
theorem mem_reported_of_run {dir : Option RelPath} {w : W} {entries : List RelPath} {e : RelPath}
    (h : ((store.list dir).run w).1.toOption = some entries) :
    e ∈ store.reported dir w ↔ e ∈ entries := by
  cases hrun : ((store.list dir).run w).1 with
  | error err =>
    rw [hrun] at h
    cases h
  | ok entries' =>
    rw [hrun] at h
    obtain rfl := Option.some.inj h
    constructor
    · rintro ⟨l, hl, he⟩
      rwa [Except.ok.inj (hrun.symm.trans hl)]
    · exact fun he => ⟨_, hrun, he⟩

/-- What is reported are the blobs that the storage lists. -/
theorem mem_reported {dir : Option RelPath} {w : W} {e : RelPath} :
    e ∈ store.reported dir w ↔
      ∃ blobs, (store.storage.listFn dir w).1 = .ok blobs ∧ entryToBlob e ∈ blobs := by
  have hrun : ((store.list dir).run w).1 =
      match (store.storage.listFn dir w).1 with
      | .ok blobs => .ok ((blobs.filterMap blobToEntry).insertionSort PathLE)
      | .error e => .error (.storage e) := by
    rw [list, Prog.run_bind, Prog.run_mapErr, Storage.list, Prog.run_call]
    cases h : (store.storage.listFn dir w).1 <;> rfl
  have hentry (blobs : List RelPath) :
      e ∈ (blobs.filterMap blobToEntry).insertionSort PathLE ↔ entryToBlob e ∈ blobs := by
    rw [List.mem_insertionSort, List.mem_filterMap]
    simp only [blobToEntry_eq_some, exists_eq_right]
  constructor
  · rintro ⟨entries, hok, he⟩
    rw [hrun] at hok
    cases h : (store.storage.listFn dir w).1 with
    | error err =>
      rw [h] at hok
      cases hok
    | ok blobs =>
      rw [h] at hok
      obtain rfl := Except.ok.inj hok
      exact ⟨blobs, rfl, (hentry blobs).1 he⟩
  · rintro ⟨blobs, hok, he⟩
    refine ⟨_, ?_, (hentry blobs).2 he⟩
    rw [hrun, hok]

end Store

end Bypass
