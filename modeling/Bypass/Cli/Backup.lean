import Bypass.Core.Bundle
import Bypass.Core.StorePlan

/-!
# Backup and restore

`bypass backup` decrypts the entries of a store one by one into a bundle, which `gpg` encrypts as a
whole; `bypass restore` writes the entries of a bundle into a store, encrypted for the recipients
there, and makes one commit of them (`backup.rs`, `restore.rs`). Both run on the orchestrator.

A backup is the bytes it puts out. It runs `gpg` beside the writer, and so does `restore` beside the
reader: there the plaintext that has come out so far is read, and how `gpg` ended is only asked when
the reader is done.
-/

namespace Bypass

/-- The entry `_`, whose recipients are those of the root. -/
def dummyEntry : RelPath := ⟨"_".toList, by decide⟩

/-! ## Errors -/

/-- The errors of `backup::run`. -/
inductive BackupError (CE SE VE IE TE : Type) where
  | invalidSubtree (e : PathError)
  | store (e : StoreError CE SE VE)
  | noEntries (subtree : Option Str)
  | gpgId (e : GpgIdError SE)
  | bundle (e : BundleError IE TE (RelPath × StoreError CE SE VE))
  | encrypt (e : CE)
  deriving DecidableEq

/-- The errors of `restore::run`. -/
inductive RestoreError (CE SE VE IE TE : Type) where
  | notInitialised
  | store (e : StoreError CE SE VE)
  | notEmpty (existing : ℕ)
  | unfinishedMerge
  | bundle (e : BundleError IE TE (StoreError CE SE VE))
  | decrypt (e : CE)
  | gpgId (e : GpgIdError SE)
  deriving DecidableEq

/-! ## Backup -/

section Backup

variable {W CE SE VE B IE TE : Type} (store : Store W CE SE VE) (tar : Tar B IE) (toml : Toml TE)

/-- An item of the iterator of `backup::run`. -/
def backupItem (entry : RelPath) :
    BundleM (Event CE SE VE) W IE TE (RelPath × StoreError CE SE VE) BundleEntry := do
  let plaintext ← (store.show entry).mapErr fun e => .source (entry, e)
  pure ⟨entry, plaintext⟩

/-- The subtree to back up. -/
def parseSubtree : Option Str →
    Prog (Event CE SE VE) W (BackupError CE SE VE IE TE) (Option RelPath)
  | none => pure none
  | some s => some <$> orThrow .invalidSubtree (RelPath.new s)

/-- `backup::run`, at the time `now`. -/
def backup (now : ℤ) (recipient : Str) (subtree : Option Str) :
    Prog (Event CE SE VE) W (BackupError CE SE VE IE TE) Bytes := do
  let subtreePath ← parseSubtree subtree
  let entries ← (store.list subtreePath).mapErr .store
  if entries = [] then throw (.noEntries subtree)
  else
    let recipients ← (resolveRecipients store.storage dummyEntry).mapErr .gpgId
    let manifest : Manifest := ⟨formatVersion, now, recipients.map KeyId.str,
      UInt32.ofNat entries.length⟩
    let plain ← (writeBundle tar toml manifest (entries.map (backupItem store))).mapErr .bundle
    (store.crypto.encrypt plain [⟨recipient⟩]).mapErr .encrypt

end Backup

/-! ## Restore -/

/-- `spawn_decrypt_stream` and `finish_streaming`: what `gpg` puts out, and how it ends. -/
abbrev DecryptStream (W CE : Type) := Bytes → W → (Bytes × Except CE Unit) × W

/-- Decrypt a stream. -/
def DecryptStream.call {W CE SE VE ε : Type} (stream : DecryptStream W CE) (bundle : Bytes) :
    Prog (Event CE SE VE) W ε (Bytes × Except CE Unit) :=
  .act (fun w => .decrypt bundle ((stream bundle w).1.2.map fun _ => (stream bundle w).1.1))
    (fun w => (stream bundle w).2) fun w => .done (.ok (stream bundle w).1)

section Restore

variable {W CE SE VE B IE TE : Type} (store : Store W CE SE VE) (tar : Tar B IE) (toml : Toml TE)
  (stream : DecryptStream W CE)

/-- Without `--in-place`, a store with entries is refused; with it, one in the middle of a merge.
`dirty` is `store_has_dirty_git_state`. -/
def restoreGuard (dirty : Prog (Event CE SE VE) W Empty Bool) (inPlace : Bool) :
    Prog (Event CE SE VE) W (RestoreError CE SE VE IE TE) Unit := do
  if inPlace then
    if ← dirty.mapErr Empty.elim then throw .unfinishedMerge else pure ()
  else
    let existing ← (store.list none).mapErr .store
    if existing = [] then pure () else throw (.notEmpty existing.length)

/-- The message of the commit of `restore::run`. -/
def restoreMessage (inPlace : Bool) (destRecipient : Str) (touched : ℕ) : Str :=
  if inPlace then "bypass: Re-encrypt store for ".toList ++ destRecipient
  else "bypass: Restore ".toList ++ Nat.toDigits 10 touched ++ " entries from backup".toList

/-- The end of `restore::run`: one commit of the blobs that were written. -/
def commitRestored (inPlace : Bool) (touched : List RelPath) :
    Prog (Event CE SE VE) W (RestoreError CE SE VE IE TE) Unit :=
  if touched = [] then pure ()
  else do
    let recipients ← (resolveRecipients store.storage dummyEntry).mapErr .gpgId
    let destRecipient := (recipients.head?.map KeyId.str).getD "new key".toList
    (store.commitChanges touched (restoreMessage inPlace destRecipient touched.length)).mapErr .store

/-- `restore::run`, on the content of the bundle's file: the number of entries that it reports. -/
def restore (dirty : Prog (Event CE SE VE) W Empty Bool) (bundle : Bytes) (inPlace : Bool) :
    Prog (Event CE SE VE) W (RestoreError CE SE VE IE TE) UInt32 := do
  match ← (store.storage.exists gpgIdPath).attempt with
  | .ok true =>
    restoreGuard store dirty inPlace
    let (plain, ended) ← stream.call bundle
    let (manifest, touched) ← (readBundle tar toml plain noPreCheck fun entry =>
      (store.insertNoCommit entry.path entry.plaintext).mapErr .source).mapErr .bundle
    orThrow .decrypt ended
    commitRestored store inPlace touched
    pure manifest.entries
  | _ => throw .notInitialised

end Restore

end Bypass
