import Bypass.Core.Asking

/-!
# How `insert_no_commit` ends

`insert_no_commit` finds the recipients and encrypts, removes what is at the blob, and writes. Each
of its calls may fail, and then it ends there: what is on disk depends on which call it was.

* `InsertEnd`, `insertNoCommit_ends`: the four ways.
* `Shreds`: what a storage that shreds promises of the calls that fail.
-/

namespace Bypass

open Prog

variable {W CE SE VE : Type} {store : Store W CE SE VE} {files : W → Files}

/-- A trace of calls that ask, and keep the files. -/
def Asked (files : W → Files) (tr : Trace W CE SE VE) : Prop :=
  ∀ call ∈ tr, Asking (fun s t => files t = files s) call.ev call.before call.after

/-- How `insert_no_commit`, started in `s`, can end. -/
inductive InsertEnd (store : Store W CE SE VE) (files : W → Files) (entry : RelPath)
    (plaintext : Bytes) (s : W) :
    Except (StoreError CE SE VE) RelPath → Trace W CE SE VE → W → Prop
  /-- It had no ciphertext. -/
  | refused {e tr t} : Asked files tr → files t = files s →
      InsertEnd store files entry plaintext s (.error e) tr t
  /-- The old blob could not be removed. -/
  | removeFailed {e e' asked u t} : Asked files asked → files u = files s →
      store.storage.removeFn (entryToBlob entry) u = (.error e', t) →
      InsertEnd store files entry plaintext s (.error e)
        (asked ++ [⟨.remove (entryToBlob entry) (.error e'), u, t⟩]) t
  /-- The old blob was removed, and the new one could not be written. -/
  | writeFailed {e e' c asked u v t} : Asked files asked → files u = files s →
      store.storage.removeFn (entryToBlob entry) u = (.ok (), v) →
      store.storage.writeFn (entryToBlob entry) c v = (.error e', t) →
      InsertEnd store files entry plaintext s (.error e)
        (asked ++ [⟨.remove (entryToBlob entry) (.ok ()), u, v⟩,
          ⟨.write (entryToBlob entry) c (.error e'), v, t⟩]) t
  /-- The new blob is there. -/
  | done {c rs w asked u v t} : Asked files asked → files u = files s →
      Resolves SE (files s) entry rs → (store.crypto.encryptFn plaintext rs w).1 = .ok c →
      store.storage.removeFn (entryToBlob entry) u = (.ok (), v) →
      store.storage.writeFn (entryToBlob entry) c v = (.ok (), t) →
      InsertEnd store files entry plaintext s (.ok (entryToBlob entry))
        (asked ++ [⟨.remove (entryToBlob entry) (.ok ()), u, v⟩,
          ⟨.write (entryToBlob entry) c (.ok ()), v, t⟩]) t

/-- **The ways in which `insert_no_commit` ends.** -/
theorem insertNoCommit_ends (h : OnMap store files) (entry : RelPath) (plaintext : Bytes) (s : W) :
    (store.insertNoCommit entry plaintext).wp (InsertEnd store files entry plaintext s) s := by
  rw [store.insertNoCommit_parts]
  have hasked : (store.encryptFor entry plaintext).wp (fun _ tr _ => Asked files tr) s :=
    (asking_encryptFor h.calm entry plaintext).trace s
  have henc := encryptFor_asks (s := s) h entry plaintext
  refine wp_bind.2 (wp_mono (wp_and hasked henc) ?_)
  rintro r asked u ⟨hcalls, -, hu, hr⟩
  cases r with
  | error e => exact .refused hcalls hu
  | ok c =>
    obtain ⟨-, rs, hrs, call, -, -, hc⟩ := hr
    refine wp_bind.2 (wp_mapErr.2 (wp_call.2 ?_))
    rcases hremove : store.storage.removeFn (entryToBlob entry) u with ⟨e' | _, v⟩
    · exact .removeFailed hcalls hu hremove
    · refine wp_bind.2 (wp_mapErr.2 (wp_call.2 ?_))
      rcases hwrite : store.storage.writeFn (entryToBlob entry) c v with ⟨e' | _, t⟩
      · exact .writeFailed hcalls hu hremove hwrite
      · exact .done hcalls hu hrs hc hremove hwrite

/-! ## Storages that shred -/

/-- What is at a path, if anything, opens to no plaintext. -/
def Ruined (Opens : Bytes → Bytes → Prop) (v : Option Bytes) : Prop := ∀ c ∈ v, ∀ p, ¬ Opens c p

/-- **The storage shreds**, and writes whole files or nothing: of the calls that fail, a write
leaves the path as it was, and a removal leaves it as it was or overwritten. `Opens` says what a
ciphertext decrypts to. -/
structure Shreds (store : Store W CE SE VE) (files : W → Files)
    (Opens : Bytes → Bytes → Prop) : Prop where
  encrypts : ∀ p rs w c, (store.crypto.encryptFn p rs w).1 = .ok c → Opens c p
  write_fails : ∀ p d w e, (store.storage.writeFn p d w).1 = .error e →
    files (store.storage.writeFn p d w).2 p = files w p
  remove_fails : ∀ p w e, (store.storage.removeFn p w).1 = .error e →
    files (store.storage.removeFn p w).2 p = files w p ∨
      files w p ≠ none ∧ Ruined Opens (files (store.storage.removeFn p w).2 p)

end Bypass
