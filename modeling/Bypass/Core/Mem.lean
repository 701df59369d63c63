import Bypass.Core.StorePlan

/-!
# Backends in memory

The backends that the source's own tests run the store on: a map of files, a reversible crypto
that writes the recipients into the head of the ciphertext, and no version control. They satisfy
the promises of `Backend`, so the promises can be kept.
-/

namespace Bypass

/-- The files of `MemStorage`. -/
abbrev MemFiles := Std.ExtTreeMap RelPath Bytes compare

/-- `MemStorage`: no call fails. -/
def memStorage : Storage MemFiles Empty where
  readFn path w := (.ok w[path]?, w)
  writeFn path data w := (.ok (), w.insert path data)
  removeFn path w := (.ok (), w.erase path)
  existsFn path w := (.ok (w.contains path), w)
  listFn dir w := (.ok (w.keys.filter fun q => dir.all fun p => decide (p.Below q)), w)

/-- The error of a ciphertext without a header. -/
inductive TaggedError where
  | taggedError
  deriving DecidableEq

/-- The header: a mark before each byte of a recipient, and one at the end. -/
def tagHeader (recipients : List KeyId) : Bytes :=
  (recipients.flatMap fun r => utf8Encode r.str).flatMap (fun b => [1, b]) ++ [0]

/-- What follows the header. -/
def afterHeader : Bytes → Option Bytes
  | 0 :: body => some body
  | 1 :: _ :: rest => afterHeader rest
  | _ => none

theorem afterHeader_append (bytes body : Bytes) :
    afterHeader (bytes.flatMap (fun b => [1, b]) ++ [0] ++ body) = some body := by
  induction bytes with
  | nil => rfl
  | cons b bs ih =>
    simp only [List.flatMap_cons, List.cons_append, List.nil_append, afterHeader]
    exact ih

/-- `TaggedCrypto`: reversible, with the recipients in the header. -/
def taggedCrypto {W : Type} : Crypto W TaggedError where
  encryptFn plaintext recipients w :=
    (.ok (tagHeader recipients ++ plaintext.map (· ^^^ 0xAA)), w)
  decryptFn ciphertext w :=
    match afterHeader ciphertext with
    | none => (.error .taggedError, w)
    | some body => (.ok (body.map (· ^^^ 0xAA)), w)

theorem taggedCrypto_keeps {W : Type} (d : Bytes) (w : W) : (taggedCrypto.decryptFn d w).2 = w := by
  unfold taggedCrypto
  dsimp only
  split <;> rfl

/-- `NoVcs`. -/
def noVcs {W : Type} : VersionControl W Empty where
  commitFn _ _ w := (.ok (), w)

/-- The store of the tests. -/
def memStore : Store MemFiles TaggedError Empty Empty where
  crypto := taggedCrypto
  storage := memStorage
  vcs := noVcs

/-- The files of a storage in memory. -/
def memFiles (w : MemFiles) : Files := fun p => w[p]?

theorem memFiles_insert (w : MemFiles) (p : RelPath) (d : Bytes) :
    memFiles (w.insert p d) = Function.update (memFiles w) p (some d) := funext fun q => by
  rw [memFiles, Std.ExtTreeMap.getElem?_insert, Function.update_apply]
  simp only [Std.LawfulEqOrd.compare_eq_iff_eq, memFiles, @eq_comm _ p q]

theorem memFiles_erase (w : MemFiles) (p : RelPath) :
    memFiles (w.erase p) = Function.update (memFiles w) p none := funext fun q => by
  rw [memFiles, Std.ExtTreeMap.getElem?_erase, Function.update_apply]
  simp only [Std.LawfulEqOrd.compare_eq_iff_eq, memFiles, @eq_comm _ p q]

/-- **The storage in memory is a map.** -/
theorem memStore_onMap : OnMap memStore memFiles where
  encrypt_files _ _ _ := rfl
  decrypt_files c w := congrArg memFiles (taggedCrypto_keeps c w)
  read_files _ _ := rfl
  read_ok p w v hv := (Except.ok.inj hv).symm
  write_frame p d w q hq := by
    rw [show memFiles (memStore.storage.writeFn p d w).2 = memFiles (w.insert p d) from rfl,
      memFiles_insert, Function.update_of_ne hq]
  write_ok p d w _ := memFiles_insert w p d
  remove_frame p w q hq := by
    rw [show memFiles (memStore.storage.removeFn p w).2 = memFiles (w.erase p) from rfl,
      memFiles_erase, Function.update_of_ne hq]
  remove_ok p w _ := memFiles_erase w p
  exists_files _ _ := rfl
  exists_ok p w b hb := by
    rw [← Except.ok.inj hb, Std.ExtTreeMap.contains_eq_isSome_getElem?]
    rfl
  list_files _ _ := rfl
  list_nodup d w l hl := by
    rw [← Except.ok.inj hl]
    exact w.nodup_keys.filter _
  mem_list d w l hl q := by
    rw [← Except.ok.inj hl, List.mem_filter, Std.ExtTreeMap.mem_keys,
      ← Std.ExtTreeMap.contains_iff_mem, Std.ExtTreeMap.contains_eq_isSome_getElem?]
    cases d <;> simp [memFiles]
  commit_files _ _ _ := rfl

/-- **`TaggedCrypto` decrypts what it encrypted.** -/
theorem taggedCrypto_opens {W : Type} (recipients : List KeyId) (plaintext : Bytes) (w : W) :
    taggedCrypto.decryptFn (tagHeader recipients ++ plaintext.map (· ^^^ 0xAA)) w =
      (.ok plaintext, w) := by
  have hopen : afterHeader (tagHeader recipients ++ plaintext.map (· ^^^ 0xAA)) =
      some (plaintext.map (· ^^^ 0xAA)) := afterHeader_append _ _
  have hxor : ((· ^^^ 0xAA) ∘ (· ^^^ 0xAA) : UInt8 → UInt8) = id := funext fun b => by
    simp [Function.comp]
  simp only [taggedCrypto, hopen, List.map_map, hxor, List.map_id]

theorem memStore_roundTrip : RoundTrip memStore := by
  intro p rs w c hc w' q hq
  obtain rfl : tagHeader rs ++ p.map (· ^^^ 0xAA) = c := Except.ok.inj hc
  have hdec := congrArg Prod.fst (taggedCrypto_opens rs p w')
  exact Except.ok.inj (hq.symm.trans hdec)

end Bypass
