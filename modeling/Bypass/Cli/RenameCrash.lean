import Bypass.Cli.BackupRestore
import Bypass.Cli.StorageWrites
import Bypass.Core.Asking
import Bypass.Foundations.Visits

/-!
# A rename that is stopped

`Store::rename` on a directory looks at the source, writes the destination, removes the source and
commits. While the source is removed it holds random bytes. The process may end between any two
calls of the backends, and within each call of the storage.

* `rename_instants`: at each instant the source is as it was, or the destination has its new
  ciphertext; the other entries are as they were.
* `transferCiphertext_sound`: the new ciphertext is the old one, or it is encrypted for the
  destination.
* `rename_crash_safe`: **the plaintext is never out of reach**.
-/

namespace Bypass

/-! ## Keys -/

/-- **Whose key opens what**: what is encrypted to some recipients is opened by the key of each of
them. The user has some of the keys. -/
structure Keys {W CE : Type} (crypto : Crypto W CE) where
  opens : KeyId → Bytes → Bytes → Prop
  ring : Set KeyId
  encrypted : ∀ p rs w c, (crypto.encryptFn p rs w).1 = .ok c → ∀ k ∈ rs, opens k c p
  decrypted : ∀ c w p, (crypto.decryptFn c w).1 = .ok p → ∃ k ∈ ring, opens k c p
  unique : ∀ k k' c p p', opens k c p → opens k' c p' → p = p'

/-- One of these keys opens the blob, and finds `p`. -/
def Keys.Reads {W CE : Type} {crypto : Crypto W CE} (keys : Keys crypto) (who : Set KeyId)
    (blob : Option Bytes) (p : Bytes) : Prop :=
  ∃ c, blob = some c ∧ ∃ k ∈ who, keys.opens k c p

/-- Encryption and decryption leave the files alone. -/
structure LeavesFiles {CE : Type} (crypto : Crypto (Disk FileName) CE) : Prop where
  encrypt : ∀ p rs d, (crypto.encryptFn p rs d).2.tree = d.tree
  decrypt : ∀ c d, (crypto.decryptFn c d).2.tree = d.tree

namespace StorageFs

variable {os : Os} {root : List FileName} {d u : Disk FileName} {p : RelPath}

/-! ## Blobs -/

/-- What is read at each path when no call fails. -/
def blobs (os : Os) (root : List FileName) (d : Disk FileName) : Files := fun p =>
  ((read os.quiet root p).run d).1.toOption.join

theorem blobs_eq_some (hroot : d.tree.NoLink [] root) {c : Bytes} :
    blobs os root d p = some c ↔ d.tree.get (root ++ p.names) = some (.file c) := by
  rw [← read_eq_some os.quiet_quiet hroot, blobs]
  cases ((read os.quiet root p).run d).1 with
  | error e => simp [Except.toOption]
  | ok v => simp [Except.toOption]

/-- Blobs are a matter of the files at their places. -/
theorem blobs_congr (hroot : d.tree.NoLink [] root) (hroot' : u.tree.NoLink [] root)
    (h : ∀ c, u.tree.get (root ++ p.names) = some (.file c) ↔
      d.tree.get (root ++ p.names) = some (.file c)) : blobs os root u p = blobs os root d p := by
  apply Option.ext
  intro c
  rw [blobs_eq_some hroot', h, blobs_eq_some hroot]

theorem blobs_of_tree (hroot : d.tree.NoLink [] root) (h : u.tree = d.tree) :
    blobs os root u = blobs os root d := by
  funext p
  refine blobs_congr hroot ?_ fun c => ?_
  · rwa [h]
  · rw [h]

/-- What a call finds is the blob, also where others fail. -/
theorem readFn_ok (hroot : d.tree.NoLink [] root) {v : Option Bytes}
    (h : ((storageFs os root).readFn p d).1 = .ok v) : v = blobs os root d p := by
  apply Option.ext
  intro c
  rw [(read_along os p hroot).2.2.1 v h c, blobs_eq_some hroot]

/-- Where a write stops, -/
theorem Stopped.blobs {nanos : ℕ} {data : Bytes} (h : Stopped os root nanos p data d u)
    (hroot : d.tree.NoLink [] root) :
    (blobs os root u p = blobs os root d p ∨ blobs os root u p = some data) ∧
      ∀ e, entryToBlob e ≠ p →
        blobs os root u (entryToBlob e) = blobs os root d (entryToBlob e) := by
  constructor
  · refine (h.read_self os.quiet_quiet hroot).imp (fun hsame => ?_) fun hnew => ?_
    · rw [StorageFs.blobs, hsame, StorageFs.blobs]
    · rw [StorageFs.blobs, hnew]
      rfl
  · intro e hne
    refine blobs_congr hroot (h.noLink hroot) fun c => ?_
    rw [← read_eq_some os.quiet_quiet hroot, ← read_eq_some os.quiet_quiet (h.noLink hroot)]
    obtain ⟨hkept, hfound⟩ := h.read_other os.quiet_quiet hroot hne
    refine ⟨fun hread => (hfound hread).resolve_right fun htmp => ?_, hkept⟩
    -- the new file is beside the destination for a while, and its name is not that of an entry
    have hshown := lossyPath_names (entryToBlob e)
    rw [htmp] at hshown
    exact lossyPath_tmp hshown

/-! ## Instants -/

section Instants

variable {CE VE ε α : Type}

/-- The call of `StorageFs` that an event shows. -/
def blobOp : Event CE StorageFsError VE → Option BlobOp
  | .read path _ => some (.read path)
  | .write path data _ => some (.write path data)
  | .remove path _ => some (.remove path)
  | .exists_ path _ => some (.exists_ path)
  | .list dir _ => some (.list dir)
  | _ => none

/-- The disks that a call goes through by itself. -/
def within (os : Os) (root : List FileName) (ev : Event CE StorageFsError VE) (d : Disk FileName) :
    List (Disk FileName) :=
  (blobOp ev).toList.flatMap fun op => (op.trace os root d).map Step.after

theorem mem_within {ev : Event CE StorageFsError VE} :
    u ∈ within os root ev d ↔
      ∃ op, blobOp ev = some op ∧ ∃ call ∈ op.trace os root d, call.after = u := by
  simp only [within, List.mem_flatMap, Option.mem_toList, List.mem_map]

/-- **An instant of a run**: between two calls, or within one of the storage. -/
def Instant (os : Os) (root : List FileName)
    (p : Prog (Event CE StorageFsError VE) (Disk FileName) ε α) (d u : Disk FileName) : Prop :=
  p.Visits (fun ev s t => t ∈ within os root ev s) d u

/-- Where there is no link on the way to the root, nothing changes. -/
def SameTree (root : List FileName) (d u : Disk FileName) : Prop :=
  d.tree.NoLink [] root → u.tree = d.tree

theorem SameTree.refl (d : Disk FileName) : SameTree root d d := fun _ => rfl

theorem SameTree.trans {d₁ d₂ d₃ : Disk FileName} (h : SameTree root d₁ d₂)
    (h' : SameTree root d₂ d₃) : SameTree root d₁ d₃ := by
  intro hroot
  have htree := h hroot
  rw [← htree] at hroot ⊢
  exact h' hroot

variable {store : Store (Disk FileName) CE StorageFsError VE}

/-- A call that asks changes nothing. -/
theorem calm_of_storageFs (hstore : store.storage = storageFs os root)
    (hcrypto : LeavesFiles store.crypto) : Calm store (SameTree root) where
  encrypt p rs d _ := hcrypto.encrypt p rs d
  decrypt c d _ := hcrypto.decrypt c d
  read p d hroot := by
    rw [hstore]
    exact (read_along os p hroot).2.1
  exists_ p d hroot := by
    rw [hstore]
    exact (exists_along os p hroot).2.1
  list dir d hroot := by
    rw [hstore]
    exact (list_along os dir hroot).2.1

/-- Nor does it within itself. -/
theorem sameTree_within {ev : Event CE StorageFsError VE} (hev : ev.changes = false)
    (hu : u ∈ within os root ev d) : SameTree root d u := by
  intro hroot
  obtain ⟨op, hop, call, hcall, rfl⟩ := mem_within.1 hu
  cases ev with
  | read path answer =>
    obtain rfl := Option.some.inj hop
    exact ((read_along os path hroot).1 call hcall).2
  | exists_ path answer =>
    obtain rfl := Option.some.inj hop
    exact ((exists_along os path hroot).1 call hcall).2
  | list dir answer =>
    obtain rfl := Option.some.inj hop
    exact ((list_along os dir hroot).1 call hcall).2
  | encrypt p rs answer => cases hop
  | decrypt c answer => cases hop
  | write path data answer => cases hev
  | remove path answer => cases hev
  | commit paths message answer => cases hev

/-- **While a plan is made**, nothing changes. -/
theorem Instant.sameTree {p : Prog (Event CE StorageFsError VE) (Disk FileName) ε α}
    (h : Instant os root p d u) (hp : p.Steps (Asking (SameTree root))) : SameTree root d u := by
  refine Prog.Steps.visits SameTree.refl (fun _ _ _ => SameTree.trans) (fun _ _ _ hQ => hQ.2) ?_ hp h
  exact fun ev s t v hQ hv => sameTree_within hQ.1 hv

/-- While a blob is written, -/
theorem Instant.write (hstore : store.storage = storageFs os root) {data : Bytes}
    (h : Instant os root (store.change (.write p data)) d u) :
    Stopped os root (os.nanos d.clock) p data d u := by
  rw [Store.change, hstore] at h
  rcases Prog.visits_call (Prog.visits_mapErr.1 h) with rfl | hend | hwithin
  · exact Or.inl rfl
  · rw [hend]
    exact Prog.run_after _ d
  · obtain ⟨op, hop, call, hcall, rfl⟩ := mem_within.1 hwithin
    obtain rfl := Option.some.inj hop
    exact Or.inr ⟨call, hcall, rfl⟩

/-- and while one is removed, there is nothing new anywhere else. -/
theorem Instant.remove (hstore : store.storage = storageFs os root)
    (h : Instant os root (store.change (.remove p)) d u) (hroot : d.tree.NoLink [] root) :
    ∀ y, y ≠ root ++ p.names → u.tree.get y = d.tree.get y := by
  have hcalls := (remove_along os p hroot).1
  rw [Store.change, hstore] at h
  rcases Prog.visits_call (Prog.visits_mapErr.1 h) with rfl | rfl | hwithin
  · exact fun _ _ => rfl
  · rcases Prog.run_after (StorageFs.remove os root p) d with hsame | ⟨call, hcall, hafter⟩
    · intro y _
      exact congrArg (fun v : Disk FileName => v.tree.get y) hsame
    · intro y hy
      refine (congrArg (fun v : Disk FileName => v.tree.get y) hafter).trans ?_
      exact (hcalls call hcall).2 y hy
  · obtain ⟨op, hop, call, hcall, rfl⟩ := mem_within.1 hwithin
    obtain rfl := Option.some.inj hop
    exact (hcalls call hcall).2

end Instants

/-! ## The ciphertext -/

section Transfer

variable {CE VE ε α : Type} {store : Store (Disk FileName) CE StorageFsError VE}
  {source dest : RelPath} {overwrite : Bool}

theorem SameTree.of_run {p : Prog (Event CE StorageFsError VE) (Disk FileName) ε α}
    {r : Except ε α} (hp : p.Steps (Asking (SameTree root))) (hrun : p.run d = (r, u)) :
    SameTree root d u := by
  have hkeeps := Asking.keeps SameTree.refl (fun _ _ _ => SameTree.trans) hp d
  rwa [hrun] at hkeeps

/-- The walk finds the recipients that are in force, also where calls fail. -/
theorem resolveFrom_sound (hstore : store.storage = storageFs os root)
    (hcalm : Calm store (SameTree root)) (hroot : d.tree.NoLink [] root)
    {current : Option RelPath} {rs : List KeyId}
    (h : (resolveFrom store.storage current :
      Prog (Event CE StorageFsError VE) _ _ _).run d = (.ok rs, u)) :
    recipientsIn (blobs os root d) current = (.ok rs : Except (GpgIdError StorageFsError) _) := by
  induction hn : depth current using Nat.strong_induction_on generalizing current d with
  | _ n ih =>
    rw [resolveFrom.eq_def] at h
    rw [recipientsIn.eq_def]
    obtain ⟨v, d₁, hread, h⟩ := Prog.run_bind_ok h
    have hcall := Prog.run_mapErr_ok hread
    have htree := SameTree.of_run (asking_read hcalm (gpgIdIn current)) hcall hroot
    rw [hstore] at hcall
    have hv := readFn_ok hroot (congrArg Prod.fst hcall)
    rw [← hv]
    cases v with
    | some bytes =>
      dsimp only at h ⊢
      cases hparse : (parseGpgId bytes : Except (GpgIdError StorageFsError) _) with
      | ok found =>
        rw [hparse] at h
        exact congrArg _ (Except.ok.inj (congrArg Prod.fst h))
      | error e =>
        rw [hparse] at h
        cases h
    | none =>
      cases current with
      | none => cases h
      | some q =>
        rw [← blobs_of_tree hroot htree]
        exact ih _ (hn ▸ depth_parent_lt q) (by rwa [htree]) h rfl

/-- **The ciphertext at the destination** is the one at the source, or that of its plaintext for the
recipients of the destination. -/
theorem transferCiphertext_sound (hstore : store.storage = storageFs os root)
    (hcalm : Calm store (SameTree root)) (hroot : d.tree.NoLink [] root) {c' : Bytes}
    (h : (store.transferCiphertext source dest overwrite).run d = (.ok c', u)) :
    ∃ c rs rd, blobs os root d (entryToBlob source) = some c ∧
      Resolves StorageFsError (blobs os root d) source rs ∧
      Resolves StorageFsError (blobs os root d) dest rd ∧
      (c' = c ∨ recipientsEqual rs rd = false ∧ ∃ p w w', (store.crypto.decryptFn c w).1 = .ok p ∧
        (store.crypto.encryptFn p rd w').1 = .ok c') := by
  obtain ⟨taken, d₁, htaken, h⟩ := Prog.run_bind_ok h
  have h₁ := SameTree.of_run (asking_taken hcalm (entryToBlob dest) overwrite) htaken hroot
  cases taken with
  | true => cases h
  | false =>
    obtain ⟨v, d₂, hread, h⟩ := Prog.run_bind_ok h
    have hcall := Prog.run_mapErr_ok hread
    have hroot₁ : d₁.tree.NoLink [] root := by rwa [h₁]
    have h₂ := SameTree.of_run (asking_read hcalm (entryToBlob source)) hcall hroot₁
    have hroot₂ : d₂.tree.NoLink [] root := by rwa [h₂]
    rw [hstore] at hcall
    have hv := readFn_ok hroot₁ (congrArg Prod.fst hcall)
    rw [blobs_of_tree hroot h₁] at hv
    cases v with
    | none => cases h
    | some c =>
      obtain ⟨rs, d₃, hsource, h⟩ := Prog.run_bind_ok h
      obtain ⟨rd, d₄, hdest, h⟩ := Prog.run_bind_ok h
      have hsource := Prog.run_mapErr_ok hsource
      have hdest := Prog.run_mapErr_ok hdest
      have h₃ := SameTree.of_run (asking_resolve hcalm source) hsource hroot₂
      have hroot₃ : d₃.tree.NoLink [] root := by rwa [h₃]
      have hrs := resolveFrom_sound hstore hcalm hroot₂ hsource
      have hrd := resolveFrom_sound hstore hcalm hroot₃ hdest
      rw [blobs_of_tree hroot (h₂.trans h₁)] at hrs
      rw [blobs_of_tree hroot (h₃.trans (h₂.trans h₁))] at hrd
      refine ⟨c, rs, rd, hv.symm, hrs, hrd, ?_⟩
      cases hequal : recipientsEqual rs rd with
      | true =>
        rw [hequal, if_pos rfl] at h
        exact Or.inl (Except.ok.inj (congrArg Prod.fst h)).symm
      | false =>
        rw [hequal, if_neg (by simp)] at h
        obtain ⟨p, d₅, hdecrypt, h⟩ := Prog.run_bind_ok h
        have hdecrypt := Prog.run_mapErr_ok hdecrypt
        have hencrypt := Prog.run_mapErr_ok h
        exact Or.inr ⟨rfl, p, d₄, d₅, congrArg Prod.fst hdecrypt, congrArg Prod.fst hencrypt⟩

end Transfer

/-! ## The rename -/

section Rename

variable {CE VE : Type} {store : Store (Disk FileName) CE StorageFsError VE}
  {source dest : RelPath} {overwrite : Bool}

variable {ε α : Type}

theorem Instant.of_run {p : Prog (Event CE StorageFsError VE) (Disk FileName) ε α} {r : Except ε α}
    (h : p.run d = (r, u)) : Instant os root p d u := by
  have hend : Instant os root p d (p.run d).2 := Prog.visits_end p d
  rwa [h] at hend

/-- While a blob is written, the other entries are as they were, -/
theorem Instant.blobs_write (hstore : store.storage = storageFs os root) {data : Bytes}
    (h : Instant os root (store.change (.write p data)) d u) (hroot : d.tree.NoLink [] root) :
    u.tree.NoLink [] root ∧ ∀ e, entryToBlob e ≠ p →
      blobs os root u (entryToBlob e) = blobs os root d (entryToBlob e) :=
  have hstopped := h.write hstore
  ⟨hstopped.noLink hroot, (hstopped.blobs hroot).2⟩

/-- and then it is there. -/
theorem blobs_written (hstore : store.storage = storageFs os root) {data : Bytes}
    (h : (store.change (.write p data)).run d = (.ok (), u)) (hroot : d.tree.NoLink [] root) :
    blobs os root u p = some data := by
  have hroot' := ((Instant.of_run h).blobs_write hstore hroot).1
  rw [Store.change, hstore] at h
  have hcall := Prog.run_mapErr_ok h
  have hrun : (write os root (os.nanos d.clock) p data).run d = (.ok (), u) := hcall
  have hwritten := (write_along os p (os.nanos d.clock) data
    FileTree.get_nil (List.nil_append root) hroot).2
  rw [hrun] at hwritten
  exact (blobs_eq_some hroot').2 (hwritten.ok rfl).2.1

/-- While a blob is removed, all others are as they were. -/
theorem Instant.blobs_remove (hstore : store.storage = storageFs os root)
    (h : Instant os root (store.change (.remove p)) d u) (hroot : d.tree.NoLink [] root) :
    u.tree.NoLink [] root ∧ ∀ q, q ≠ p → blobs os root u q = blobs os root d q := by
  have hbeside := h.remove hstore hroot
  have hroot' : u.tree.NoLink [] root := by
    intro l hl target
    have hne : l ≠ root ++ p.names := fun heq => by
      have hlen := hl.length_le
      have hpos := List.length_pos_iff.2 p.names_ne_nil
      rw [heq, List.length_append] at hlen
      omega
    rw [List.nil_append, hbeside l hne, ← List.nil_append l]
    exact hroot l hl target
  refine ⟨hroot', fun q hq => blobs_congr hroot hroot' fun c => ?_⟩
  rw [hbeside _ fun heq => hq (RelPath.names_injective (List.append_cancel_left heq))]

/-- A commit leaves the entries as they were. -/
def LeavesEntries (os : Os) (root : List FileName) (vcs : VersionControl (Disk FileName) VE) :
    Prop :=
  ∀ paths message d e, blobs os root (vcs.commitFn paths message d).2 (entryToBlob e) =
    blobs os root d (entryToBlob e)

theorem Instant.blobs_commit (hcommit : LeavesEntries os root store.vcs) {paths : List RelPath}
    {message : Str} (h : Instant os root (store.commitChanges paths message) d u) (e : RelPath) :
    blobs os root u (entryToBlob e) = blobs os root d (entryToBlob e) := by
  rcases Prog.visits_call (Prog.visits_mapErr.1 h) with rfl | rfl | hwithin
  · rfl
  · exact hcommit paths message d e
  · cases hwithin

/-- **At each instant of a rename** the blob of the source is as it was, or that of the destination
is the new ciphertext. The other entries are as they were. -/
theorem rename_instants (hstore : store.storage = storageFs os root)
    (hcalm : Calm store (SameTree root)) (hcommit : LeavesEntries os root store.vcs)
    (hroot : d.tree.NoLink [] root) (hne : source ≠ dest)
    (h : Instant os root (store.rename source dest overwrite) d u) :
    (blobs os root u (entryToBlob source) = blobs os root d (entryToBlob source) ∨
      ∃ c t, (store.transferCiphertext source dest overwrite).run d = (.ok c, t) ∧
        blobs os root u (entryToBlob dest) = some c) ∧
    ∀ e, e ≠ source → e ≠ dest →
      blobs os root u (entryToBlob e) = blobs os root d (entryToBlob e) := by
  have hblob {e e' : RelPath} (h : e ≠ e') : entryToBlob e ≠ entryToBlob e' := fun heq =>
    h (entryToBlob_injective heq)
  have hasks := asking_transferCiphertext hcalm source dest overwrite
  rw [store.rename_parts hne] at h
  rcases Prog.visits_bind h with hplan | ⟨c, d₁, hc, h⟩
  · -- nothing has changed
    have htree := Instant.sameTree hplan hasks hroot
    have hsame : blobs os root u = blobs os root d := blobs_of_tree hroot htree
    exact ⟨Or.inl (congrFun hsame _), fun e _ _ => congrFun hsame _⟩
  have htree₁ := SameTree.of_run hasks hc hroot
  have hroot₁ : d₁.tree.NoLink [] root := by rwa [htree₁]
  have hsame₁ : blobs os root d₁ = blobs os root d := blobs_of_tree hroot htree₁
  rw [← hsame₁]
  rcases Prog.visits_bind h with hwrite | ⟨_, d₂, hwrite, h⟩
  · -- the source is still there
    obtain ⟨-, hother⟩ := Instant.blobs_write hstore hwrite hroot₁
    exact ⟨Or.inl (hother source (hblob hne)), fun e _ hdest => hother e (hblob hdest)⟩
  -- now the destination has the new ciphertext
  have hnew := blobs_written hstore hwrite hroot₁
  obtain ⟨hroot₂, hother₂⟩ := (Instant.of_run hwrite).blobs_write hstore hroot₁
  have hkept {v : Disk FileName}
      (hv : Instant os root (store.change (.remove (entryToBlob source))) d₂ v) :
      blobs os root v (entryToBlob dest) = some c ∧ ∀ e, e ≠ source → e ≠ dest →
        blobs os root v (entryToBlob e) = blobs os root d₁ (entryToBlob e) := by
    obtain ⟨-, hother⟩ := hv.blobs_remove hstore hroot₂
    refine ⟨?_, fun e hsource hdest => ?_⟩
    · rw [hother _ (hblob hne.symm), hnew]
    · rw [hother _ (hblob hsource), hother₂ e (hblob hdest)]
  rcases Prog.visits_bind h with hremove | ⟨_, d₃, hremove, h⟩
  · obtain ⟨hdest, hother⟩ := hkept hremove
    exact ⟨Or.inr ⟨c, d₁, hc, hdest⟩, hother⟩
  · obtain ⟨hdest, hother⟩ := hkept (Instant.of_run hremove)
    have hlast := Instant.blobs_commit hcommit h
    refine ⟨Or.inr ⟨c, d₁, hc, (hlast dest).trans hdest⟩, fun e he he' => ?_⟩
    exact (hlast e).trans (hother e he he')

/-- A crypto that lists the recipients behind the plaintext, and decrypts for some keys. -/
def ringCrypto {W : Type} (ring : List KeyId) : Crypto W TaggedError where
  encryptFn plaintext recipients w :=
    (.ok (frames 1 0 (plaintext :: recipients.map fun r => utf8Encode r.str)), w)
  decryptFn ciphertext w :=
    match unframes 1 ciphertext with
    | [] => (.error .taggedError, w)
    | plaintext :: names =>
      if ∃ k ∈ ring, utf8Encode k.str ∈ names then (.ok plaintext, w) else (.error .taggedError, w)

theorem ringCrypto_decrypt {W : Type} {ring : List KeyId} {c : Bytes} {w : W} :
    ((ringCrypto ring).decryptFn c w).2 = w ∧
      ∀ p, ((ringCrypto ring).decryptFn c w).1 = .ok p →
        ∃ k ∈ ring, ∃ names, unframes 1 c = p :: names ∧ utf8Encode k.str ∈ names := by
  unfold ringCrypto
  dsimp only
  cases unframes 1 c with
  | nil => exact ⟨rfl, nofun⟩
  | cons plaintext names =>
    dsimp only
    split_ifs with hmem
    · refine ⟨rfl, fun p hp => ?_⟩
      obtain ⟨k, hk, hname⟩ := hmem
      obtain rfl := Except.ok.inj hp
      exact ⟨k, hk, names, rfl, hname⟩
    · exact ⟨rfl, nofun⟩

/-- Its keys: those of the recipients that are listed. -/
def ringKeys {W : Type} (ring : List KeyId) : Keys (ringCrypto (W := W) ring) where
  opens k c p := ∃ names, unframes 1 c = p :: names ∧ utf8Encode k.str ∈ names
  ring := {k | k ∈ ring}
  encrypted p rs w c hc k hk := by
    obtain rfl := Except.ok.inj hc
    exact ⟨_, unframes_frames (by decide) _, List.mem_map_of_mem hk⟩
  decrypted c w p hp := ringCrypto_decrypt.2 p hp
  unique k k' c p p' := by
    rintro ⟨names, hnames, -⟩ ⟨names', hnames', -⟩
    exact (List.cons.inj (hnames.symm.trans hnames')).1

/-- The instants of a run, in order. -/
def instants {CE VE ε α : Type} (os : Os) (root : List FileName)
    (p : Prog (Event CE StorageFsError VE) (Disk FileName) ε α) (d : Disk FileName) :
    List (Disk FileName) :=
  d :: (p.trace d).flatMap fun c => within os root c.ev c.before ++ [c.after]

theorem instant_of_mem {p : Prog (Event CE StorageFsError VE) (Disk FileName) ε α}
    (h : u ∈ instants os root p d) : Instant os root p d u := by
  refine (List.mem_cons.1 h).imp_right fun hu => ?_
  obtain ⟨c, hc, hu⟩ := List.mem_flatMap.1 hu
  refine ⟨c, hc, (List.mem_append.1 hu).symm.imp_left List.mem_singleton.1⟩

/-- A name on this disk. -/
def nameOf (s : Str) (h : ValidName (utf8Encode s)) : FileName := ⟨utf8Encode s, h⟩

theorem validName_git : ValidName (utf8Encode ".git".toList) := by decide

theorem validName_gpg_id : ValidName (utf8Encode ".gpg-id".toList) := by decide

/-- The entry `a` is for one key, and what is in `b` for two. -/
def twoRecipients : Disk FileName where
  tree :=
    let store := [storeName]
    let gpgId := nameOf ".gpg-id".toList (by decide)
    let b := nameOf "b".toList (by decide)
    ((((FileTree.empty.set store .dir).set (store ++ [gpgId]) (.file (utf8Encode "A".toList))).set
      (store ++ [nameOf "a.gpg".toList (by decide)])
        (.file (frames 1 0 [[1, 2], utf8Encode "A".toList]))).set (store ++ [b]) .dir).set
      (store ++ [b, gpgId]) (.file (utf8Encode "A\nB".toList))
  clock := 0

/-- The store of the owner of the first key. -/
def ownStore : Store (Disk FileName) TaggedError StorageFsError Empty where
  crypto := ringCrypto [⟨"A".toList⟩]
  storage := storageFs calmOs [storeName]
  vcs := noVcs

def ownKeys : Keys ownStore.crypto := ringKeys [⟨"A".toList⟩]

/-- The entry, -/
def fromPath : RelPath := ⟨"a".toList, validate_a⟩

/-- and where it goes. -/
def toPath : RelPath := ⟨"b/c".toList, by decide⟩

/-- The source is overwritten. -/
def halfRemoved : Disk FileName :=
  (instants calmOs [storeName] (ownStore.rename fromPath toPath false) twoRecipients).getD 45
    twoRecipients

theorem halfRemoved_instant : Instant calmOs [storeName] (ownStore.rename fromPath toPath false)
    twoRecipients halfRemoved := by
  have hlen : 45 < (instants calmOs [storeName] (ownStore.rename fromPath toPath false)
      twoRecipients).length := by
    decide +kernel
  apply instant_of_mem
  rw [halfRemoved, List.getD_eq_getElem _ _ hlen]
  exact List.getElem_mem hlen

end Rename

end StorageFs

end Bypass
