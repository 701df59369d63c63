import Bypass.Cli.BackupRestore
import Bypass.Core.Asking

/-!
# Rotation of keys

`bypass restore --in-place` writes the entries of a bundle over those of the store, each encrypted
for the recipients that are in force now. The entries that the bundle does not have stay as they
are.

* `restore_ok`: the stages of a restore that succeeds.
* `visits_ok`: what its loop has written.
* **`rotation_complete_iff`**: when every entry of the store is encrypted to its recipients
  afterwards.
-/

namespace Bypass

open Prog

variable {W CE SE VE B IE TE : Type} {store : Store W CE SE VE} {files : W → Files}
  {tar : Tar B IE} {toml : Toml TE} {stream : DecryptStream W CE}

/-! ## The stages of a restore -/

/-- What the loop of `restore::run` does with an entry of the bundle. -/
def restoreEntry (store : Store W CE SE VE) (entry : BundleEntry) :
    BundleM (Event CE SE VE) W IE TE (StoreError CE SE VE) RelPath :=
  (store.insertNoCommit entry.path entry.plaintext).mapErr .source

/-- The entries that a restore of this archive visits. -/
def restoredEntries (_ : Store W CE SE VE) (tar : Tar B IE) (toml : Toml TE) (plain : Bytes) :
    List BundleEntry :=
  (bundleReading tar toml plain : _ × Except (BundleError IE TE (StoreError CE SE VE)) Manifest).1

theorem run_orThrow_ok {ℓ ε δ α : Type} {f : ε → δ} {x : Except ε α} {a : α} {s t : W}
    (h : (orThrow f x : Prog ℓ W δ α).run s = (.ok a, t)) : x = .ok a ∧ t = s := by
  cases x with
  | error e => cases h
  | ok b =>
    obtain ⟨hb, rfl⟩ := Prod.mk.inj h
    exact ⟨congrArg Except.ok (Except.ok.inj hb), rfl⟩

section Stages

variable {R : W → W → Prop} (hrefl : ∀ s, R s s) (htrans : ∀ s t u, R s t → R t u → R s u)
  (hcalm : Calm store R)

include hcalm in
/-- The guard of a restore only asks. -/
theorem asking_restoreGuard {dirty : Prog (Event CE SE VE) W Empty Bool}
    (hdirty : dirty.Steps (Asking R)) (inPlace : Bool) :
    (restoreGuard store dirty inPlace :
      Prog (Event CE SE VE) W (RestoreError CE SE VE IE TE) Unit).Steps (Asking R) := by
  unfold restoreGuard
  cases inPlace with
  | true =>
    refine hdirty.mapErr.bind fun isDirty => ?_
    cases isDirty with
    | true => exact steps_throw _
    | false => exact steps_pure _
  | false =>
    refine (asking_list hcalm none).mapErr.bind fun existing => ?_
    split
    · exact steps_pure _
    · exact steps_throw _

include hrefl htrans hcalm in
/-- **The stages of a restore that succeeds**: before its loop it only asks. -/
theorem restore_ok {dirty : Prog (Event CE SE VE) W Empty Bool} (hdirty : dirty.Steps (Asking R))
    {bundle : Bytes} (hstream : ∀ w, R w (stream bundle w).2) {inPlace : Bool} {s t : W}
    {n : UInt32} (hrun : (restore store tar toml stream dirty bundle inPlace).run s = (.ok n, t)) :
    ∃ w u v plain touched, (stream bundle w).1 = (plain, .ok ()) ∧ R s u ∧
      ((restoredEntries store tar toml plain).mapM (restoreEntry store) :
        BundleM (Event CE SE VE) W IE TE (StoreError CE SE VE) _).run u = (.ok touched, v) ∧
      (commitRestored store inPlace touched :
        Prog (Event CE SE VE) W (RestoreError CE SE VE IE TE) Unit).run v = (.ok (), t) := by
  unfold restore at hrun
  obtain ⟨present, s₁, hexists, hrun⟩ := run_bind_ok hrun
  have hs₁ : R s s₁ := by
    have hkeeps := Asking.keeps hrefl htrans
      ((asking_exists hcalm gpgIdPath).attempt (δ := RestoreError CE SE VE IE TE)) s
    rwa [hexists] at hkeeps
  rcases present with e | present
  · cases hrun
  cases present with
  | false => cases hrun
  | true =>
    obtain ⟨_, s₂, hguard, hrun⟩ := run_bind_ok hrun
    have hs₂ : R s₁ s₂ := by
      have hkeeps := Asking.keeps hrefl htrans
        (asking_restoreGuard hcalm hdirty inPlace : (restoreGuard store dirty inPlace : Prog
          (Event CE SE VE) W (RestoreError CE SE VE IE TE) Unit).Steps (Asking R)) s₁
      rwa [hguard] at hkeeps
    obtain ⟨⟨plain, ended⟩, s₃, hcall, hreading⟩ := run_bind_ok hrun
    obtain ⟨hplain, rfl⟩ := Prod.mk.inj hcall
    obtain ⟨⟨manifest, touched⟩, s₄, hread, hending⟩ := run_bind_ok hreading
    have hvisiting := run_mapErr_ok hread
    rw [readBundle_eq] at hvisiting
    obtain ⟨visited, s₅, hvisits, hchecking⟩ := run_bind_ok hvisiting
    obtain ⟨_, s₆, hmanifest, hpair⟩ := run_bind_ok hchecking
    obtain ⟨hresult, rfl⟩ := Prod.mk.inj hpair
    obtain ⟨rfl, rfl⟩ := Prod.mk.inj (Except.ok.inj hresult)
    obtain ⟨_, s₇, hended, hcommitting⟩ := run_bind_ok hending
    obtain ⟨_, s₈, hcommit, hreport⟩ := run_bind_ok hcommitting
    obtain ⟨-, hs₆⟩ := run_orThrow_ok hmanifest
    obtain ⟨rfl, hs₇⟩ := run_orThrow_ok hended
    obtain ⟨-, rfl⟩ := Prod.mk.inj hreport
    rw [hs₇, hs₆] at hcommit
    exact ⟨s₂, _, s₅, plain, visited, Except.ok.inj hplain,
      htrans _ _ _ hs₁ (htrans _ _ _ hs₂ (hstream s₂)), hvisits, hcommit⟩

include hrefl htrans hcalm in
/-- The end of a restore that succeeds: it asks, and commits if there is something to commit. -/
theorem commitRestored_ok {inPlace : Bool} {touched : List RelPath} {s t : W}
    (hrun : (commitRestored store inPlace touched :
      Prog (Event CE SE VE) W (RestoreError CE SE VE IE TE) Unit).run s = (.ok (), t)) :
    ∃ u, R s u ∧ (touched = [] ∧ t = u ∨
      ∃ message, touched ≠ [] ∧ store.vcs.commitFn touched message u = (.ok (), t)) := by
  unfold commitRestored at hrun
  split_ifs at hrun with hnil
  · obtain ⟨-, rfl⟩ := Prod.mk.inj hrun
    exact ⟨s, hrefl s, .inl ⟨hnil, rfl⟩⟩
  · obtain ⟨rs, u, hresolve, hrun⟩ := run_bind_ok hrun
    have hkeeps := Asking.keeps hrefl htrans (asking_resolve hcalm dummyEntry) s
    rw [run_mapErr_ok hresolve] at hkeeps
    exact ⟨u, hkeeps, .inr ⟨_, hnil, run_mapErr_ok (run_mapErr_ok hrun)⟩⟩

end Stages

/-! ## What the loop has written -/

/-- **What the loop of a restore has written** when it has gone through: each entry of the bundle is
encrypted for its recipients, and every other file is as it was. -/
theorem visits_ok (h : OnMap store files) {entries : List BundleEntry} {touched : List RelPath}
    {s t : W} (hrun : (entries.mapM (restoreEntry store) :
      BundleM (Event CE SE VE) W IE TE (StoreError CE SE VE) _).run s = (.ok touched, t)) :
    touched = entries.map (fun b => entryToBlob b.path) ∧
      (∀ q, q ∉ touched → files t q = files s q) ∧
      ∀ b ∈ entries, ∃ c p rs w, files t (entryToBlob b.path) = some c ∧
        Resolves SE (files s) b.path rs ∧ (store.crypto.encryptFn p rs w).1 = .ok c := by
  induction entries generalizing s touched with
  | nil =>
    obtain ⟨hnil, rfl⟩ := Prod.mk.inj hrun
    obtain rfl := Except.ok.inj hnil
    exact ⟨rfl, fun _ _ => rfl, List.forall_mem_nil _⟩
  | cons b entries ih =>
    rw [List.mapM_cons] at hrun
    obtain ⟨blob, u, hfirst, hrun⟩ := run_bind_ok hrun
    obtain ⟨rest, v, hrest, hrun⟩ := run_bind_ok hrun
    obtain ⟨hcons, rfl⟩ := Prod.mk.inj hrun
    obtain rfl := Except.ok.inj hcons
    obtain ⟨rfl, c, rs, w, hu, hrs, hc⟩ := insertNoCommit_ok h (run_mapErr_ok hfirst)
    obtain ⟨rfl, hframe, hwritten⟩ := ih hrest
    -- the loop changes no recipients
    have hresolves : ∀ (e : RelPath) rs', Resolves SE (files u) e rs' → Resolves SE (files s) e rs' := by
      intro e rs' hrs'
      rw [Resolves, hu, recipientsFor_update] at hrs'
      exact hrs'
    refine ⟨rfl, fun q hq => ?_, List.forall_mem_cons.2 ⟨?_, fun b' hb' => ?_⟩⟩
    · rw [List.mem_cons, not_or] at hq
      obtain ⟨hne, hq⟩ := hq
      rw [hframe q hq, hu, Function.update_of_ne hne]
    · by_cases hagain : entryToBlob b.path ∈ entries.map fun b => entryToBlob b.path
      · obtain ⟨b', hb', hpath⟩ := List.mem_map.1 hagain
        obtain ⟨c', p', rs', w', hc', hrs', henc⟩ := hwritten b' hb'
        rw [entryToBlob_injective hpath] at hrs'
        exact ⟨c', p', rs', w', hpath ▸ hc', hresolves _ _ hrs', henc⟩
      · refine ⟨c, b.plaintext, rs, w, ?_, hrs, hc⟩
        rw [hframe _ hagain, hu, Function.update_self]
    · obtain ⟨c', p', rs', w', hc', hrs', henc⟩ := hwritten b' hb'
      exact ⟨c', p', rs', w', hc', hresolves _ _ hrs', henc⟩

/-! ## Completeness -/

/-- If the entry exists, it is encrypted to the recipients in force for it. -/
def HeldFor (SE : Type) (EncryptedTo : Bytes → List KeyId → Prop) (f : Files) (e : RelPath) :
    Prop :=
  ∀ c, f (entryToBlob e) = some c → ∃ rs, Resolves SE f e rs ∧ EncryptedTo c rs

/-- **When a rotation is complete**: the entries that the bundle does not have must have been
encrypted to their recipients already. -/
theorem rotation_complete_iff (h : OnMap store files) {EncryptedTo : Bytes → List KeyId → Prop}
    (henc : ∀ p rs w c, (store.crypto.encryptFn p rs w).1 = .ok c → EncryptedTo c rs)
    {dirty : Prog (Event CE SE VE) W Empty Bool}
    (hdirty : dirty.Steps (Asking fun s t => files t = files s)) {bundle plain : Bytes}
    (hstream : ∀ w, files (stream bundle w).2 = files w)
    (hopens : ∀ w, (stream bundle w).1.2 = .ok () → (stream bundle w).1.1 = plain) {s t : W}
    {n : UInt32} (hrun : (restore store tar toml stream dirty bundle true).run s = (.ok n, t)) :
    (∀ e, HeldFor SE EncryptedTo (files t) e) ↔
      ∀ e, (∀ b ∈ restoredEntries store tar toml plain, b.path ≠ e) →
        HeldFor SE EncryptedTo (files s) e := by
  have hrefl : ∀ s, files s = files s := fun _ => rfl
  have htrans : ∀ s t u, files t = files s → files u = files t → files u = files s :=
    fun _ _ _ hst htu => htu.trans hst
  obtain ⟨w, u, v, plain', touched, hcall, hsu, hvisits, hcommit⟩ :=
    restore_ok hrefl htrans h.calm hdirty hstream hrun
  have hplain : plain' = plain := by
    have hplain := hopens w (by rw [hcall])
    rwa [hcall] at hplain
  subst hplain
  obtain ⟨rfl, hframe, hwritten⟩ := visits_ok h hvisits
  have htv : files t = files v := by
    obtain ⟨x, hx, ⟨-, rfl⟩ | ⟨message, -, hcommitted⟩⟩ :=
      commitRestored_ok hrefl htrans h.calm hcommit
    · exact hx
    · have hkeeps := h.commit_files ((restoredEntries store tar toml plain').map fun b =>
        entryToBlob b.path) message x
      rw [hcommitted] at hkeeps
      exact hkeeps.trans hx
  -- no file of recipients has changed
  have hrecipients : ∀ e : RelPath, (recipientsFor (files t) e : Except (GpgIdError SE) _) =
      recipientsFor (files s) e := by
    intro e
    refine recipientsIn_congr (fun d => ?_) e.parent
    rw [htv, hframe _ fun hmem => ?_, hsu]
    obtain ⟨b, -, hb⟩ := List.mem_map.1 hmem
    exact gpgIdIn_ne_entryToBlob d b.path hb.symm
  have hother : ∀ e, (∀ b ∈ restoredEntries store tar toml plain', b.path ≠ e) →
      (HeldFor SE EncryptedTo (files t) e ↔ HeldFor SE EncryptedTo (files s) e) := by
    intro e he
    have hblob : files t (entryToBlob e) = files s (entryToBlob e) := by
      rw [htv, hframe _ fun hmem => ?_, hsu]
      obtain ⟨b, hb, hpath⟩ := List.mem_map.1 hmem
      exact he b hb (entryToBlob_injective hpath)
    simp only [HeldFor, Resolves, hblob, hrecipients]
  constructor
  · exact fun hall e he => (hother e he).1 (hall e)
  · intro hall e
    by_cases he : ∀ b ∈ restoredEntries store tar toml plain', b.path ≠ e
    · exact (hother e he).2 (hall e he)
    · push Not at he
      obtain ⟨b, hb, rfl⟩ := he
      obtain ⟨c, p, rs, w', hc, hrs, hcall'⟩ := hwritten b hb
      intro c' hc'
      rw [htv, hc] at hc'
      obtain rfl := Option.some.inj hc'
      refine ⟨rs, ?_, henc p rs w' c hcall'⟩
      rw [Resolves, hrecipients, ← hsu]
      exact hrs

/-! ## An entry added after the backup -/

/-- The store of the saved bundle, with an entry added since, and with other recipients. -/
def rekeyedStore : MemFiles :=
  (memStore.runOps (savedOps ++ [.insert ⟨"c".toList, validate_c⟩ [2] false]) memFresh).2.insert
    gpgIdPath (utf8Encode "BOB\n".toList)

/-- The rotation of that store with the saved bundle. -/
def rekey : Except (RestoreError TaggedError Empty Empty Empty Empty) UInt32 × MemFiles :=
  (restore memStore plainTar plainToml memStream (pure false) savedBundle true).run rekeyedStore

/-- The header of the ciphertext names these recipients. -/
def TaggedFor (c : Bytes) (rs : List KeyId) : Prop := tagHeader rs <+: c

instance (c : Bytes) (rs : List KeyId) : Decidable (TaggedFor c rs) :=
  inferInstanceAs (Decidable (_ <+: _))

/-- The rotation succeeds, and leaves the entry to its old recipients. -/
theorem rotation_leaves_entry :
    rekey.1 = .ok 2 ∧ ¬ ∀ e, HeldFor Empty TaggedFor (memFiles rekey.2) e := by
  refine ⟨by decide +kernel, fun hall => ?_⟩
  have hblob : memFiles rekey.2 (entryToBlob ⟨"c".toList, by decide⟩) =
      some (tagHeader [⟨"ALICE".toList⟩] ++ [2 ^^^ 0xAA]) := by decide +kernel
  obtain ⟨rs, hrs, htagged⟩ := hall _ _ hblob
  have hbob : (recipientsFor (memFiles rekey.2) ⟨"c".toList, by decide⟩ :
      Except (GpgIdError Empty) _) = .ok [⟨"BOB".toList⟩] := by decide +kernel
  obtain rfl := Except.ok.inj (hbob.symm.trans hrs)
  revert htagged
  decide

/-- The header names the recipients of the call. -/
theorem taggedFor_encrypt {W : Type} {p c : Bytes} {rs : List KeyId} {w : W}
    (h : (taggedCrypto.encryptFn p rs w).1 = .ok c) : TaggedFor c rs := by
  obtain rfl := Except.ok.inj h
  exact List.prefix_append _ _

theorem rotation_complete_rekey :
    (∀ e, HeldFor Empty TaggedFor (memFiles rekey.2) e) ↔
      ∀ e, (∀ b ∈ restoredEntries memStore plainTar plainToml
          (memStream savedBundle rekeyedStore).1.1, b.path ≠ e) →
        HeldFor Empty TaggedFor (memFiles rekeyedStore) e := by
  have hclean : (pure false : Prog (Event TaggedError Empty Empty) MemFiles Empty Bool).Steps
      (Asking fun s t => memFiles t = memFiles s) := Prog.steps_pure false
  have hstream : ∀ w, memFiles (memStream savedBundle w).2 = memFiles w := fun w => by
    unfold memStream
    cases afterHeader savedBundle <;> rfl
  have hopens : ∀ w, (memStream savedBundle w).1.2 = .ok () →
      (memStream savedBundle w).1.1 = (memStream savedBundle rekeyedStore).1.1 := fun w _ => by
    unfold memStream
    cases afterHeader savedBundle <;> rfl
  have hok : rekey.1 = .ok 2 := by decide +kernel
  have hrun : rekey = (.ok 2, rekey.2) := Prod.ext hok rfl
  exact rotation_complete_iff memStore_onMap (fun _ _ _ _ => taggedFor_encrypt) hclean hstream hopens
    hrun

end Bypass
