import Bypass.Cli.Rotation

/-!
# The count of a bundle

The manifest of a bundle says how many entries it has, and `bypass restore` reports that number.
`read_bundle` compares it with nothing: an archive that ends early, after a whole member, or that
has a member twice, is read as if it were the one that was written.

* `restored`: the paths that the calls of a trace have written.
* `readBundle_ok`, `yields_restore`: what has been visited, and restored, on success.
* **`bundle_counted_iff`**: when the count of the manifest is that of the entries.
-/

namespace Bypass

open Prog

variable {W CE SE VE B IE TE : Type}

/-! ## Paths that were written -/

/-- The path at which a call has written a file. -/
def Event.wrote : Event CE SE VE → Option RelPath
  | .write path _ (.ok _) => some path
  | _ => none

/-- The paths that a trace has written, in order. -/
def restored (tr : Trace W CE SE VE) : List RelPath := tr.filterMap fun call => call.ev.wrote

theorem restored_append (tr tr' : Trace W CE SE VE) :
    restored (tr ++ tr') = restored tr ++ restored tr' :=
  List.filterMap_append

/-- If the program succeeds, `Q` holds of its result and of the paths that it has written. -/
def Yields {ε α : Type} (Q : α → List RelPath → Prop) (p : Prog (Event CE SE VE) W ε α) : Prop :=
  ∀ s, p.wp (fun r tr _ => ∀ a, r = .ok a → Q a (restored tr)) s

section Rules

variable {ε δ α β : Type} {Q : α → List RelPath → Prop}

theorem yields_pure {a : α} (h : Q a []) : Yields Q (pure a : Prog (Event CE SE VE) W ε α) :=
  fun _ _ ha => Except.ok.inj ha ▸ h

theorem yields_throw (e : ε) : Yields Q (throw e : Prog (Event CE SE VE) W ε α) :=
  fun _ _ ha => nomatch ha

theorem yields_call {ev : Except ε α → Event CE SE VE} {f : W → Except ε α × W}
    (h : ∀ s a, (f s).1 = .ok a → Q a (ev (.ok a)).wrote.toList) : Yields Q (call ev f) := by
  intro s
  refine wp_call.2 fun a ha => ?_
  have hwrote : restored [⟨ev (f s).1, s, (f s).2⟩] = (ev (.ok a)).wrote.toList := by
    rw [ha, restored, List.filterMap_cons, List.filterMap_nil]
    cases (ev (.ok a)).wrote <;> rfl
  rw [hwrote]
  exact h s a ha

theorem Yields.mono {R : α → List RelPath → Prop} {p : Prog (Event CE SE VE) W ε α}
    (h : Yields Q p) (hR : ∀ a l, Q a l → R a l) : Yields R p :=
  fun s => wp_mono (h s) fun _ _ _ hr a ha => hR a _ (hr a ha)

theorem Yields.mapErr {g : ε → δ} {p : Prog (Event CE SE VE) W ε α} (h : Yields Q p) :
    Yields Q (p.mapErr g) := by
  refine fun s => wp_mapErr.2 (wp_mono (h s) fun r tr t hr a ha => hr a ?_)
  cases r with
  | error e => cases ha
  | ok b => exact congrArg _ (Except.ok.inj ha)

/-- A sequence writes what its first part writes, and then what its second does. -/
theorem Yields.bind {R : β → List RelPath → Prop} {p : Prog (Event CE SE VE) W ε α}
    {f : α → Prog (Event CE SE VE) W ε β} (h : Yields Q p)
    (hf : ∀ a l, Q a l → Yields (fun b l' => R b (l ++ l')) (f a)) : Yields R (p >>= f) := by
  intro s
  refine wp_bind.2 (wp_mono (h s) fun r tr t hr => ?_)
  cases r with
  | error e => exact fun b hb => nomatch hb
  | ok a =>
    refine wp_mono (hf a _ (hr a rfl) t) fun r tr' u hr' b hb => ?_
    rw [restored_append]
    exact hr' b hb

/-- A program that asks writes nothing. -/
theorem yields_asking {R : W → W → Prop} {p : Prog (Event CE SE VE) W ε α}
    (h : p.Steps (Asking R)) : Yields (fun _ l => l = []) p := by
  intro s a _
  refine List.filterMap_eq_nil_iff.2 fun call hcall => ?_
  have hasks := (h.trace s call hcall).1
  cases hev : call.ev <;> rw [hev] at hasks <;> first | rfl | cases hasks

theorem yields_orThrow {f : ε → δ} {x : Except ε α} :
    Yields (fun a l => x = .ok a ∧ l = []) (orThrow f x : Prog (Event CE SE VE) W δ α) := by
  cases x with
  | ok a => exact yields_pure ⟨rfl, rfl⟩
  | error e => exact yields_throw (f e)

end Rules

/-! ## What a restore writes -/

section Restore

variable (store : Store W CE SE VE)

/-- Every store asks, if nothing is to be kept. -/
theorem calm_true : Calm store fun _ _ => True :=
  ⟨fun _ _ _ => trivial, fun _ _ => trivial, fun _ _ => trivial, fun _ _ => trivial,
    fun _ _ => trivial⟩

theorem yields_insertNoCommit (entry : RelPath) (plaintext : Bytes) :
    Yields (fun _ l => l = [entryToBlob entry]) (store.insertNoCommit entry plaintext) := by
  have hremove : Yields (fun _ l => l = [])
      (store.storage.remove (entryToBlob entry) : Prog (Event CE SE VE) W SE Unit) :=
    yields_call fun _ _ _ => rfl
  have hwrite : ∀ c, Yields (fun _ l => l = [entryToBlob entry])
      (store.storage.write (entryToBlob entry) c : Prog (Event CE SE VE) W SE Unit) := fun c =>
    yields_call fun _ _ _ => rfl
  rw [store.insertNoCommit_parts]
  refine (yields_asking (asking_encryptFor (calm_true store) entry plaintext)).bind ?_
  rintro c _ rfl
  refine hremove.mapErr.bind ?_
  rintro _ _ rfl
  refine (hwrite c).mapErr.bind ?_
  rintro _ _ rfl
  exact yields_pure rfl

theorem yields_visits (entries : List BundleEntry) :
    Yields (fun _ l => l = entries.map fun b => entryToBlob b.path)
      (entries.mapM (restoreEntry store) :
        BundleM (Event CE SE VE) W IE TE (StoreError CE SE VE) _) := by
  induction entries with
  | nil => exact yields_pure rfl
  | cons b entries ih =>
    rw [List.mapM_cons]
    refine (yields_insertNoCommit store b.path b.plaintext).mapErr.bind ?_
    rintro _ _ rfl
    refine ih.bind ?_
    rintro _ _ rfl
    refine yields_pure ?_
    rw [List.append_nil]
    rfl

theorem yields_commitRestored (inPlace : Bool) (touched : List RelPath) :
    Yields (fun _ l => l = []) (commitRestored store inPlace touched :
      Prog (Event CE SE VE) W (RestoreError CE SE VE IE TE) Unit) := by
  have hcommit : ∀ paths message, Yields (fun _ l => l = [])
      (store.vcs.commit paths message : Prog (Event CE SE VE) W VE Unit) := fun _ _ =>
    yields_call fun _ _ _ => rfl
  unfold commitRestored
  split_ifs
  · exact yields_pure rfl
  · refine (yields_asking (asking_resolve (calm_true store) dummyEntry)).mapErr.bind ?_
    rintro rs _ rfl
    exact (hcommit _ _).mapErr.mapErr

variable (tar : Tar B IE) (toml : Toml TE) (stream : DecryptStream W CE)

/-- **What a restore that succeeds has read and written**: a bundle, and the blobs of its
entries. -/
theorem yields_restore {dirty : Prog (Event CE SE VE) W Empty Bool}
    (hdirty : dirty.Steps (Asking fun _ _ => True)) (bundle : Bytes) (inPlace : Bool) :
    Yields (fun n l => ∃ w manifest entries, (stream bundle w).1.2 = .ok () ∧
        IsBundle tar toml (stream bundle w).1.1 manifest entries ∧ n = manifest.entries ∧
        l = entries.map fun b => entryToBlob b.path)
      (restore store tar toml stream dirty bundle inPlace) := by
  have hcall : Yields (fun a l => (∃ w, (stream bundle w).1 = a) ∧ l = []) (stream.call bundle :
      Prog (Event CE SE VE) W (RestoreError CE SE VE IE TE) _) :=
    fun s a ha => ⟨⟨s, Except.ok.inj ha⟩, rfl⟩
  unfold restore
  refine (yields_asking (asking_exists (calm_true store) gpgIdPath).attempt).bind ?_
  rintro (_ | present) _ rfl
  · exact yields_throw _
  cases present with
  | false => exact yields_throw _
  | true =>
    refine (yields_asking (asking_restoreGuard (calm_true store) hdirty inPlace)).bind ?_
    rintro _ _ rfl
    refine hcall.bind ?_
    rintro _ _ ⟨⟨w, rfl⟩, rfl⟩
    have hreading : Yields (fun a l => IsBundle tar toml (stream bundle w).1.1 a.1
          (restoredEntries store tar toml (stream bundle w).1.1) ∧
        l = (restoredEntries store tar toml (stream bundle w).1.1).map fun b => entryToBlob b.path)
        (readBundle tar toml (stream bundle w).1.1 noPreCheck (restoreEntry store) :
          BundleM (Event CE SE VE) W IE TE (StoreError CE SE VE) _) := by
      rw [readBundle_eq]
      refine (yields_visits store _).bind ?_
      rintro visited _ rfl
      refine yields_orThrow.bind ?_
      rintro manifest _ ⟨hmanifest, rfl⟩
      refine yields_pure ⟨(bundleReading_eq_ok tar toml).1 (Prod.ext rfl hmanifest), ?_⟩
      rw [List.append_nil, List.append_nil]
      rfl
    refine hreading.mapErr.bind ?_
    rintro ⟨manifest, touched⟩ _ ⟨hbundle, rfl⟩
    refine yields_orThrow.bind ?_
    rintro _ _ ⟨hended, rfl⟩
    refine (yields_commitRestored store inPlace touched).bind ?_
    rintro _ _ rfl
    refine yields_pure ⟨w, manifest, _, hended, hbundle, rfl, ?_⟩
    simp only [List.nil_append, List.append_nil]

end Restore

/-! ## Counts -/

/-- The entries are as many as the manifest says, and at different paths. -/
def Counted (manifest : Manifest) (paths : List RelPath) : Prop :=
  paths.length = manifest.entries.toNat ∧ paths.Nodup

section Visits

variable {ℓ ξ β : Type} {tar : Tar B IE} {toml : Toml TE}

/-- Visit an entry, and note its path. -/
def noting (visit : BundleEntry → BundleM ℓ W IE TE ξ Unit) (entry : BundleEntry) :
    BundleM ℓ W IE TE ξ RelPath := do
  visit entry
  pure entry.path

/-- What `read_bundle` has visited, if it succeeds: the entries of the bundle that the source is. -/
theorem readBundle_ok {source : Bytes} {preCheck : Manifest → Except (BundleError IE TE ξ) Unit}
    {visit : BundleEntry → BundleM ℓ W IE TE ξ β} {manifest : Manifest} {visited : List β} {s t : W}
    (hrun : (readBundle tar toml source preCheck visit).run s = (.ok (manifest, visited), t)) :
    ∃ entries, IsBundle tar toml source manifest entries ∧
      (entries.mapM visit).run s = (.ok visited, t) := by
  rw [readBundle_open] at hrun
  obtain ⟨⟨m, members⟩, s₁, hopening, hrun⟩ := run_bind_ok hrun
  obtain ⟨_, s₂, hcheck, hrun⟩ := run_bind_ok hrun
  obtain ⟨others, s₃, hmembers, hreturn⟩ := run_bind_ok hrun
  obtain ⟨hpair, rfl⟩ := Prod.mk.inj hreturn
  obtain ⟨rfl, rfl⟩ := Prod.mk.inj (Except.ok.inj hpair)
  obtain ⟨hopen, rfl⟩ := run_orThrow_ok hopening
  obtain ⟨-, rfl⟩ := run_orThrow_ok hcheck
  rw [readMembers_eq] at hmembers
  obtain ⟨seen, s₄, hvisits, hmembers⟩ := run_bind_ok hmembers
  obtain ⟨_, s₅, hending, hreturn⟩ := run_bind_ok hmembers
  obtain ⟨hseen, rfl⟩ := Prod.mk.inj hreturn
  obtain rfl := Except.ok.inj hseen
  obtain ⟨hend, rfl⟩ := run_orThrow_ok hending
  refine ⟨_, (bundleReading_eq_ok tar toml (ξ := ξ)).1 ?_, hvisits⟩
  rw [bundleReading, hopen]
  simp only [hend]
  rfl

theorem mapM_noting {visit : BundleEntry → BundleM ℓ W IE TE ξ Unit} {entries : List BundleEntry}
    {paths : List RelPath} {s t : W} (hrun : (entries.mapM (noting visit)).run s = (.ok paths, t)) :
    paths = entries.map BundleEntry.path := by
  induction entries generalizing s paths with
  | nil => exact (Except.ok.inj (Prod.mk.inj hrun).1).symm
  | cons entry entries ih =>
    rw [List.mapM_cons] at hrun
    obtain ⟨path, u, hfirst, hrun⟩ := run_bind_ok hrun
    obtain ⟨rest, v, hrest, hrun⟩ := run_bind_ok hrun
    obtain ⟨_, w, -, hpath⟩ := run_bind_ok hfirst
    obtain ⟨hcons, rfl⟩ := Prod.mk.inj hrun
    rw [← Except.ok.inj hcons, ← Except.ok.inj (Prod.mk.inj hpath).1, ih hrest, List.map_cons]

end Visits

/-- **When `read_bundle` counts**, and the number that `restore` reports is that of the entries that
it has written: where the manifest of the source has it right, and no member is there twice. -/
theorem bundle_counted_iff {ℓ ξ : Type} (tar : Tar B IE) (toml : Toml TE) (source : Bytes) (s : W) :
    ((∀ (preCheck : Manifest → Except (BundleError IE TE ξ) Unit)
        (visit : BundleEntry → BundleM ℓ W IE TE ξ Unit) manifest visited t,
        (readBundle tar toml source preCheck (noting visit)).run s = (.ok (manifest, visited), t) →
          Counted manifest visited) ∧
      ∀ (store : Store W CE SE VE) (stream : DecryptStream W CE)
        (dirty : Prog (Event CE SE VE) W Empty Bool) bundle inPlace n t,
        dirty.Steps (Asking fun _ _ => True) →
        (∀ w, (stream bundle w).1.2 = .ok () → (stream bundle w).1.1 = source) →
        (restore store tar toml stream dirty bundle inPlace).run s = (.ok n, t) →
          (restored ((restore store tar toml stream dirty bundle inPlace).trace s)).length =
              n.toNat ∧
            (restored ((restore store tar toml stream dirty bundle inPlace).trace s)).Nodup) ↔
      ∀ manifest entries, IsBundle tar toml source manifest entries →
        Counted manifest (entries.map BundleEntry.path) := by
  constructor
  · rintro ⟨hcounted, -⟩ manifest entries hbundle
    refine hcounted noPreCheck (fun _ => pure ()) manifest _ s ?_
    have hvisits : entries.mapM (noting fun _ => (pure () : BundleM ℓ W IE TE ξ Unit)) =
        pure (entries.map BundleEntry.path) := List.mapM_pure
    rw [readBundle_eq, (bundleReading_eq_ok tar toml).2 hbundle]
    simp only [hvisits]
    rfl
  · intro hcounted
    refine ⟨fun preCheck visit manifest visited t hrun => ?_, ?_⟩
    · obtain ⟨entries, hbundle, hvisits⟩ := readBundle_ok hrun
      rw [mapM_noting hvisits]
      exact hcounted manifest entries hbundle
    · intro store stream dirty bundle inPlace n t hdirty hopens hrun
      obtain ⟨w, manifest, entries, hended, hbundle, rfl, hrestored⟩ :=
        yields_restore store tar toml stream hdirty bundle inPlace s n (congrArg Prod.fst hrun)
      rw [hopens w hended] at hbundle
      obtain ⟨hlength, hnodup⟩ := hcounted manifest entries hbundle
      have hblobs : restored ((restore store tar toml stream dirty bundle inPlace).trace s) =
          (entries.map BundleEntry.path).map entryToBlob := by
        rw [hrestored, List.map_map]
        rfl
      rw [hblobs, List.length_map]
      exact ⟨hlength, hnodup.map entryToBlob_injective⟩

/-! ## A bundle that is cut -/

/-- The manifest of two entries. -/
def pairManifest : Manifest := ⟨1, 7, ["BOB".toList], 2⟩

def pairEntries : List BundleEntry :=
  [⟨⟨"b".toList, validate_b⟩, []⟩, ⟨⟨"web/a".toList, validate_web_a⟩, [1, 0]⟩]

/-- Their archive, up to its `n`th member. -/
def pairArchive (n : ℕ) : Bytes :=
  (plainTar.write ((bundleMembers ((plainToml.toStringFn pairManifest).toOption.getD [])
    pairEntries).take n)).toOption.getD []

/-- What `read_bundle` makes of it, and the paths that it visits. -/
def pairReading (n : ℕ) : BundleM Empty Unit Empty Empty Empty (Manifest × List RelPath) :=
  readBundle plainTar plainToml (pairArchive n) noPreCheck (noting fun _ => pure ())

/-- The restore of it into an empty store, out of the file that has it encrypted. -/
def pairRestore (n : ℕ) : Prog (Event TaggedError Empty Empty) MemFiles
    (RestoreError TaggedError Empty Empty Empty Empty) UInt32 :=
  restore memStore plainTar plainToml memStream (pure false)
    (tagHeader [⟨"BOB".toList⟩] ++ (pairArchive n).map (· ^^^ 0xAA)) false

/-- Cut after its first entry, it is read as a bundle of two, and one entry is restored as two. -/
theorem cut_bundle_passes :
    pairArchive 2 <+: pairArchive 3 ∧
      ((pairReading 2).run ()).1 = .ok (pairManifest, [⟨"b".toList, by decide⟩]) ∧
      ¬ Counted pairManifest [⟨"b".toList, by decide⟩] ∧
      ((pairRestore 2).run memFresh).1 = .ok 2 ∧
      restored ((pairRestore 2).trace memFresh) = [⟨"b.gpg".toList, by decide⟩] := by
  refine ⟨by decide +kernel, by decide +kernel, ?_, by decide +kernel, by decide +kernel⟩
  rintro ⟨hlength, -⟩
  exact absurd hlength (by decide)

end Bypass
