import Bypass.Cli.Backup
import Bypass.Core.Init
import Bypass.Core.StoreMap

/-!
# A backup restores

What a backup wrote, restored into a store that has just been initialised, is the map of entries and
plaintexts that was backed up. A backup reads a store and changes nothing in it, so it is a program
that `Asks`; a restore succeeds as long as the backends do (`Succeeds`).

* `backup_asks`: when a backup is written, and what it is then.
* `visits_succeed`: the loop of the restore puts the entries of the bundle into the map.
* `backup_restore`: the two together.
-/

namespace Bypass

variable {W CE SE VE B IE TE : Type} {store : Store W CE SE VE} {files : W → Files}

/-! ## What a backup is -/

/-- An entry of the map, as it travels through a bundle. -/
def EntryMap.bundled (m : EntryMap) (e : RelPath) : BundleEntry := ⟨e, m[e]?.getD []⟩

/-- `bundle` is a bundle of the map `m`, encrypted. -/
def BundleOf (store : Store W CE SE VE) (tar : Tar B IE) (toml : Toml TE) (m : EntryMap)
    (bundle : Bytes) : Prop :=
  ∃ manifest text plain rs w, manifest.format_version = formatVersion ∧
    manifest.entries = UInt32.ofNat (m.entriesBelow none).length ∧
    toml.toStringFn manifest = .ok text ∧
    tar.write (bundleMembers text ((m.entriesBelow none).map m.bundled)) = .ok plain ∧
    (store.crypto.encryptFn plain rs w).1 = .ok bundle

theorem except_bind_ok {ε α β : Type} {x : Except ε α} {f : α → Except ε β} {b : β}
    (h : x >>= f = .ok b) : ∃ a, x = .ok a ∧ f a = .ok b := by
  cases x with
  | error e => cases h
  | ok a => exact ⟨a, rfl, h⟩

/-- The stages of writing an archive. -/
theorem Tar.write_cons_ok {tar : Tar B IE} {first : Str × Bytes} {rest : List (Str × Bytes)}
    {plain : Bytes} (h : tar.write (first :: rest) = .ok plain) :
    ∃ b₁ b₂, tar.appendFn tar.builder first.1 first.2 = .ok b₁ ∧
      rest.foldlM (fun b member => tar.appendFn b member.1 member.2) b₁ = .ok b₂ ∧
      tar.finishFn b₂ = .ok plain := by
  obtain ⟨b₂, hfold, hend⟩ := except_bind_ok h
  rw [List.foldlM_cons] at hfold
  obtain ⟨b₁, hfirst, hrest⟩ := except_bind_ok hfold
  exact ⟨b₁, b₂, hfirst, hrest, hend⟩

section Backup

variable {tar : Tar B IE} {toml : Toml TE} {s : W} {m : EntryMap}

theorem asks_orThrow {ε δ α : Type} {f : ε → δ} {x : Except ε α} {a : α} (hx : x = .ok a)
    {refused : δ → Prop} :
    Asks files (orThrow f x : Prog (Event CE SE VE) W δ α) s refused fun r _ => r = a := by
  subst hx
  exact asks_pure rfl

variable (h : OnMap store files)
include h

/-- The item of an entry is the entry of the map. -/
theorem backupItem_asks (hm : Holds store (files s) m) {entry : RelPath} (hin : entry ∈ m) :
    Asks files (backupItem store entry : BundleM (Event CE SE VE) W IE TE _ _) s (fun _ => False)
      fun item _ => item = m.bundled entry := by
  have hsome : (files s (entryToBlob entry)).isSome = true := by
    rw [hm.isSome_eq, Std.ExtTreeMap.contains_iff_mem]
    exact hin
  refine ((show_asks h entry).mono (fun e he => ?_) fun _ _ hp => hp).mapErr.bind ?_
  · rw [he.1] at hsome
    cases hsome
  · rintro p tr u - ⟨c, w, hc, hp⟩
    obtain ⟨q, hq, hdec⟩ := hm.getElem?_eq_some hc
    refine asks_pure ?_
    rw [EntryMap.bundled, hq, hdec w p hp]
    rfl

/-- **The writer writes the members of the entries**, when `tar` takes them. -/
theorem writeMembers_asks (hm : Holds store (files s) m) {entries : List RelPath}
    (hin : ∀ e ∈ entries, e ∈ m) {b b' : B}
    (hfold : (entries.map fun e => (m.bundled e).member).foldlM
      (fun b member => tar.appendFn b member.1 member.2) b = .ok b') :
    Asks files (writeMembers tar (entries.map (backupItem store)) b :
      BundleM (Event CE SE VE) W IE TE _ _) s (fun _ => False) fun r _ => r = b' := by
  induction entries generalizing s b with
  | nil => exact asks_pure (Except.ok.inj hfold)
  | cons entry entries ih =>
    rw [List.map_cons, List.foldlM_cons] at hfold
    cases happend : tar.appendFn b (m.bundled entry).member.1 (m.bundled entry).member.2 with
    | error e =>
      rw [happend] at hfold
      cases hfold
    | ok b₁ =>
      rw [happend] at hfold
      refine (backupItem_asks h hm (hin entry List.mem_cons_self)).bind ?_
      rintro _ tr u hu rfl
      refine (asks_orThrow happend).bind ?_
      rintro _ tr' v hv rfl
      have hv' : files v = files s := hv.trans hu
      exact ih (hv' ▸ hm) (fun e he => hin e (List.mem_cons_of_mem _ he)) hfold

/-- **When a backup is written**: if there are entries, and the root names recipients. -/
theorem backup_asks (htar : tar.ReadsBack) (htoml : toml.ReadsBack) (hm : Holds store (files s) m)
    (now : ℤ) (recipient : Str) :
    Asks files (backup store tar toml now recipient none) s
      (fun _ => ¬ (m.entriesBelow none ≠ [] ∧ ∃ rs, Resolves SE (files s) dummyEntry rs))
      fun bundle _ => (m.entriesBelow none ≠ [] ∧ ∃ rs, Resolves SE (files s) dummyEntry rs) ∧
        BundleOf store tar toml m bundle := by
  unfold backup parseSubtree
  rw [pure_bind]
  refine ((list_asks h none).mono (fun e he => he.elim) fun _ _ hl => hl).mapErr.bind ?_
  intro entries tr u hu hl
  obtain rfl := hm.listed hl
  split_ifs with hnil
  · exact asks_throw fun hc => hc.1 hnil
  refine ((resolve_asks h dummyEntry u).mono (fun e he => ?_) fun _ _ hrs => hrs).mapErr.bind ?_
  · rintro ⟨-, rs, hrs⟩
    rw [hu] at he
    rw [Resolves, he] at hrs
    cases hrs
  intro rs tr₁ u₁ hu₁ hrs
  rw [hu] at hu₁ hrs
  obtain ⟨text, htext, -⟩ := htoml ⟨formatVersion, now, rs.map KeyId.str,
    UInt32.ofNat (m.entriesBelow none).length⟩
  obtain ⟨plain, hwrite, -⟩ := htar (bundleMembers text ((m.entriesBelow none).map m.bundled))
    (validate_bundleMembers text _)
  -- the archive is the manifest, then the entries, then the end
  obtain ⟨b₁, b₂, hfirst, hrest, hend⟩ := Tar.write_cons_ok hwrite
  rw [List.map_map] at hrest
  have hwritten : Asks files (writeBundle tar toml ⟨formatVersion, now, rs.map KeyId.str,
      UInt32.ofNat (m.entriesBelow none).length⟩ ((m.entriesBelow none).map
        (backupItem store)) : BundleM (Event CE SE VE) W IE TE _ _) u₁ (fun _ => False)
      fun r _ => r = plain := by
    refine (asks_orThrow htext).bind ?_
    rintro _ - v hv rfl
    refine (asks_orThrow hfirst).bind ?_
    rintro _ - v' hv' rfl
    have hfiles : files v' = files s := (hv'.trans hv).trans hu₁
    refine (writeMembers_asks h (hfiles ▸ hm)
      (fun e he => (EntryMap.mem_entriesBelow.1 he).1) hrest).bind ?_
    rintro _ - v'' - rfl
    exact asks_orThrow hend
  refine (hwritten.mono (fun e he => he.elim) fun _ _ hr => hr).mapErr.bind ?_
  rintro _ tr₂ u₂ - rfl
  refine (asks_encrypt h).mapErr.mono (fun _ he => he) fun bundle tr₃ henc => ?_
  obtain ⟨call, -, -, hcall⟩ := henc
  exact ⟨⟨hnil, rs, hrs⟩, _, text, _, _, _, rfl, rfl, htext, hwrite, hcall⟩

end Backup

/-! ## What a restore does -/

/-- A store that has just been initialised holds no entry, -/
theorem FreshlyInitialised.holds {f : Files} (h : FreshlyInitialised SE f) : Holds store f ∅ := by
  intro e
  rw [h.only _ (gpgIdIn_ne_entryToBlob none e).symm (gitattributesPath_ne_entryToBlob e).symm,
    Std.ExtTreeMap.getElem?_empty]
  exact .none

/-- and has recipients for every entry. -/
theorem FreshlyInitialised.resolvable {f : Files} (h : FreshlyInitialised SE f) :
    Resolvable SE f := by
  obtain ⟨recipients, rs, hroot, hparse⟩ := h.root
  refine fun e => recipientsIn_isOk (by simp [hroot]) (fun d b hb => ?_) e.parent
  cases d with
  | none =>
    obtain rfl := Option.some.inj (hroot.symm.trans hb)
    exact ⟨rs, hparse⟩
  | some d =>
    rw [h.only _ (gpgIdIn_some_ne_gpgIdPath d) (gpgIdIn_ne_gitattributesPath (some d))] at hb
    cases hb

/-- The map with the entries of a bundle. -/
def EntryMap.insertAll (m : EntryMap) (entries : List BundleEntry) : EntryMap :=
  entries.foldl (fun m entry => m.insert entry.path entry.plaintext) m

/-- **A map is made of its entries.** -/
theorem EntryMap.insertAll_bundled (m : EntryMap) :
    EntryMap.insertAll ∅ ((m.entriesBelow none).map m.bundled) = m := by
  have hget : ∀ (entries : List RelPath) (n : EntryMap) (e : RelPath),
      (n.insertAll (entries.map m.bundled))[e]? =
        if e ∈ entries then some (m[e]?.getD []) else n[e]? := by
    intro entries
    induction entries with
    | nil => exact fun n e => by simp [insertAll]
    | cons k entries ih =>
      intro n e
      have hstep : n.insertAll ((k :: entries).map m.bundled) =
        insertAll (n.insert k (m[k]?.getD [])) (entries.map m.bundled) := rfl
      rw [hstep, ih]
      by_cases hin : e ∈ entries
      · simp [hin]
      · by_cases hk : e = k
        · subst hk
          simp [hin]
        · simp [hin, hk, EntryMap.getElem?_insert_of_ne hk]
  refine Std.ExtTreeMap.ext_getElem? fun e => ?_
  rw [hget, Std.ExtTreeMap.getElem?_empty]
  have hmem : e ∈ m.entriesBelow none ↔ e ∈ m := by simp [EntryMap.mem_entriesBelow]
  split_ifs with hin
  · obtain ⟨p, hp⟩ := Option.isSome_iff_exists.1
      ((Std.ExtTreeMap.mem_iff_isSome_getElem?).1 (hmem.1 hin))
    rw [hp]
    rfl
  · exact (Std.ExtTreeMap.getElem?_eq_none fun hin' => hin (hmem.2 hin')).symm

section Restore

variable {tar : Tar B IE} {toml : Toml TE} {stream : DecryptStream W CE} {s : W} {m : EntryMap}

theorem stream_succeeds (hquiet : ∀ b w, files (stream b w).2 = files w) {bundle plain : Bytes}
    (hopens : ∀ w, (stream bundle w).1.2 = .ok () → (stream bundle w).1.1 = plain) :
    Succeeds (stream.call bundle : Prog (Event CE SE VE) W (RestoreError CE SE VE IE TE) _) s
      fun r t => r = (plain, .ok ()) ∧ files t = files s := by
  intro hnf
  refine ⟨(stream bundle s).1, rfl, ?_, hquiet bundle s⟩
  cases hended : (stream bundle s).1.2 with
  | ok _ => exact Prod.ext (hopens s hended) hended
  | error e => exact absurd ⟨_, List.mem_singleton_self _, by simp [hended, Event.failed, Except.isOk,
      Except.toBool, Except.map]⟩ hnf

variable (h : OnMap store files)
include h

/-- **The loop of the restore** puts the entries of the bundle into the map. -/
theorem visits_succeed (hrt : RoundTrip store) (entries : List BundleEntry)
    (hres : Resolvable SE (files s)) (hm : Holds store (files s) m) :
    Succeeds (entries.mapM fun entry =>
        ((store.insertNoCommit entry.path entry.plaintext).mapErr .source :
          BundleM (Event CE SE VE) W IE TE (StoreError CE SE VE) RelPath)) s
      fun touched t => touched.length = entries.length ∧
        Holds store (files t) (m.insertAll entries) ∧ Resolvable SE (files t) := by
  induction entries generalizing s m with
  | nil => exact succeeds_pure ⟨rfl, hm, hres⟩
  | cons entry entries ih =>
    rw [List.mapM_cons]
    refine (insertNoCommit_succeeds h hm hres hrt entry.path entry.plaintext).mapErr.bind ?_
    rintro blob u ⟨-, hholds, hmeta⟩
    refine (ih (hres.of_sameMetadata hmeta) hholds).bind ?_
    rintro touched t ⟨hlen, hholds', hres'⟩
    exact succeeds_pure ⟨by simp [hlen], hholds', hres'⟩

/-- A store without entries passes. -/
theorem restoreGuard_succeeds {dirty : Prog (Event CE SE VE) W Empty Bool}
    (hm : Holds store (files s) ∅) :
    Succeeds (restoreGuard store dirty false :
      Prog (Event CE SE VE) W (RestoreError CE SE VE IE TE) Unit) s
      fun _ t => files t = files s := by
  unfold restoreGuard
  refine ((list_asks h none).succeeds fun e he => he).mapErr.bind ?_
  rintro existing t ⟨ht, -, hl⟩
  rw [hm.listed hl]
  exact succeeds_pure ht

theorem commitRestored_succeeds (hres : Resolvable SE (files s)) (inPlace : Bool)
    (touched : List RelPath) :
    Succeeds (commitRestored store inPlace touched :
      Prog (Event CE SE VE) W (RestoreError CE SE VE IE TE) Unit) s
      fun _ t => files t = files s := by
  unfold commitRestored
  split_ifs with hnil
  · exact succeeds_pure rfl
  refine ((resolve_asks h dummyEntry s).succeeds fun e he => ?_).mapErr.bind ?_
  · obtain ⟨rs, hrs⟩ := hres dummyEntry
    rw [Resolves, he] at hrs
    cases hrs
  · rintro rs t ⟨ht, -⟩
    refine Succeeds.mapErr (Succeeds.mapErr (succeeds_call (fun _ => rfl) fun _ _ => ?_))
    exact (h.commit_files _ _ t).trans ht

/-- **A restore of a bundle** of the map, into a store that has just been initialised. -/
theorem restore_succeeds (hrt : RoundTrip store)
    (hquiet : ∀ b w, files (stream b w).2 = files w) {bundle plain : Bytes}
    (hopens : ∀ w, (stream bundle w).1.2 = .ok () → (stream bundle w).1.1 = plain)
    {manifest : Manifest} {text : Str} (hversion : manifest.format_version = formatVersion)
    (htoml : toml.fromStrFn text = .ok manifest)
    (htar : tar.entriesFn plain = .ok ((bundleMembers text
      ((m.entriesBelow none).map m.bundled)).map fun m => .ok ⟨.ok (utf8Encode m.1), .ok m.2⟩))
    {dirty : Prog (Event CE SE VE) W Empty Bool} (hfresh : FreshlyInitialised SE (files s)) :
    Succeeds (restore store tar toml stream dirty bundle false) s
      fun n t => n = manifest.entries ∧ Holds store (files t) m := by
  obtain ⟨recipients, rs, hroot, -⟩ := hfresh.root
  unfold restore
  refine ((asks_exists h).succeeds (fun e he => he)).attempt.bind ?_
  rintro _ t ⟨present, rfl, ht, -, hpresent⟩
  rw [hroot] at hpresent
  subst hpresent
  refine (restoreGuard_succeeds h (ht ▸ hfresh.holds)).bind ?_
  intro _ t₁ ht₁
  refine (stream_succeeds hquiet hopens).bind ?_
  rintro _ t₂ ⟨rfl, ht₂⟩
  have hfiles : files t₂ = files s := (ht₂.trans ht₁).trans ht
  have hloop : Succeeds (((m.entriesBelow none).map m.bundled).mapM fun entry =>
      ((store.insertNoCommit entry.path entry.plaintext).mapErr .source :
        BundleM (Event CE SE VE) W IE TE (StoreError CE SE VE) RelPath)) t₂ _ :=
    visits_succeed h hrt _ (hfiles ▸ hfresh.resolvable) (hfiles ▸ hfresh.holds)
  dsimp only
  rw [readBundle_members hversion htoml htar]
  refine Succeeds.bind (Succeeds.mapErr (hloop.bind fun touched t₃ htouched =>
    succeeds_pure (R := fun (r : Manifest × List RelPath) t => r.1 = manifest ∧
      Holds store (files t) m ∧ Resolvable SE (files t)) ⟨rfl, ?_, htouched.2.2⟩)) ?_
  · have hholds := htouched.2.1
    rwa [EntryMap.insertAll_bundled] at hholds
  · rintro ⟨_, touched⟩ t₃ ⟨rfl, hholds, hres⟩
    refine (commitRestored_succeeds h hres false touched).bind fun _ t₄ ht₄ => ?_
    exact succeeds_pure ⟨rfl, ht₄ ▸ hholds⟩

end Restore

/-! ## The round trip -/

/-- What `gpg` encrypted for the one store, its stream decrypts at the other. -/
def Opens {W' CE' : Type} (store : Store W CE SE VE) (stream : DecryptStream W' CE') : Prop :=
  ∀ plain rs w c, (store.crypto.encryptFn plain rs w).1 = .ok c →
    ∀ w', (stream c w').1.2 = .ok () → (stream c w').1.1 = plain

/-- **A backup restores.** Of a store whose entries decrypt to the map `m`, a backup is written
(unless a call of the backends fails) if and only if there are entries and the root names
recipients. Whatever was written, a restore into a store that has just been initialised succeeds
(unless a call fails), reports the number of the entries, and leaves a store that holds `m`. -/
theorem backup_restore {W' CE' SE' VE' : Type} {store' : Store W' CE' SE' VE'} {files' : W' → Files}
    {tar : Tar B IE} {toml : Toml TE} {stream : DecryptStream W' CE'} {s : W} {m : EntryMap}
    (h : OnMap store files) (h' : OnMap store' files') (htar : tar.ReadsBack)
    (htoml : toml.ReadsBack) (hrt : RoundTrip store') (hopens : Opens store stream)
    (hquiet : ∀ b w, files' (stream b w).2 = files' w) (hm : Holds store (files s) m)
    (now : ℤ) (recipient : Str) (dirty : Prog (Event CE' SE' VE') W' Empty Bool) :
    (¬ Faulty ((backup store tar toml now recipient none).trace s) →
      ((∃ bundle, ((backup store tar toml now recipient none).run s).1 = .ok bundle) ↔
        m.entriesBelow none ≠ [] ∧ ∃ rs, Resolves SE (files s) dummyEntry rs)) ∧
      ∀ bundle, ((backup store tar toml now recipient none).run s).1 = .ok bundle →
        ∀ d, FreshlyInitialised SE' (files' d) →
          ¬ Faulty ((restore store' tar toml stream dirty bundle false).trace d) →
            ((restore store' tar toml stream dirty bundle false).run d).1 =
                .ok (UInt32.ofNat (m.entriesBelow none).length) ∧
              Holds store' (files' ((restore store' tar toml stream dirty bundle false).run d).2) m := by
  have hbackup : (backup store tar toml now recipient none).wp _ s :=
    backup_asks h htar htoml hm now recipient
  obtain ⟨-, -, hends⟩ := hbackup
  constructor
  · intro hnf
    cases hrun : ((backup store tar toml now recipient none).run s).1 with
    | ok bundle =>
      rw [hrun] at hends
      exact ⟨fun _ => hends.2.1, fun _ => ⟨bundle, rfl⟩⟩
    | error e =>
      rw [hrun] at hends
      exact ⟨fun ⟨_, hb⟩ => (nomatch hb), fun hc => absurd hc (hends.resolve_left hnf)⟩
  · intro bundle hrun d hfresh hnf
    rw [hrun] at hends
    obtain ⟨manifest, text, plain, rs, w, hversion, hcount, htext, hwrite, hencrypt⟩ := hends.2.2
    obtain ⟨text', htext', hread⟩ := htoml manifest
    obtain rfl := Except.ok.inj (htext.symm.trans htext')
    obtain ⟨plain', hwrite', hmembers⟩ := htar _ (validate_bundleMembers text _)
    obtain rfl := Except.ok.inj (hwrite.symm.trans hwrite')
    obtain ⟨n, hn, rfl, hholds⟩ := restore_succeeds h' hrt hquiet
      (fun w' => hopens plain rs w bundle hencrypt w') hversion hread hmembers hfresh hnf
    exact ⟨hn.trans (congrArg Except.ok hcount), hholds⟩

/-! ## A backup in memory -/

section Plain

variable {α : Type} [DecidableEq α]

/-- Lists in a row: each item after a mark, each list before a stop. -/
def frames (mark stop : α) (ls : List (List α)) : List α :=
  ls.flatMap fun l => l.flatMap (fun a => [mark, a]) ++ [stop]

/-- The lists in a row. -/
def unframes (mark : α) : List α → List (List α)
  | [] => []
  | [x] => if x = mark then [] else [[]]
  | x :: a :: rest =>
    if x = mark then
      match unframes mark rest with
      | [] => [[a]]
      | l :: ls => (a :: l) :: ls
    else [] :: unframes mark (a :: rest)

theorem unframes_stop {mark stop : α} (h : stop ≠ mark) (rest : List α) :
    unframes mark (stop :: rest) = [] :: unframes mark rest := by
  cases rest with
  | nil => simp [unframes, h]
  | cons a rest => rw [unframes, if_neg h]

theorem unframes_frames {mark stop : α} (h : stop ≠ mark) (ls : List (List α)) :
    unframes mark (frames mark stop ls) = ls := by
  induction ls with
  | nil => rfl
  | cons l ls ih =>
    have hcons : frames mark stop (l :: ls) =
        l.flatMap (fun a => [mark, a]) ++ (stop :: frames mark stop ls) := by
      simp [frames]
    rw [hcons]
    induction l with
    | nil => rw [List.flatMap_nil, List.nil_append, unframes_stop h, ih]
    | cons a l ihl =>
      have hl := ihl (by simp [frames])
      show unframes mark (mark :: a :: (l.flatMap (fun a => [mark, a]) ++ _)) = _
      rw [unframes, if_pos rfl, hl]

/-- Every second item is paired with the one after it. -/
def pairUp : List α → List (α × α)
  | a :: b :: rest => (a, b) :: pairUp rest
  | _ => []

end Plain

/-- An archive of names and contents in a row. -/
def plainTar : Tar (List (Str × Bytes)) Empty where
  builder := []
  appendFn b name data := .ok (b ++ [(name, data)])
  finishFn b := .ok (frames 1 0 (b.flatMap fun member => [utf8Encode member.1, member.2]))
  entriesFn source := .ok ((pairUp (unframes 1 source)).map fun member =>
    .ok ⟨.ok member.1, .ok member.2⟩)

/-- The fields of a manifest in a row; the numbers in unary. -/
def plainToml : Toml Empty where
  toStringFn manifest := .ok (frames 'i' '.'
    (List.replicate manifest.format_version.toNat 'i' ::
      List.replicate manifest.created_at_unix.toNat 'i' ::
      List.replicate (-manifest.created_at_unix).toNat 'i' ::
      List.replicate manifest.entries.toNat 'i' :: manifest.original_recipients))
  fromStrFn text := match unframes 'i' text with
    | version :: now :: before :: entries :: recipients => .ok ⟨UInt32.ofNat version.length,
        (now.length : ℤ) - before.length, recipients, UInt32.ofNat entries.length⟩
    | _ => .ok ⟨0, 0, [], 0⟩

theorem plainTar_readsBack : plainTar.ReadsBack := by
  intro members _
  have hfold : ∀ (members b : List (Str × Bytes)),
      members.foldlM (fun b m => plainTar.appendFn b m.1 m.2) b = .ok (b ++ members) := by
    intro members
    induction members with
    | nil => exact fun b => by simp; rfl
    | cons m members ih =>
      intro b
      rw [List.foldlM_cons]
      show members.foldlM (fun b m => plainTar.appendFn b m.1 m.2) (b ++ [m]) = _
      rw [ih, List.append_assoc]
      rfl
  have hpairs : ∀ members : List (Str × Bytes),
      pairUp (members.flatMap fun m => [utf8Encode m.1, m.2]) =
        members.map fun m => (utf8Encode m.1, m.2) := by
    intro members
    induction members with
    | nil => rfl
    | cons m members ih => exact congrArg _ ih
  refine ⟨frames 1 0 (members.flatMap fun m => [utf8Encode m.1, m.2]), ?_, ?_⟩
  · rw [Tar.write, hfold]
    rfl
  · show Except.ok _ = Except.ok _
    rw [unframes_frames (by decide), hpairs, List.map_map]
    rfl

theorem plainToml_readsBack : plainToml.ReadsBack := by
  intro manifest
  refine ⟨_, rfl, ?_⟩
  simp only [plainToml]
  rw [unframes_frames (by decide)]
  simp only [List.length_replicate, UInt32.ofNat_toNat]
  congr 2
  omega

/-- The stream of `TaggedCrypto`. -/
def memStream : DecryptStream MemFiles TaggedError := fun bundle w =>
  match afterHeader bundle with
  | none => (([], .error .taggedError), w)
  | some body => ((body.map (· ^^^ 0xAA), .ok ()), w)

theorem memStream_opens : Opens memStore memStream := by
  intro plain rs w c hc w' hended
  have hdec := memStore_roundTrip plain rs w c hc w'
  revert hended hdec
  simp only [memStream, memStore, taggedCrypto]
  cases afterHeader c with
  | none => exact fun hended => nomatch hended
  | some body => exact fun _ hdec => hdec _ rfl

/-- Two entries, one below a directory and one without a password. -/
def savedOps : List Op :=
  [.insert ⟨"web/a".toList, validate_web_a⟩ [1, 0] false, .insert ⟨"b".toList, validate_b⟩ [] false]

def savedBackup : Except (BackupError TaggedError Empty Empty Empty Empty) Bytes :=
  ((backup memStore plainTar plainToml 7 "BOB".toList none).run
    (memStore.runOps savedOps memFresh).2).1

/-- The bundle of these entries. -/
def savedBundle : Bytes := savedBackup.toOption.getD []

def savedRestore : Prog (Event TaggedError Empty Empty) MemFiles
    (RestoreError TaggedError Empty Empty Empty Empty) UInt32 :=
  restore memStore plainTar plainToml memStream (pure false) savedBundle false

theorem memFresh_freshlyInitialised : FreshlyInitialised Empty (memFiles memFresh) where
  root := ⟨[⟨"ALICE".toList⟩], [⟨"ALICE".toList⟩], by decide, by decide⟩
  only q hq _ := by
    cases hb : memFiles memFresh q with
    | none => rfl
    | some b => exact absurd (memFresh_file hb).1 hq

theorem backup_restore_saved :
    (savedRestore.run memFresh).1 = .ok (UInt32.ofNat
        ((EntryMap.steps ∅ savedOps).2.entriesBelow none).length) ∧
      Holds memStore (memFiles (savedRestore.run memFresh).2) (EntryMap.steps ∅ savedOps).2 := by
  have hholds := (runOps_refines memStore_onMap memStore_roundTrip savedOps memFresh_resolvable
    memFresh_holds (by decide +kernel)).2.1
  exact (backup_restore memStore_onMap memStore_onMap plainTar_readsBack plainToml_readsBack
    memStore_roundTrip memStream_opens
    (fun b w => by unfold memStream; cases afterHeader b <;> rfl) hholds 7 "BOB".toList
    (pure false)).2 savedBundle (by decide +kernel) memFresh memFresh_freshlyInitialised
    (by decide +kernel)

end Bypass
