import Bypass.Core.Path
import Bypass.Foundations.Prog
import Bypass.Foundations.Utf8

/-!
# Bundles

The format of a backup (`bundle.rs`): a tar archive that starts with a manifest, and has a member
for each entry, with its plaintext. The writer takes its entries from an iterator, whose items may
fail; the reader shows each entry to a visitor as it comes, and checks the names.

The `tar` and `toml` libraries are parameters. What they promise is that what was written reads
back (`Tar.ReadsBack`, `Toml.ReadsBack`).

* `readBundle_members`: reading what was written visits the entries in order.
* `readBundle_eq`: reading any bundle visits the entries before the first error.
* `bundleReading_eq_ok`: it ends well where the source is a bundle of these entries.
-/

namespace Bypass

/-! ## The format -/

/-- `FORMAT_VERSION`. -/
def formatVersion : UInt32 := 1

/-- `MANIFEST_NAME`. -/
def manifestName : Str := "manifest.toml".toList

/-- `ENTRIES_PREFIX`. -/
def entriesPrefix : Str := "entries/".toList

/-- `Manifest`. -/
structure Manifest where
  format_version : UInt32
  created_at_unix : ℤ
  original_recipients : List Str
  entries : UInt32
  deriving DecidableEq

/-- `BundleEntry`. -/
structure BundleEntry where
  path : RelPath
  plaintext : Bytes
  deriving DecidableEq

/-- `BundleError`, over the errors of input and output, of `toml`, and of the caller. -/
inductive BundleError (IE TE ξ : Type) where
  | io (e : IE)
  | encodeManifest (e : TE)
  | decodeManifest (e : TE)
  | nonUtf8Manifest
  | incompatibleFormat (got expected : UInt32)
  | missingManifest
  | invalidEntryPath (e : PathError)
  | nonUtf8MemberName
  | unexpectedMember (name : Str)
  | source (e : ξ)
  deriving DecidableEq

/-- The message of a `BundleError`, from the texts of the errors it wraps. -/
def BundleError.message {IE TE ξ : Type} (ioText : IE → Str) (tomlText : TE → Str)
    (sourceText : ξ → Str) (debug : Str → Str) : BundleError IE TE ξ → Str
  | io e => "bundle I/O: ".toList ++ ioText e
  | encodeManifest e => "manifest serialisation: ".toList ++ tomlText e
  | decodeManifest e => "manifest parse: ".toList ++ tomlText e
  | nonUtf8Manifest => "manifest is not valid UTF-8".toList
  | incompatibleFormat got expected =>
    "bundle format_version ".toList ++ Nat.toDigits 10 got.toNat ++
      " is not supported (this build expects ".toList ++ Nat.toDigits 10 expected.toNat ++ ")".toList
  | missingManifest => "bundle is missing the manifest entry (expected `manifest.toml` first)".toList
  | invalidEntryPath e =>
    "bundle entry path is invalid: invalid store path: ".toList ++ e.message debug
  | nonUtf8MemberName => "bundle tar member name is not UTF-8".toList
  | unexpectedMember name => "unexpected tar member `".toList ++ name ++
      "` (only `manifest.toml` and `entries/*` are allowed)".toList
  | source e => "bundle source: ".toList ++ sourceText e

/-! ## Libraries -/

/-- A member as `tar` reads it: its name and its content, either of which may fail to be read. -/
structure TarMember (IE : Type) where
  path : Except IE Bytes
  content : Except IE Bytes

/-- `tar`: a builder, to which members are appended, and the members that a stream has. -/
structure Tar (B IE : Type) where
  builder : B
  appendFn : B → Str → Bytes → Except IE B
  finishFn : B → Except IE Bytes
  entriesFn : Bytes → Except IE (List (Except IE (TarMember IE)))

/-- `toml`, for manifests. -/
structure Toml (TE : Type) where
  toStringFn : Manifest → Except TE Str
  fromStrFn : Str → Except TE Manifest

/-- An archive of these members. -/
def Tar.write {B IE : Type} (tar : Tar B IE) (members : List (Str × Bytes)) : Except IE Bytes :=
  members.foldlM (fun b m => tar.appendFn b m.1 m.2) tar.builder >>= tar.finishFn

/-- **Members read back**: those with valid names can be written, and are then read with their names
and contents, in order. -/
def Tar.ReadsBack {B IE : Type} (tar : Tar B IE) : Prop :=
  ∀ members : List (Str × Bytes), (∀ m ∈ members, validate m.1 = .ok ()) →
    ∃ bytes, tar.write members = .ok bytes ∧
      tar.entriesFn bytes = .ok (members.map fun m => .ok ⟨.ok (utf8Encode m.1), .ok m.2⟩)

/-- **Manifests read back.** -/
def Toml.ReadsBack {TE : Type} (toml : Toml TE) : Prop :=
  ∀ manifest, ∃ text, toml.toStringFn manifest = .ok text ∧ toml.fromStrFn text = .ok manifest

/-! ## Writing and reading -/

section Bundle

variable {ℓ W B IE TE ξ ε α β : Type}

/-- A program that reads or writes a bundle. -/
abbrev BundleM (ℓ W IE TE ξ α : Type) := Prog ℓ W (BundleError IE TE ξ) α

/-- The result of a call of a library, its error renamed. -/
def orThrow {δ : Type} (f : ε → δ) : Except ε α → Prog ℓ W δ α
  | .ok a => pure a
  | .error e => throw (f e)

@[simp] theorem orThrow_ok {δ : Type} (f : ε → δ) (a : α) :
    (orThrow f (.ok a) : Prog ℓ W δ α) = pure a := rfl

@[simp] theorem orThrow_error {δ : Type} (f : ε → δ) (e : ε) :
    (orThrow f (.error e) : Prog ℓ W δ α) = throw (f e) := rfl

variable (tar : Tar B IE) (toml : Toml TE)

/-- The loop of `write_bundle`, over the items of the iterator. -/
def writeMembers : List (BundleM ℓ W IE TE ξ BundleEntry) → B → BundleM ℓ W IE TE ξ B
  | [], b => pure b
  | item :: items, b => do
    let entry ← item
    let b ← orThrow .io (tar.appendFn b (entriesPrefix ++ entry.path.str) entry.plaintext)
    writeMembers items b

/-- `write_bundle`: the bytes that it leaves in the sink, if it succeeds. -/
def writeBundle (manifest : Manifest) (items : List (BundleM ℓ W IE TE ξ BundleEntry)) :
    BundleM ℓ W IE TE ξ Bytes := do
  let text ← orThrow .encodeManifest (toml.toStringFn manifest)
  let b ← orThrow .io (tar.appendFn tar.builder manifestName (utf8Encode text))
  let b ← writeMembers tar items b
  orThrow .io (tar.finishFn b)

/-- `member_name`. -/
def memberName (member : TarMember IE) : Except (BundleError IE TE ξ) Str :=
  match member.path with
  | .error e => .error (.io e)
  | .ok path =>
    match utf8Decode? path with
    | none => .error .nonUtf8MemberName
    | some name => .ok name

/-- What the loop of `read_bundle` makes of a member. -/
def readEntry (member : TarMember IE) : Except (BundleError IE TE ξ) BundleEntry := do
  let name ← memberName member
  if entriesPrefix <+: name then
    match RelPath.new (name.drop entriesPrefix.length) with
    | .error e => .error (.invalidEntryPath e)
    | .ok path =>
      match member.content with
      | .error e => .error (.io e)
      | .ok plaintext => .ok ⟨path, plaintext⟩
  else .error (.unexpectedMember name)

/-- The loop of `read_bundle`, with what the visitor makes of each entry. -/
def readMembers (visit : BundleEntry → BundleM ℓ W IE TE ξ β) :
    List (Except IE (TarMember IE)) → BundleM ℓ W IE TE ξ (List β)
  | [] => pure []
  | member :: rest => do
    let member ← orThrow .io member
    let entry ← orThrow id (readEntry member)
    let visited ← visit entry
    let others ← readMembers visit rest
    pure (visited :: others)

/-- `read_bundle`. -/
def readBundle (source : Bytes) (preCheck : Manifest → Except (BundleError IE TE ξ) Unit)
    (visit : BundleEntry → BundleM ℓ W IE TE ξ β) : BundleM ℓ W IE TE ξ (Manifest × List β) := do
  match ← orThrow .io (tar.entriesFn source) with
  | [] => throw .missingManifest
  | first :: rest =>
    let first ← orThrow .io first
    let name ← orThrow id (memberName first)
    if name = manifestName then
      let buf ← orThrow .io first.content
      match utf8Decode? buf with
      | none => throw .nonUtf8Manifest
      | some text =>
        let manifest ← orThrow .decodeManifest (toml.fromStrFn text)
        if manifest.format_version = formatVersion then
          orThrow id (preCheck manifest)
          let visited ← readMembers visit rest
          pure (manifest, visited)
        else throw (.incompatibleFormat manifest.format_version formatVersion)
    else throw .missingManifest

/-- `no_pre_check`. -/
def noPreCheck (_ : Manifest) : Except (BundleError IE TE ξ) Unit := .ok ()

/-! ## What was written reads back -/

/-- The member of an entry. -/
def BundleEntry.member (entry : BundleEntry) : Str × Bytes :=
  (entriesPrefix ++ entry.path.str, entry.plaintext)

/-- The members of a bundle. -/
def bundleMembers (manifestText : Str) (entries : List BundleEntry) : List (Str × Bytes) :=
  (manifestName, utf8Encode manifestText) :: entries.map BundleEntry.member

theorem validate_member (entry : BundleEntry) : validate entry.member.1 = .ok () := by
  obtain ⟨hnul, hback, hseg⟩ := validate_eq_ok.1 entry.path.valid
  have hname : entry.member.1 = "entries".toList ++ '/' :: entry.path.str := rfl
  rw [hname, validate_eq_ok]
  refine ⟨by simp [hnul], by simp [hback], fun seg hs => ?_⟩
  rcases mem_splitOn_append.1 hs with hs | hs
  · rw [List.splitOn_eq_singleton (by decide), List.mem_singleton] at hs
    subst hs
    exact ⟨by decide, by decide, by decide⟩
  · exact hseg seg hs

theorem validate_bundleMembers (manifestText : Str) (entries : List BundleEntry) :
    ∀ m ∈ bundleMembers manifestText entries, validate m.1 = .ok () := by
  intro m hm
  rcases List.mem_cons.1 hm with rfl | hm
  · show validate manifestName = .ok ()
    decide
  · obtain ⟨entry, -, rfl⟩ := List.mem_map.1 hm
    exact validate_member entry

/-- A member that was written is read as its entry. -/
theorem readEntry_member (entry : BundleEntry) :
    (readEntry ⟨.ok (utf8Encode entry.member.1), .ok entry.member.2⟩ :
      Except (BundleError IE TE ξ) BundleEntry) = .ok entry := by
  have hname : (memberName ⟨.ok (utf8Encode entry.member.1), .ok entry.member.2⟩ :
      Except (BundleError IE TE ξ) Str) = .ok entry.member.1 := by
    simp only [memberName, utf8Decode?_encode]
  have hdrop : entry.member.1.drop entriesPrefix.length = entry.path.str :=
    List.drop_left
  have hprefix : entriesPrefix <+: entry.member.1 := List.prefix_append _ _
  simp only [readEntry, hname, bind, Except.bind, if_pos hprefix, hdrop,
    RelPath.new_of_valid entry.path.valid]
  rfl

theorem readMembers_members (visit : BundleEntry → BundleM ℓ W IE TE ξ β)
    (entries : List BundleEntry) :
    readMembers visit ((entries.map BundleEntry.member).map fun m =>
      .ok ⟨.ok (utf8Encode m.1), .ok m.2⟩) = entries.mapM visit := by
  induction entries with
  | nil => rfl
  | cons entry entries ih =>
    simp only [List.map_cons, readMembers, orThrow_ok, pure_bind, readEntry_member, ih,
      List.mapM_cons]

variable {tar toml}

/-- **Reading a bundle visits the entries that were written**, in order, and returns the
manifest. -/
theorem readBundle_members {source : Bytes} {manifest : Manifest} {text : Str}
    {entries : List BundleEntry} (hversion : manifest.format_version = formatVersion)
    (htoml : toml.fromStrFn text = .ok manifest)
    (htar : tar.entriesFn source = .ok ((bundleMembers text entries).map fun m =>
      .ok ⟨.ok (utf8Encode m.1), .ok m.2⟩))
    (visit : BundleEntry → BundleM ℓ W IE TE ξ β) :
    readBundle tar toml source noPreCheck visit = (do
      let visited ← entries.mapM visit
      pure (manifest, visited)) := by
  have hname : (memberName ⟨.ok (utf8Encode manifestName), .ok (utf8Encode text)⟩ :
      Except (BundleError IE TE ξ) Str) = .ok manifestName := by
    simp only [memberName, utf8Decode?_encode]
  simp only [readBundle, htar, bundleMembers, List.map_cons, orThrow_ok, pure_bind, hname, if_true,
    utf8Decode?_encode, htoml, hversion, noPreCheck, readMembers_members]

/-! ## What a bundle has visited -/

/-- The entries of members, up to the first that cannot be read, and its error. -/
def decodeMembers : List (Except IE (TarMember IE)) →
    List BundleEntry × Except (BundleError IE TE ξ) Unit
  | [] => ([], .ok ())
  | .error e :: _ => ([], .error (.io e))
  | .ok member :: rest =>
    match readEntry member with
    | .error e => ([], .error e)
    | .ok entry => (entry :: (decodeMembers rest).1, (decodeMembers rest).2)

/-- Reading members visits these entries, and then ends with the error, if there is one. -/
theorem readMembers_eq (visit : BundleEntry → BundleM ℓ W IE TE ξ β)
    (members : List (Except IE (TarMember IE))) :
    readMembers visit members = (do
      let visited ← (decodeMembers members : _ × Except (BundleError IE TE ξ) Unit).1.mapM visit
      orThrow id (decodeMembers members).2
      pure visited) := by
  induction members with
  | nil => rfl
  | cons member members ih =>
    cases member with
    | error e => rfl
    | ok member =>
      simp only [readMembers, orThrow_ok, pure_bind, decodeMembers]
      cases hentry : (readEntry member : Except (BundleError IE TE ξ) BundleEntry) with
      | error e => rfl
      | ok entry =>
        simp only [orThrow_ok, pure_bind, ih, List.mapM_cons, bind_assoc]

variable (tar toml)

/-- The head of a bundle: its manifest, and the members after it. -/
def openBundle (source : Bytes) :
    Except (BundleError IE TE ξ) (Manifest × List (Except IE (TarMember IE))) :=
  match tar.entriesFn source with
  | .error e => .error (.io e)
  | .ok [] => .error .missingManifest
  | .ok (.error e :: _) => .error (.io e)
  | .ok (.ok first :: rest) =>
    match memberName first with
    | .error e => .error e
    | .ok name =>
      if name = manifestName then
        match first.content with
        | .error e => .error (.io e)
        | .ok buf =>
          match utf8Decode? buf with
          | none => .error .nonUtf8Manifest
          | some text =>
            match toml.fromStrFn text with
            | .error e => .error (.decodeManifest e)
            | .ok manifest =>
              if manifest.format_version = formatVersion then .ok (manifest, rest)
              else .error (.incompatibleFormat manifest.format_version formatVersion)
      else .error .missingManifest

/-- Reading a bundle opens it, and then reads its members. -/
theorem readBundle_open (source : Bytes) (preCheck : Manifest → Except (BundleError IE TE ξ) Unit)
    (visit : BundleEntry → BundleM ℓ W IE TE ξ β) :
    readBundle tar toml source preCheck visit = (do
      let opened ← orThrow id (openBundle tar toml source)
      orThrow id (preCheck opened.1)
      let visited ← readMembers visit opened.2
      pure (opened.1, visited)) := by
  unfold readBundle openBundle
  cases tar.entriesFn source with
  | error e => rfl
  | ok members =>
    cases members with
    | nil => rfl
    | cons first rest =>
      cases first with
      | error e => rfl
      | ok first =>
        cases hname : (memberName first : Except (BundleError IE TE ξ) Str) with
        | error e => simp only [orThrow_ok, pure_bind, hname]; rfl
        | ok name =>
          simp only [orThrow_ok, pure_bind, hname]
          split_ifs with hmanifest
          · cases first.content with
            | error e => rfl
            | ok buf =>
              simp only [orThrow_ok, pure_bind]
              cases utf8Decode? buf with
              | none => rfl
              | some text =>
                cases htext : toml.fromStrFn text with
                | error e => simp only [htext]; rfl
                | ok manifest =>
                  simp only [htext, orThrow_ok, pure_bind]
                  split_ifs with hversion
                  · rfl
                  · rfl
          · rfl

/-- What reading a bundle visits, and how it ends. -/
def bundleReading (source : Bytes) : List BundleEntry × Except (BundleError IE TE ξ) Manifest :=
  match openBundle tar toml source with
  | .error e => ([], .error e)
  | .ok (manifest, members) =>
    ((decodeMembers members : _ × Except (BundleError IE TE ξ) Unit).1,
      (decodeMembers members).2.map fun _ => manifest)

/-- **Reading a bundle visits its entries**, in order, up to what cannot be read. -/
theorem readBundle_eq (source : Bytes) (visit : BundleEntry → BundleM ℓ W IE TE ξ β) :
    readBundle tar toml source noPreCheck visit = (do
      let visited ← (bundleReading tar toml source :
        _ × Except (BundleError IE TE ξ) Manifest).1.mapM visit
      let manifest ← orThrow id (bundleReading tar toml source).2
      pure (manifest, visited)) := by
  rw [readBundle_open, bundleReading]
  cases (openBundle tar toml source : Except (BundleError IE TE ξ) _) with
  | error e => rfl
  | ok opened =>
    obtain ⟨manifest, members⟩ := opened
    simp only [orThrow_ok, pure_bind, noPreCheck, readMembers_eq, bind_assoc]
    refine congrArg _ (funext fun visited => ?_)
    cases (decodeMembers members : _ × Except (BundleError IE TE ξ) Unit).2 <;> rfl

/-! ## Bundles that are read to their end -/

/-- The member is there, with this name and content. -/
def readable (m : Str × Bytes) : Except IE (TarMember IE) := .ok ⟨.ok (utf8Encode m.1), .ok m.2⟩

/-- The source is a bundle of these entries, under this manifest. -/
def IsBundle (source : Bytes) (manifest : Manifest) (entries : List BundleEntry) : Prop :=
  manifest.format_version = formatVersion ∧ ∃ text, toml.fromStrFn text = .ok manifest ∧
    tar.entriesFn source = .ok ((bundleMembers text entries).map readable)

theorem memberName_eq_ok {member : TarMember IE} {name : Str} :
    (memberName member : Except (BundleError IE TE ξ) Str) = .ok name ↔
      member.path = .ok (utf8Encode name) := by
  unfold memberName
  cases member.path with
  | error e => simp
  | ok path =>
    cases hname : utf8Decode? path with
    | none =>
      refine iff_of_false (by simp [hname]) fun hpath => ?_
      rw [Except.ok.inj hpath, utf8Decode?_encode] at hname
      cases hname
    | some name' =>
      obtain rfl := utf8Decode?_eq_some.1 hname
      simp only [hname, Except.ok.injEq]
      exact (utf8Encode_injective.eq_iff).symm

/-- What is read as an entry is its member. -/
theorem readable_of_readEntry {member : TarMember IE} {entry : BundleEntry}
    (h : (readEntry member : Except (BundleError IE TE ξ) BundleEntry) = .ok entry) :
    .ok member = (readable entry.member : Except IE (TarMember IE)) := by
  unfold readEntry at h
  cases hname : (memberName member : Except (BundleError IE TE ξ) Str) with
  | error e =>
    rw [hname] at h
    cases h
  | ok name =>
    simp only [hname, bind, Except.bind] at h
    split_ifs at h with hprefix
    obtain ⟨rest, rfl⟩ := hprefix
    rw [List.drop_left] at h
    cases hpath : RelPath.new rest with
    | error e =>
      rw [hpath] at h
      cases h
    | ok path =>
      rw [hpath] at h
      obtain ⟨mpath, mcontent⟩ := member
      cases mcontent with
      | error e => cases h
      | ok plaintext =>
        obtain rfl := Except.ok.inj h
        obtain rfl : mpath = _ := memberName_eq_ok.1 hname
        rw [readable, BundleEntry.member, RelPath.new_eq_ok.1 hpath]

theorem decodeMembers_readable (entries : List BundleEntry) :
    (decodeMembers (entries.map fun e => readable e.member) :
      _ × Except (BundleError IE TE ξ) Unit) = (entries, .ok ()) := by
  induction entries with
  | nil => rfl
  | cons entry entries ih =>
    simp only [readable] at ih
    simp only [List.map_cons, readable, decodeMembers, readEntry_member, ih]

/-- Members that are all read as entries are those of the entries. -/
theorem readable_of_decodeMembers {members : List (Except IE (TarMember IE))}
    (h : (decodeMembers members : _ × Except (BundleError IE TE ξ) Unit).2 = .ok ()) :
    members = (decodeMembers members : _ × Except (BundleError IE TE ξ) Unit).1.map fun e =>
      readable e.member := by
  induction members with
  | nil => rfl
  | cons member members ih =>
    cases member with
    | error e => cases h
    | ok member =>
      simp only [decodeMembers] at h ⊢
      cases hentry : (readEntry member : Except (BundleError IE TE ξ) BundleEntry) with
      | error e =>
        rw [hentry] at h
        cases h
      | ok entry =>
        rw [hentry] at h
        simp only [List.map_cons, ← readable_of_readEntry hentry]
        exact congrArg _ (ih h)

theorem openBundle_eq_ok {source : Bytes} {manifest : Manifest}
    {members : List (Except IE (TarMember IE))} :
    (openBundle tar toml source : Except (BundleError IE TE ξ) _) = .ok (manifest, members) ↔
      manifest.format_version = formatVersion ∧ ∃ text, toml.fromStrFn text = .ok manifest ∧
        tar.entriesFn source = .ok (readable (manifestName, utf8Encode text) :: members) := by
  constructor
  · intro h
    unfold openBundle at h
    split at h
    · cases h
    · cases h
    · cases h
    · rename_i first rest hmembers
      obtain ⟨mpath, mcontent⟩ := first
      split at h
      · cases h
      · rename_i name hname
        obtain rfl : mpath = _ := memberName_eq_ok.1 hname
        split_ifs at h with hmanifest
        subst hmanifest
        cases mcontent with
        | error e => cases h
        | ok buf =>
          simp only at h
          split at h
          · cases h
          · rename_i text htext
            obtain rfl := utf8Decode?_eq_some.1 htext
            split at h
            · cases h
            · rename_i m hm
              split_ifs at h with hversion
              obtain ⟨rfl, rfl⟩ := Prod.mk.inj (Except.ok.inj h)
              exact ⟨hversion, text, hm, hmembers⟩
  · rintro ⟨hversion, text, htext, hmembers⟩
    have hname : (memberName ⟨.ok (utf8Encode manifestName), .ok (utf8Encode text)⟩ :
        Except (BundleError IE TE ξ) Str) = .ok manifestName := memberName_eq_ok.2 rfl
    simp only [openBundle, hmembers, readable, hname, if_true, utf8Decode?_encode, htext, hversion]

/-- **Reading ends well** where the source is a bundle, of the entries that are visited. -/
theorem bundleReading_eq_ok {source : Bytes} {manifest : Manifest} {entries : List BundleEntry} :
    (bundleReading tar toml source : _ × Except (BundleError IE TE ξ) Manifest) =
        (entries, .ok manifest) ↔
      IsBundle tar toml source manifest entries := by
  have hbundle : IsBundle tar toml source manifest entries ↔
      (openBundle tar toml source : Except (BundleError IE TE ξ) _) =
        .ok (manifest, entries.map fun e => readable e.member) := by
    rw [openBundle_eq_ok, IsBundle]
    simp only [bundleMembers, List.map_cons, List.map_map, Function.comp_def]
  rw [hbundle, bundleReading]
  cases hopen : (openBundle tar toml source : Except (BundleError IE TE ξ) _) with
  | error e => simp
  | ok opened =>
    obtain ⟨m, members⟩ := opened
    constructor
    · intro h
      obtain ⟨rfl, hend⟩ := Prod.mk.inj h
      cases hdecode : (decodeMembers members : _ × Except (BundleError IE TE ξ) Unit).2 with
      | error e =>
        rw [hdecode] at hend
        cases hend
      | ok _ =>
        rw [hdecode] at hend
        rw [← Except.ok.inj hend, ← readable_of_decodeMembers hdecode]
    · intro h
      obtain ⟨rfl, rfl⟩ := Prod.mk.inj (Except.ok.inj h)
      simp only [decodeMembers_readable]
      rfl

end Bundle

end Bypass
