import Bypass.Cli.RestoreFaults
import Bypass.Core.Bitwarden
import Bypass.Core.Csv
import Bypass.Core.ImportPaths
import Bypass.Core.KeepassImport

/-!
# Imports that fail

`bypass import` (`import.rs` of the command line) reads a foreign vault, in a format of its own or
from an extension, maps its entries, writes them one by one, and commits. Up to the first write it
only asks. Nothing is undone when a later call fails.

* `asking_gather`: reading a source only asks.
* `fails_writeImported`: how the loop and the commit fail.
* **`Import.failed_import_iff`**: when an import that fails has left the store's entries as they
  were.
-/

namespace Bypass.Import

open Prog

variable {W CE SE VE X : Type}

/-! ## Extensions -/

/-- `WireEntry`. -/
structure WireEntry where
  folder : List Str
  name : Str
  password : Str
  username : Option Str
  fields : List (Str × Str)
  totp : Option Str
  notes : Option Str
  uris : List Str

/-- `From<WireEntry> for ImportedEntry`. -/
def WireEntry.into (w : WireEntry) : ImportedEntry :=
  ⟨w.folder, w.name, utf8Encode w.password, Bitwarden.nonEmpty w.username, w.fields,
    Bitwarden.nonEmpty w.totp, Bitwarden.nonEmpty w.notes, w.uris⟩

/-- A child process that was spawned: what `read_line` yields of its output, until the end, and what
waiting for it then yields, the exit code if it exited. -/
structure Child (X : Type) where
  stdout : List (Except X Str)
  wait : Except X (Option ℤ)

/-- The errors of `run_extension`; those of the system and of libraries are `X`. -/
inductive ExtensionError (X : Type) where
  | invalidName (name : Str)
  | spawn (e : X)
  | readLine (e : X)
  | parseLine (lineno : ℕ) (e : X)
  | wait (e : X)
  | exited (name : Str) (code : ℤ)

/-- The loop of `read_ndjson_stream`, after `lineno` lines. -/
def readNdjsonStream (decodeWire : Str → Except X WireEntry) :
    ℕ → List (Except X Str) → Except (ExtensionError X) (List ImportedEntry)
  | _, [] => .ok []
  | lineno, line :: rest => do
    let line ← line.mapError .readLine
    if trim line = [] then readNdjsonStream decodeWire (lineno + 1) rest
    else
      let wire ← (decodeWire (trim line)).mapError (.parseLine (lineno + 1))
      let entries ← readNdjsonStream decodeWire (lineno + 1) rest
      pure (wire.into :: entries)

/-- What `run_extension` does with the child: its entries, if it exited with success. -/
def collectChild (decodeWire : Str → Except X WireEntry) (name : Str) (child : Child X) :
    Except (ExtensionError X) (List ImportedEntry) := do
  let entries ← readNdjsonStream decodeWire 0 child.stdout
  let status ← child.wait.mapError .wait
  if status ≠ some 0 then .error (.exited name (status.getD (-1))) else pure entries

/-! ## Sources -/

/-- `Format`. -/
inductive Format where
  | bitwarden
  | csv
  | keepass
  deriving DecidableEq

/-- What an import uses besides the store: the source file, the libraries that parse it, the
extension of a name, and the opening of the store. `debug` is the standard library's `{:?}`. -/
structure Outside (W CE SE VE X : Type) where
  readSource : Prog (Event CE SE VE) W X Bytes
  csvRecords : Bytes → Bool → List (Except X (List Str))
  decodeExport : Bytes → Except X Bitwarden.Export
  parseXml : Str → Except X Keepass.XmlNode
  decodeWire : Str → Except X WireEntry
  spawn : Str → Prog (Event CE SE VE) W X (Child X)
  openStore : Prog (Event CE SE VE) W X Unit
  debug : Str → Str

/-- The errors of `import::run`. The panic of `prepare` is one of them. -/
inductive RunError (CE SE VE X : Type) where
  | bothSources
  | noSource
  | readSource (e : X)
  | schemaNotApplicable (flag : Str)
  | schemaRequired
  | parseBitwarden (e : Bitwarden.BitwardenError X)
  | parseSchema (e : Csv.CsvError X)
  | parseCsv (e : Csv.CsvError X)
  | parseKeepass (e : Keepass.KeepassError X)
  | extension (name : Str) (e : ExtensionError X)
  | noEntries
  | openStore (e : X)
  | store (e : StoreError CE SE VE)
  | prepare (e : ImportError)
  | panicked

/-- The context that an error is reported under; those of the store have none. -/
def RunError.context (source : Str) : RunError CE SE VE X → Option Str
  | bothSources => some "--format and --from-ext are mutually exclusive".toList
  | noSource =>
    some "specify either --format=<bitwarden|csv|keepass> or --from-ext=<name>".toList
  | readSource _ => some ("read import source ".toList ++ source)
  | schemaNotApplicable flag => some ("--csv-schema is not applicable to ".toList ++ flag)
  | schemaRequired => some "--format=csv requires --csv-schema".toList
  | parseBitwarden _ => some "parse Bitwarden export".toList
  | parseSchema _ => some "parse --csv-schema".toList
  | parseCsv _ => some "parse CSV import".toList
  | parseKeepass _ => some "parse KeePass XML export".toList
  | extension name _ => some ("invoke importer extension `".toList ++ name ++ ['\x60'])
  | noEntries => some "source contained no importable entries".toList
  | prepare _ => some "canonical-mapping import entries".toList
  | openStore _ | store _ | panicked => none

/-- A program of the import. -/
abbrev ImportM (W CE SE VE X α : Type) := Prog (Event CE SE VE) W (RunError CE SE VE X) α

/-- What a source comes to: its entries, what the parser reports, and the label of the source. -/
abbrev Source := List ImportedEntry × List LossinessNote × Str

/-- `parse_in_tree`. -/
def parseInTree (o : Outside W CE SE VE X) (format : Format) (bytes : Bytes)
    (csvSchema : Option Str) (csvHasHeader : Bool) : Except (RunError CE SE VE X) Source :=
  match format with
  | .bitwarden => do
    if csvSchema.isSome then .error (.schemaNotApplicable "--format=bitwarden".toList)
    else
      let (e, r) ← (Bitwarden.parse o.decodeExport bytes).mapError .parseBitwarden
      pure (e, r, "Bitwarden".toList)
  | .csv =>
    match csvSchema with
    | none => .error .schemaRequired
    | some spec => do
      let schema ← (Csv.CsvSchema.parse spec).mapError .parseSchema
      let (e, r) ←
        (Csv.parse schema csvHasHeader (o.csvRecords bytes csvHasHeader)).mapError .parseCsv
      pure (e, r, "CSV".toList)
  | .keepass => do
    if csvSchema.isSome then .error (.schemaNotApplicable "--format=keepass".toList)
    else
      let (e, r) ← (Keepass.parse o.parseXml bytes).mapError .parseKeepass
      pure (e, r, "KeePass".toList)

/-- `run_extension`. -/
def runExtension (o : Outside W CE SE VE X) (name : Str) :
    Prog (Event CE SE VE) W (ExtensionError X) (List ImportedEntry) :=
  if name = [] ∨ '/' ∈ name ∨ '\\' ∈ name ∨ name = ['.', '.'] then throw (.invalidName name)
  else do
    let child ← (o.spawn name).mapErr .spawn
    orThrow id (collectChild o.decodeWire name child)

/-- The first half of `import::run`. -/
def gather (o : Outside W CE SE VE X) (format : Option Format) (fromExt csvSchema : Option Str)
    (csvHasHeader : Bool) : ImportM W CE SE VE X Source :=
  match format, fromExt with
  | some _, some _ => throw .bothSources
  | none, none => throw .noSource
  | some format, none => do
    let bytes ← o.readSource.mapErr .readSource
    orThrow id (parseInTree o format bytes csvSchema csvHasHeader)
  | none, some name =>
    if csvSchema.isSome then throw (.schemaNotApplicable "--from-ext".toList)
    else do
      let entries ← (runExtension o name).mapErr (.extension name)
      pure (entries, [], "ext:".toList ++ name)

/-! ## The import -/

variable (store : Store W CE SE VE)

/-- The message of the commit. -/
def importMessage (n : ℕ) (label : Str) : Str :=
  "bypass: Import ".toList ++ Nat.toDigits 10 n ++ " entries from ".toList ++ label

/-- The loop of `import::run`, and its commit; the result is how many entries were written. -/
def writeImported (prepared : List PreparedEntry) (label : Str) : ImportM W CE SE VE X ℕ := do
  let blobs ← (store.insertAll prepared).mapErr .store
  if blobs ≠ [] then
    (store.commitChanges blobs (importMessage blobs.length label)).mapErr .store
    pure blobs.length
  else pure blobs.length

/-- The second half of `import::run`, on the entries of a source. -/
def importEntries (o : Outside W CE SE VE X) (source : Source) :
    ImportM W CE SE VE X (ℕ × List LossinessNote) := do
  let (entries, report, label) := source
  if entries = [] then throw .noEntries
  else
    o.openStore.mapErr .openStore
    let existing ← (store.list none).mapErr .store
    match prepare o.debug entries existing with
    | none => throw .panicked
    | some (.error e) => throw (.prepare e)
    | some (.ok (prepared, mappingReport)) =>
      let n ← writeImported store prepared label
      pure (n, report ++ mappingReport)

/-- `import::run`. The result is what it prints: how many entries were imported, and the report. -/
def run (o : Outside W CE SE VE X) (format : Option Format) (fromExt csvSchema : Option Str)
    (csvHasHeader : Bool) : ImportM W CE SE VE X (ℕ × List LossinessNote) := do
  let source ← gather o format fromExt csvSchema csvHasHeader
  importEntries store o source

/-! ## What a failure leaves -/

section Failures

variable {store} {files : W → Files} {Opens : Bytes → Bytes → Prop}

/-- The entry is there, and opens to the plaintext. -/
def OpensTo (Opens : Bytes → Bytes → Prop) (f : Files) (e : RelPath) (plaintext : Bytes) : Prop :=
  ∃ c, f (entryToBlob e) = some c ∧ Opens c plaintext

/-- The files have the same entries, with the same plaintexts. -/
def SameEntries (Opens : Bytes → Bytes → Prop) (f g : Files) : Prop :=
  ∀ e, (f (entryToBlob e) = none ↔ g (entryToBlob e) = none) ∧
    ∀ plaintext, OpensTo Opens f e plaintext ↔ OpensTo Opens g e plaintext

/-- Some write of the trace succeeded. -/
def Written (tr : Trace W CE SE VE) : Prop := ∃ call ∈ tr, ∃ q d, call.ev = .write q d (.ok ())

theorem written_append {tr tr' : Trace W CE SE VE} :
    Written (tr ++ tr') ↔ Written tr ∨ Written tr' := by
  simp only [Written, List.mem_append, or_and_right, exists_or]

theorem not_written_nil : ¬ Written ([] : Trace W CE SE VE) := by simp [Written]

/-- Calls that ask do not write. -/
theorem not_written_of_asked {tr : Trace W CE SE VE} (h : Asked files tr) :
    ¬ Written tr := by
  rintro ⟨call, hcall, q, d, hev⟩
  have hchanges := (h call hcall).1
  rw [hev] at hchanges
  cases hchanges

/-- Something was written, and an entry is there that was not. -/
def Begun (files : W → Files) (s : W) (tr : Trace W CE SE VE) (t : W) : Prop :=
  Written tr ∧ ∃ e, files s (entryToBlob e) = none ∧ files t (entryToBlob e) ≠ none

/-- Nothing was written, and the files are as they were. -/
def Untouched (files : W → Files) (s : W) (tr : Trace W CE SE VE) (t : W) : Prop :=
  ¬ Written tr ∧ files t = files s

/-- **A program that halts clean or begun**: when it fails, it has changed nothing, or has begun. -/
def Halting {ε α : Type} (files : W → Files) (p : Prog (Event CE SE VE) W ε α) (s : W) : Prop :=
  p.wp (fun r tr t => ∀ e, r = .error e → Untouched files s tr t ∨ Begun files s tr t) s

section Rules

variable {ε δ α β : Type} {s : W}

theorem halting_throw (e : ε) : Halting files (throw e : Prog (Event CE SE VE) W ε α) s :=
  fun _ _ => Or.inl ⟨not_written_nil, rfl⟩

/-- A program that asks keeps the files. -/
theorem keeps_files {p : Prog (Event CE SE VE) W ε α}
    (hp : p.Steps (Asking fun s t => files t = files s)) (s : W) :
    files (p.run s).2 = files s :=
  @Asking.keeps _ _ _ _ (fun s t => files t = files s) (fun _ => rfl)
    (fun _ _ _ hst htu => htu.trans hst) _ _ p hp s

/-- What a program that asks leaves to the next one. -/
theorem halting_bind_asking {p : Prog (Event CE SE VE) W ε α}
    {f : α → Prog (Event CE SE VE) W ε β}
    (hp : p.Steps (Asking fun s t => files t = files s)) {P : α → W → Prop}
    (hP : p.wp (fun r _ t => ∀ a, r = .ok a → P a t) s)
    (hf : ∀ a t, files t = files s → P a t → Halting files (f a) t) :
    Halting files (p >>= f) s := by
  have hasked : p.wp (fun _ tr t => Asked files tr ∧ files t = files s) s :=
    ⟨hp.trace s, keeps_files hp s⟩
  refine wp_bind.2 (wp_mono (wp_and hasked hP) ?_)
  rintro r tr t ⟨⟨htr, ht⟩, hr⟩
  cases r with
  | error e => exact fun _ _ => Or.inl ⟨(not_written_of_asked htr), ht⟩
  | ok a =>
    refine wp_mono (hf a t ht (hr a rfl)) fun r tr' u hu e he => ?_
    rcases hu e he with ⟨hnone, hsame⟩ | ⟨hwritten, e', hnew, hthere⟩
    · refine Or.inl ⟨fun h => ?_, hsame.trans ht⟩
      exact (written_append.1 h).elim (not_written_of_asked htr) hnone
    · refine Or.inr ⟨written_append.2 (Or.inr hwritten), e', ?_, hthere⟩
      rw [← ht]
      exact hnew

theorem Halting.mapErr {g : ε → δ} {p : Prog (Event CE SE VE) W ε α} (h : Halting files p s) :
    Halting files (p.mapErr g) s := by
  refine wp_mapErr.2 (wp_mono h fun r tr t hr e he => ?_)
  cases r with
  | ok a => cases he
  | error e' => exact hr e' rfl

/-- What follows cannot fail. -/
theorem Halting.bind_pure {p : Prog (Event CE SE VE) W ε α} (h : Halting files p s) (f : α → β) :
    Halting files (p >>= fun a => pure (f a)) s := by
  refine wp_bind.2 (wp_mono h fun r tr t hr => ?_)
  cases r with
  | error e => exact fun e' he => hr e rfl
  | ok a => exact fun e he => nomatch he

end Rules

/-! ## The loop -/

section Loop

variable (h : OnMap store files)
include h

/-- An insertion touches its own blob only, which is there when it succeeds. -/
theorem insertNoCommit_frame (entry : RelPath) (plaintext : Bytes) (s : W) :
    (store.insertNoCommit entry plaintext).wp (fun r _ t =>
      (∀ q, q ≠ entryToBlob entry → files t q = files s q) ∧
        ∀ blob, r = .ok blob → files t (entryToBlob entry) ≠ none) s := by
  refine wp_mono (insertNoCommit_ends h entry plaintext s) fun r tr t hend => ?_
  cases hend with
  | refused _ ht => exact ⟨fun q _ => congrFun ht q, nofun⟩
  | @removeFailed e e' asked u t _ hu hremove =>
    have hframe := h.remove_frame (entryToBlob entry) u
    rw [hremove, hu] at hframe
    exact ⟨hframe, nofun⟩
  | @writeFailed e e' c asked u v t _ hu hremove hwrite =>
    have hframe := h.write_frame (entryToBlob entry) c v
    have hframe' := h.remove_frame (entryToBlob entry) u
    rw [hwrite] at hframe
    rw [hremove, hu] at hframe'
    exact ⟨fun q hq => (hframe q hq).trans (hframe' q hq), nofun⟩
  | @done c rs w asked u v t _ hu _ _ hremove hwrite =>
    have hframe := h.write_frame (entryToBlob entry) c v
    have hframe' := h.remove_frame (entryToBlob entry) u
    have ht := h.write_ok (entryToBlob entry) c v (congrArg Prod.fst hwrite)
    rw [hwrite] at hframe ht
    rw [hremove, hu] at hframe'
    refine ⟨fun q hq => (hframe q hq).trans (hframe' q hq), fun _ _ => ?_⟩
    rw [ht, Function.update_self]
    exact Option.some_ne_none c

/-- An insertion at a new path writes, or changes nothing. -/
theorem insertNoCommit_new (hs : Shreds store files Opens) {entry : RelPath} (plaintext : Bytes)
    {s : W} (hnew : files s (entryToBlob entry) = none) :
    (store.insertNoCommit entry plaintext).wp (fun r tr t =>
      (∀ blob, r = .ok blob → Written tr) ∧ ∀ e, r = .error e → Untouched files s tr t) s := by
  refine wp_mono (insertNoCommit_ends h entry plaintext s) fun r tr t hend => ?_
  cases hend with
  | refused hasked ht => exact ⟨nofun, fun _ _ => ⟨(not_written_of_asked hasked), ht⟩⟩
  | @removeFailed e e' asked u t hasked hu hremove =>
    have hframe := h.remove_frame (entryToBlob entry) u
    have hfails := hs.remove_fails (entryToBlob entry) u e' (congrArg Prod.fst hremove)
    rw [hremove, hu] at hframe hfails
    refine ⟨nofun, fun _ _ => ⟨?_, funext fun q => ?_⟩⟩
    · rw [written_append, not_or]
      refine ⟨(not_written_of_asked hasked), ?_⟩
      rintro ⟨call, hcall, q, d, hev⟩
      rw [List.mem_singleton.1 hcall] at hev
      cases hev
    · by_cases hq : q = entryToBlob entry
      · rw [hq]
        exact hfails.resolve_right fun hruin => hruin.1 hnew
      · exact hframe q hq
  | @writeFailed e e' c asked u v t hasked hu hremove hwrite =>
    have hframe := h.write_frame (entryToBlob entry) c v
    have hfails := hs.write_fails (entryToBlob entry) c v e' (congrArg Prod.fst hwrite)
    have hv := h.remove_ok (entryToBlob entry) u (congrArg Prod.fst hremove)
    rw [hremove, hu, Function.update_eq_self_iff.2 hnew.symm] at hv
    rw [hwrite, hv] at hframe hfails
    refine ⟨nofun, fun _ _ => ⟨?_, funext fun q => ?_⟩⟩
    · rw [written_append, not_or]
      refine ⟨(not_written_of_asked hasked), ?_⟩
      rintro ⟨call, hcall, q, d, hev⟩
      rcases List.mem_pair.1 hcall with rfl | rfl <;> cases hev
    · by_cases hq : q = entryToBlob entry
      · rw [hq]
        exact hfails
      · exact hframe q hq
  | @done c rs w asked u v t _ _ _ _ _ _ =>
    refine ⟨fun _ _ => written_append.2 (Or.inr ?_), nofun⟩
    exact ⟨_, List.mem_cons_of_mem _ (List.mem_singleton_self _), _, _, rfl⟩

/-- The loop, when it fails, has lost at most one of the entries that were there. -/
theorem insertAll_keeps (prepared : List PreparedEntry) {entries : List RelPath} {s : W}
    (hthere : ∀ e ∈ entries, files s (entryToBlob e) ≠ none) :
    (store.insertAll prepared).wp (fun r _ t =>
      (∀ blobs, r = .ok blobs → ∀ e ∈ entries, files t (entryToBlob e) ≠ none) ∧
        ∃ lost, ∀ e ∈ entries, e ≠ lost → files t (entryToBlob e) ≠ none) s := by
  induction prepared generalizing s with
  | nil => exact ⟨fun _ _ => hthere, gpgIdPath, fun e he _ => hthere e he⟩
  | cons entry rest ih =>
    unfold Store.insertAll
    refine wp_bind.2 (wp_mono (insertNoCommit_frame h entry.path entry.body s) ?_)
    rintro r tr u ⟨hframe, hok⟩
    have hothers : ∀ e ∈ entries, e ≠ entry.path → files u (entryToBlob e) ≠ none := by
      intro e he hne
      rw [hframe _ fun hblob => hne (entryToBlob_injective hblob)]
      exact hthere e he
    cases r with
    | error e => exact ⟨by simp, entry.path, hothers⟩
    | ok blob =>
      have hthere' : ∀ e ∈ entries, files u (entryToBlob e) ≠ none := by
        intro e he
        by_cases hpath : e = entry.path
        · rw [hpath]
          exact hok blob rfl
        · exact hothers e he hpath
      refine wp_bind.2 (wp_mono (ih hthere') fun r tr' t ht => ?_)
      cases r with
      | error e => exact ⟨by simp, ht.2⟩
      | ok blobs => exact ⟨fun _ _ => ht.1 blobs rfl, ht.2⟩

/-- After an entry is there, one of it and those of the loop stays, however the loop ends: the loop
starts with another one. -/
theorem insertAll_remains {a : RelPath} {rest : List PreparedEntry} {s : W}
    (ha : files s (entryToBlob a) ≠ none) (hab : ∀ b ∈ rest.head?, a ≠ b.path) :
    (store.insertAll rest).wp (fun _ _ t =>
      ∃ e ∈ a :: rest.map PreparedEntry.path, files t (entryToBlob e) ≠ none) s := by
  cases rest with
  | nil => exact ⟨a, List.mem_cons_self, ha⟩
  | cons b rest =>
    have hne : a ≠ b.path := hab b rfl
    unfold Store.insertAll
    refine wp_bind.2 (wp_mono (insertNoCommit_frame h b.path b.body s) ?_)
    rintro r tr u ⟨hframe, hb⟩
    have hau : files u (entryToBlob a) ≠ none := by
      rw [hframe _ fun hblob => hne (entryToBlob_injective hblob)]
      exact ha
    cases r with
    | error e => exact ⟨a, List.mem_cons_self, hau⟩
    | ok blob =>
      have hboth : ∀ e ∈ [a, b.path], files u (entryToBlob e) ≠ none :=
        List.forall_mem_cons.2 ⟨hau, List.forall_mem_singleton.2 (hb blob rfl)⟩
      refine wp_bind.2 (wp_mono (insertAll_keeps h rest hboth) ?_)
      rintro r tr' t ⟨-, lost, hkept⟩
      -- at most one of the two is lost
      have hone : ∃ e ∈ a :: (b :: rest).map PreparedEntry.path,
          files t (entryToBlob e) ≠ none := by
        by_cases hlost : a = lost
        · have hb' : b.path ≠ lost := fun he => hne (hlost.trans he.symm)
          exact ⟨b.path, by simp, hkept b.path (by simp) hb'⟩
        · exact ⟨a, by simp, hkept a (by simp) hlost⟩
      cases r with
      | error e => exact hone
      | ok blobs => exact hone

/-- **How the loop ends** on entries that are not there, the first two of them at different paths:
it has begun, unless it failed on the first one or there is none. -/
theorem insertAll_begun (hs : Shreds store files Opens) {prepared : List PreparedEntry} {s : W}
    (hnew : ∀ entry ∈ prepared, files s (entryToBlob entry.path) = none)
    (hfirst : ∀ a b rest, prepared = a :: b :: rest → a.path ≠ b.path) :
    (store.insertAll prepared).wp (fun r tr t =>
      (∀ blobs, r = .ok blobs → blobs ≠ [] → Begun files s tr t) ∧
        ∀ e, r = .error e → Untouched files s tr t ∨ Begun files s tr t) s := by
  cases prepared with
  | nil => exact ⟨fun blobs hblobs hne => absurd (Except.ok.inj hblobs).symm hne,
      fun e he => by cases he⟩
  | cons a rest =>
    have ha := hnew a List.mem_cons_self
    unfold Store.insertAll
    refine wp_bind.2 (wp_mono (wp_and (insertNoCommit_new h hs a.body ha)
      (insertNoCommit_frame h a.path a.body s)) ?_)
    rintro r tr u ⟨⟨hwritten, hfails⟩, -, hthere⟩
    cases r with
    | error e => exact ⟨by simp, fun e' he => Or.inl (hfails e rfl)⟩
    | ok blob =>
      have hab : ∀ b ∈ rest.head?, a.path ≠ b.path := by
        intro b hb
        obtain ⟨rest', rfl⟩ := List.head?_eq_some_iff.1 hb
        exact hfirst a b rest' rfl
      have hremains := insertAll_remains h (hthere blob rfl) hab
      refine wp_bind.2 (wp_mono hremains ?_)
      rintro r tr' t ⟨e, he, ht⟩
      have hs : files s (entryToBlob e) = none := by
        rcases List.mem_cons.1 he with rfl | he
        · exact ha
        · obtain ⟨entry, hentry, rfl⟩ := List.mem_map.1 he
          exact hnew entry (List.mem_cons_of_mem _ hentry)
      have hbegun : ∀ tr'', Begun files s (tr ++ (tr' ++ tr'')) t := fun tr'' =>
        ⟨written_append.2 (Or.inl (hwritten blob rfl)), e, hs, ht⟩
      cases r with
      | error e' =>
        have hend := hbegun []
        rw [List.append_nil] at hend
        exact ⟨by simp, fun _ _ => Or.inr hend⟩
      | ok blobs => exact ⟨fun _ _ _ => hbegun [], by simp⟩

/-- The loop and the commit. -/
theorem halting_writeImported (hs : Shreds store files Opens) {prepared : List PreparedEntry}
    {label : Str} {s : W} (hnew : ∀ entry ∈ prepared, files s (entryToBlob entry.path) = none)
    (hfirst : ∀ a b rest, prepared = a :: b :: rest → a.path ≠ b.path) :
    Halting files (writeImported store prepared label : ImportM W CE SE VE X ℕ) s := by
  unfold writeImported
  refine wp_bind.2 (wp_mapErr.2 (wp_mono (insertAll_begun h hs hnew hfirst) ?_))
  rintro r tr t ⟨hok, hfails⟩
  cases r with
  | error e => exact fun _ _ => hfails e rfl
  | ok blobs =>
    dsimp only [Except.mapError]
    split_ifs with hblobs
    · -- a commit keeps the files, also when it fails
      have hcommit := h.commit_files blobs (importMessage blobs.length label) t
      refine wp_bind.2 (wp_mapErr.2 (wp_mapErr.2 (wp_call.2 ?_)))
      obtain ⟨hwritten, e, hnone, hthere⟩ := hok blobs rfl hblobs
      rcases hrun : store.vcs.commitFn blobs (importMessage blobs.length label) t with ⟨r, u⟩
      rw [hrun] at hcommit
      cases r with
      | error e' =>
        refine fun _ _ => Or.inr ⟨written_append.2 (Or.inl hwritten), e, hnone, ?_⟩
        rw [hcommit]
        exact hthere
      | ok _ => exact fun _ he => nomatch he
    · exact fun _ he => nomatch he

end Loop

/-! ## Whole imports -/

/-- What an import uses besides the store only asks: it keeps the files of the store. -/
structure Outside.Asks (o : Outside W CE SE VE X) (files : W → Files) : Prop where
  readSource : o.readSource.Steps (Asking fun s t => files t = files s)
  spawn : ∀ name, (o.spawn name).Steps (Asking fun s t => files t = files s)
  openStore : o.openStore.Steps (Asking fun s t => files t = files s)

theorem steps_orThrow {ℓ ε δ α : Type} {Q : ℓ → W → W → Prop} (f : ε → δ) (x : Except ε α) :
    (orThrow f x : Prog ℓ W δ α).Steps Q := by
  cases x with
  | ok a => exact steps_pure a
  | error e => exact steps_throw (f e)

/-- **Reading a source only asks.** -/
theorem asking_gather {o : Outside W CE SE VE X} (ho : o.Asks files) (format : Option Format)
    (fromExt csvSchema : Option Str) (csvHasHeader : Bool) :
    (gather o format fromExt csvSchema csvHasHeader).Steps
      (Asking fun s t => files t = files s) := by
  cases format with
  | some format =>
    cases fromExt with
    | some name => exact steps_throw _
    | none => exact ho.readSource.mapErr.bind fun bytes => steps_orThrow _ _
  | none =>
    cases fromExt with
    | none => exact steps_throw _
    | some name =>
      unfold gather
      split_ifs
      · exact steps_throw _
      · refine Steps.bind (Steps.mapErr ?_) fun entries => steps_pure _
        unfold runExtension
        split_ifs
        · exact steps_throw _
        · exact (ho.spawn name).mapErr.bind fun child => steps_orThrow _ _

/-- The first two paths of a batch differ: the second is numbered if it has to be. -/
theorem finalPaths_first {desired : List RelPath} {p q : RelPath} {rest : List RelPath}
    (h : finalPaths ∅ desired = p :: q :: rest) : p ≠ q := by
  have hone : (0 + 1) % 2 ^ 32 = 1 := by norm_num
  have htwo : (1 + 1) % 2 ^ 32 = 2 := by norm_num
  cases desired with
  | nil => cases h
  | cons a desired =>
    cases desired with
    | nil => cases (List.cons.inj h).2
    | cons b desired =>
      rw [finalPaths, finalPaths] at h
      simp only [Std.ExtTreeMap.getD_empty, hone, if_true, Std.ExtTreeMap.getD_insert] at h
      obtain ⟨rfl, htail⟩ := List.cons.inj h
      obtain ⟨rfl, -⟩ := List.cons.inj htail
      by_cases hab : a = b
      · subst hab
        rw [if_pos Std.ReflCmp.compare_self, htwo, if_neg (by omega)]
        intro heq
        have hlength := congrArg (fun path : RelPath => path.str.length) heq
        simp [suffixed] at hlength
      · rw [if_neg fun hc => hab (Std.LawfulEqOrd.compare_eq_iff_eq.1 hc), hone, if_pos rfl]
        exact hab

/-- The entries of a source. -/
theorem halting_importEntries (h : OnMap store files) (hs : Shreds store files Opens)
    {o : Outside W CE SE VE X} (ho : o.Asks files) (source : Source) (s : W) :
    Halting files (importEntries store o source) s := by
  obtain ⟨entries, report, label⟩ := source
  unfold importEntries
  dsimp only
  split_ifs
  · exact halting_throw _
  · refine halting_bind_asking ho.openStore.mapErr (P := fun _ _ => True) ?_ fun _ t _ _ => ?_
    · exact fun _ _ => trivial
    · refine halting_bind_asking (asking_list h.calm none).mapErr
        (P := fun existing u => Listed (files u) none existing) ?_ fun existing u hu hlisted => ?_
      · refine wp_mapErr.2 (wp_mono (list_asks h none) ?_)
        rintro r tr u ⟨-, hu, hr⟩ existing hok
        cases r with
        | error e => cases hok
        | ok l =>
          rw [hu, ← Except.ok.inj hok]
          exact hr.2
      · rcases hprepare : prepare o.debug entries existing with _ | e | ⟨prepared, mapping⟩
        · exact halting_throw _
        · exact halting_throw _
        · obtain ⟨desired, -, hpaths, hnew, -⟩ := prepare_eq_ok hprepare
          refine (halting_writeImported h hs ?_ ?_).bind_pure _
          · intro entry hentry
            have hpath : entry.path ∈ finalPaths ∅ desired :=
              hpaths ▸ List.mem_map_of_mem hentry
            have habsent := hnew entry.path hpath
            rw [hlisted.2.2] at habsent
            simpa using habsent
          · rintro a b rest rfl
            exact finalPaths_first hpaths.symm

/-- **Every import halts** with nothing changed, or with an entry that was not there. -/
theorem halting_run (h : OnMap store files) (hs : Shreds store files Opens)
    {o : Outside W CE SE VE X} (ho : o.Asks files) (format : Option Format)
    (fromExt csvSchema : Option Str) (csvHasHeader : Bool) (s : W) :
    Halting files (run store o format fromExt csvSchema csvHasHeader) s := by
  refine halting_bind_asking (asking_gather ho format fromExt csvSchema csvHasHeader)
    (P := fun _ _ => True) (fun _ _ => trivial) fun source t _ _ => ?_
  exact halting_importEntries h hs ho source t

theorem sameEntries_refl (f : Files) : SameEntries Opens f f := fun _ => ⟨Iff.rfl, fun _ => Iff.rfl⟩

/-- A program that has failed, and halts clean or begun. -/
theorem Halting.sameEntries_iff {ε α : Type} {p : Prog (Event CE SE VE) W ε α} {s t : W} {e : ε}
    (h : Halting files p s) (hrun : p.run s = (.error e, t)) :
    SameEntries Opens (files s) (files t) ↔ ¬ Written (p.trace s) := by
  have hend := h
  rw [Halting, wp, hrun] at hend
  rcases hend e rfl with ⟨hnone, hsame⟩ | ⟨hwritten, e', habsent, hthere⟩
  · rw [hsame]
    exact iff_of_true (sameEntries_refl _) hnone
  · exact iff_of_false (fun hsame => hthere ((hsame e').1.1 habsent)) (not_not.2 hwritten)

/-- **When an import that fails has changed nothing**: when it fails before its first write has
succeeded. Then every entry is as it was; otherwise an entry is there that was not. -/
theorem failed_import_iff (h : OnMap store files) (hs : Shreds store files Opens)
    {o : Outside W CE SE VE X} (ho : o.Asks files) {format : Option Format}
    {fromExt csvSchema : Option Str} {csvHasHeader : Bool} {s t : W} {e : RunError CE SE VE X}
    (hrun : (run store o format fromExt csvSchema csvHasHeader).run s = (.error e, t)) :
    SameEntries Opens (files s) (files t) ↔
      ¬ Written ((run store o format fromExt csvSchema csvHasHeader).trace s) :=
  (halting_run h hs ho format fromExt csvSchema csvHasHeader s).sameEntries_iff hrun

end Failures

/-! ## A disk with room for one entry -/

/-- A storage in memory, on a disk with room for two files: a write to a full disk fails, and
nothing else does. -/
def smallStorage : Storage MemFiles NoSpace where
  readFn path w := (.ok w[path]?, w)
  writeFn path data w := if w.size < 2 then (.ok (), w.insert path data) else (.error .noSpace, w)
  removeFn path w := (.ok (), w.erase path)
  existsFn path w := (.ok (w.contains path), w)
  listFn dir w := (.ok (w.keys.filter fun q => dir.all fun p => decide (p.Below q)), w)

def smallStore : Store MemFiles TaggedError NoSpace Empty where
  crypto := taggedCrypto
  storage := smallStorage
  vcs := noVcs

theorem smallStore_write (p : RelPath) (d : Bytes) (w : MemFiles) :
    smallStore.storage.writeFn p d w =
      if w.size < 2 then (.ok (), w.insert p d) else (.error .noSpace, w) := rfl

theorem smallStore_onMap : OnMap smallStore memFiles where
  encrypt_files _ _ _ := rfl
  decrypt_files c w := memStore_onMap.decrypt_files c w
  read_files _ _ := rfl
  read_ok _ _ _ hv := (Except.ok.inj hv).symm
  write_frame p d w q hq := by
    rw [smallStore_write]
    split_ifs
    · exact memStore_onMap.write_frame p d w q hq
    · rfl
  write_ok p d w hok := by
    rw [smallStore_write] at hok ⊢
    split_ifs at hok ⊢ with hroom
    · exact memFiles_insert w p d
  remove_frame p w := memStore_onMap.remove_frame p w
  remove_ok p w _ := memFiles_erase w p
  exists_files _ _ := rfl
  exists_ok p w b hb := memStore_onMap.exists_ok p w b (congrArg Except.ok (Except.ok.inj hb))
  list_files _ _ := rfl
  list_nodup d w l hl := memStore_onMap.list_nodup d w l (congrArg Except.ok (Except.ok.inj hl))
  mem_list d w l hl := memStore_onMap.mem_list d w l (congrArg Except.ok (Except.ok.inj hl))
  commit_files _ _ _ := rfl

theorem smallStore_shreds : Shreds smallStore memFiles TaggedOpens where
  encrypts _ _ _ _ := taggedOpens_encrypt
  write_fails p d w e hfail := by
    rw [smallStore_write] at hfail ⊢
    split_ifs at hfail ⊢
    · rfl
  remove_fails _ _ _ hfail := nomatch hfail

/-- A CSV file with two rows. -/
def twoRows : Outside MemFiles TaggedError NoSpace Empty Unit where
  readSource := pure (utf8Encode "a,1\nb,2\n".toList)
  csvRecords _ _ := [.ok ["a".toList, "1".toList], .ok ["b".toList, "2".toList]]
  decodeExport _ := .error ()
  parseXml _ := .error ()
  decodeWire _ := .error ()
  spawn _ := throw ()
  openStore := pure ()
  debug := id

theorem twoRows_asks : twoRows.Asks memFiles where
  readSource := steps_pure _
  spawn _ := steps_throw _
  openStore := steps_pure _

/-- Its import. -/
def twoRowsRun : ImportM MemFiles TaggedError NoSpace Empty Unit (ℕ × List LossinessNote) :=
  run smallStore twoRows (some .csv) none (some "name,password".toList) false

/-- The second row finds no room. -/
theorem twoRowsRun_fails : ∃ e, (twoRowsRun.run memFresh).1 = .error e := by
  have hfails : (twoRowsRun.run memFresh).1.toOption = none := by decide +kernel
  cases hrun : (twoRowsRun.run memFresh).1 with
  | error e => exact ⟨e, rfl⟩
  | ok r =>
    rw [hrun] at hfails
    cases hfails

theorem failed_import_iff_twoRows :
    SameEntries TaggedOpens (memFiles memFresh) (memFiles (twoRowsRun.run memFresh).2) ↔
      ¬ Written (twoRowsRun.trace memFresh) := by
  obtain ⟨e, he⟩ := twoRowsRun_fails
  exact failed_import_iff smallStore_onMap smallStore_shreds twoRows_asks (Prod.ext he rfl)

/-- **An import can fail half-way**: its first entry stays. -/
theorem failed_import_leaves_entry :
    ¬ ∀ (store : Store MemFiles TaggedError NoSpace Empty) Opens
      (o : Outside MemFiles TaggedError NoSpace Empty Unit), OnMap store memFiles →
        Shreds store memFiles Opens → o.Asks memFiles →
          ∀ format fromExt csvSchema csvHasHeader s t e,
            (run store o format fromExt csvSchema csvHasHeader).run s = (.error e, t) →
              SameEntries Opens (memFiles s) (memFiles t) := by
  intro h
  obtain ⟨e, he⟩ := twoRowsRun_fails
  have hsame := h smallStore TaggedOpens twoRows smallStore_onMap smallStore_shreds twoRows_asks
    (some .csv) none (some "name,password".toList) false memFresh _ e (Prod.ext he rfl)
  have habsent : memFiles memFresh (entryToBlob ⟨"a".toList, by decide⟩) = none := by
    decide +kernel
  have hthere := (hsame ⟨"a".toList, by decide⟩).1.1 habsent
  have hnone : memFiles (twoRowsRun.run memFresh).2 (entryToBlob ⟨"a".toList, by decide⟩) ≠ none := by
    decide +kernel
  exact hnone hthere

end Bypass.Import
