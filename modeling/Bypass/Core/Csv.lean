import Bypass.Core.Import
import Bypass.Foundations.Folds

/-!
# The CSV importer

The user states the role of each column, and each row becomes an entry (`import/csv.rs`). A schema
may give one role to several columns. Values are trimmed, the password as well; and of a role that
holds one value, the last cell that is not blank wins, without a note.

What reads the file is the `csv` crate; here it is the list of what its `records()` yields.

* `Csv.Cells.set_all`: what a row's cells leave in each field.
* `Csv.buildEntry_eq_ok`: when a row becomes an entry, and what it becomes.
* `Csv.parse_keeps_iff`: **when a row loses nothing**.
-/

namespace Bypass.Csv

/-! ## Schemas -/

/-- `Role`. -/
inductive Role where
  | name
  | folder
  | password
  | username
  | url
  | totp
  | notes
  | skip
  | field (key : Str)
  deriving DecidableEq

/-- `CsvError`; `E` is the error of the `csv` crate. -/
inductive CsvError (E : Type) where
  | emptySchema
  | parse (e : E)
  | columnCount (row got expected : ℕ)
  | unnamedRow (row : ℕ)
  | missingPassword (row : ℕ)
  | schemaMissingPassword
  deriving DecidableEq

/-- A number, as `{}` prints it. -/
def decimal (n : ℕ) : Str := Nat.toDigits 10 n

/-- The message; `display` is that of the crate's error. -/
def CsvError.message {E : Type} (display : E → Str) : CsvError E → Str
  | emptySchema => "--csv-schema is empty (need at least one role)".toList
  | parse e => "CSV parse: ".toList ++ display e
  | columnCount row got expected => "CSV row ".toList ++ decimal row ++ " has ".toList ++
      decimal got ++ " columns but the schema declares ".toList ++ decimal expected
  | unnamedRow row => "CSV row ".toList ++ decimal row ++ (" has no `name` value and the schema " ++
      "declares no `folder` either — entry would be unnamed").toList
  | missingPassword row => "CSV row ".toList ++ decimal row ++ (" has no `password` value (the " ++
      "schema must include `password` and rows must populate it)").toList
  | schemaMissingPassword => "--csv-schema is missing a `password` role".toList

/-- The role that a name of the schema stands for. -/
def Role.parse (s : Str) : Role :=
  let lower := s.map Char.toLower
  if lower = "name".toList then name
  else if lower = "folder".toList then folder
  else if lower = "password".toList then password
  else if lower = "username".toList ∨ lower = "login".toList then username
  else if lower = "url".toList ∨ lower = "uri".toList then url
  else if lower = "totp".toList ∨ lower = "otpauth".toList then totp
  else if lower = "notes".toList ∨ lower = "note".toList then notes
  else if lower = [] ∨ lower = ['-'] ∨ lower = ['_'] ∨ lower = "skip".toList then skip
  else field s

/-- `CsvSchema`. -/
structure CsvSchema where
  roles : List Role

variable {E : Type}

/-- `CsvSchema::parse`. -/
def CsvSchema.parse (spec : Str) : Except (CsvError E) CsvSchema :=
  let roles := (spec.splitOn ',').map fun s => Role.parse (trim s)
  if roles = [] then .error .emptySchema
  else if Role.password ∉ roles then .error .schemaMissingPassword
  else .ok ⟨roles⟩

/-- `CsvSchema::column_count`. -/
def CsvSchema.columnCount (schema : CsvSchema) : ℕ := schema.roles.length

/-! ## Rows -/

/-- The locals of `build_entry`. -/
structure Cells where
  name : Str
  folder : List Str
  password : Option Str
  username : Option Str
  uris : List Str
  totp : Option Str
  notes : Option Str
  fields : List (Str × Str)

/-- What they are at the start. -/
def Cells.start : Cells := ⟨[], [], none, none, [], none, none, []⟩

/-- The segments of a folder cell. -/
def folderSegments (value : Str) : List Str :=
  ((value.splitOn '/').map trim).filter (· ≠ [])

/-- The loop of `build_entry`, on one cell. -/
def Cells.set (c : Cells) (cell : Role × Str) : Cells :=
  let value := trim cell.2
  if value = [] ∧ cell.1 ≠ .skip then c
  else match cell.1 with
    | .name => { c with name := value }
    | .folder => { c with folder := folderSegments value }
    | .password => { c with password := some value }
    | .username => { c with username := some value }
    | .url => { c with uris := c.uris ++ [value] }
    | .totp => { c with totp := some value }
    | .notes => { c with notes := some value }
    | .field key => { c with fields := c.fields ++ [(key, value)] }
    | .skip => c

/-- The message of the note that a folder's last segment was used as a name. -/
def usedFolder (row : ℕ) : Str :=
  "row ".toList ++ decimal row ++
    ": no `name` column populated; used last folder segment as the entry name".toList

/-- The name and the folders of an entry, and what is noted of them: without a name, the last
segment of the folder is used. -/
def placeOf (row : ℕ) (c : Cells) : Str × List Str × List LossinessNote :=
  if c.name = [] then
    match c.folder.getLast? with
    | none => ([], c.folder, [])
    | some last =>
      let folder := c.folder.dropLast
      (last, folder, [⟨if folder = [] then last else ['/'].intercalate folder ++ '/' :: last,
        usedFolder row⟩])
  else (c.name, c.folder, [])

/-- `build_entry`. -/
def buildEntry (row : ℕ) (schema : CsvSchema) (record : List Str) :
    Except (CsvError E) (ImportedEntry × List LossinessNote) :=
  let c := (schema.roles.zip record).foldl Cells.set .start
  if c.name = [] ∧ c.folder = [] then .error (.unnamedRow row)
  else
    let (name, folder, notes) := placeOf row c
    match c.password with
    | none => .error (.missingPassword row)
    | some password =>
      .ok (⟨folder, name, utf8Encode password, c.username, c.fields, c.totp, c.notes, c.uris⟩, notes)

/-- The loop of `parse`, from the row with the number `row` on. -/
def parseFrom (schema : CsvSchema) :
    ℕ → List (Except E (List Str)) → Except (CsvError E) (List ImportedEntry × List LossinessNote)
  | _, [] => .ok ([], [])
  | row, record :: rest => do
    let record ← record.mapError .parse
    if record.length ≠ schema.columnCount then
      .error (.columnCount row record.length schema.columnCount)
    let (entry, notes) ← buildEntry row schema record
    let (entries, restNotes) ← parseFrom schema (row + 1) rest
    pure (entry :: entries, notes ++ restNotes)

/-- `parse`, on what `records()` yields: the rows without the header. -/
def parse (schema : CsvSchema) (hasHeader : Bool) (records : List (Except E (List Str))) :
    Except (CsvError E) (List ImportedEntry × List LossinessNote) :=
  parseFrom schema (if hasHeader then 2 else 1) records

/-! ## What a row leaves -/

/-- What a cell of this role that is not blank sets, with `f` of its value. -/
def valueOf {γ : Type} (role : Role) (f : Str → γ) (cell : Role × Str) : Option γ :=
  if cell.1 = role ∧ trim cell.2 ≠ [] then some (f (trim cell.2)) else none

/-- The values of the cells of this role that are not blank. -/
def valuesOf (role : Role) (cells : List (Role × Str)) : List Str :=
  cells.filterMap (valueOf role id)

/-- The last value of a role: that of the last cell that is not blank. -/
def lastOf (role : Role) (cells : List (Role × Str)) : Option Str := (valuesOf role cells).getLast?

/-- The custom field of a cell. -/
def fieldOfCell : Role × Str → Option (Str × Str)
  | (.field key, raw) => if trim raw ≠ [] then some (key, trim raw) else none
  | _ => none

theorem filterMap_valueOf {γ : Type} (role : Role) (f : Str → γ) (cells : List (Role × Str)) :
    cells.filterMap (valueOf role f) = (valuesOf role cells).map f := by
  rw [valuesOf, List.map_filterMap]
  refine List.filterMap_congr fun cell _ => ?_
  rw [valueOf, valueOf]
  split_ifs <;> rfl

theorem mem_valuesOf {role : Role} {cells : List (Role × Str)} {value : Str} :
    value ∈ valuesOf role cells ↔ ∃ raw, (role, raw) ∈ cells ∧ trim raw ≠ [] ∧ trim raw = value := by
  rw [valuesOf, List.mem_filterMap]
  constructor
  · rintro ⟨⟨r, raw⟩, hmem, hvalue⟩
    rw [valueOf] at hvalue
    split_ifs at hvalue with h
    obtain ⟨rfl, hne⟩ := h
    exact ⟨raw, hmem, hne, Option.some.inj hvalue⟩
  · rintro ⟨raw, hmem, hne, rfl⟩
    exact ⟨(role, raw), hmem, by rw [valueOf, if_pos ⟨rfl, hne⟩]; rfl⟩

/-- A field of a role that holds one value: the last cell of the role wins. -/
theorem set_last {γ : Type} {get : Cells → γ} {role : Role} {f : Str → γ}
    (h : ∀ c cell, get (Cells.set c cell) = (valueOf role f cell).getD (get c))
    (cells : List (Role × Str)) :
    get (cells.foldl Cells.set .start) = ((lastOf role cells).map f).getD (get .start) := by
  rw [foldl_last h, filterMap_valueOf, List.getLast?_map, lastOf]

/-- What one cell sets. -/
theorem set_eq (c : Cells) (cell : Role × Str) :
    Cells.set c cell =
      { name := (valueOf .name id cell).getD c.name
        folder := (valueOf .folder folderSegments cell).getD c.folder
        password := (valueOf .password some cell).getD c.password
        username := (valueOf .username some cell).getD c.username
        uris := c.uris ++ (valueOf .url id cell).toList
        totp := (valueOf .totp some cell).getD c.totp
        notes := (valueOf .notes some cell).getD c.notes
        fields := c.fields ++ (fieldOfCell cell).toList } := by
  obtain ⟨role, raw⟩ := cell
  by_cases hraw : trim raw = [] <;>
    cases role <;> simp [Cells.set, valueOf, fieldOfCell, hraw]

/-- **What the cells of a row leave.** -/
theorem set_all (cells : List (Role × Str)) :
    cells.foldl Cells.set .start =
      { name := (lastOf .name cells).getD []
        folder := ((lastOf .folder cells).map folderSegments).getD []
        password := lastOf .password cells
        username := lastOf .username cells
        uris := valuesOf .url cells
        totp := lastOf .totp cells
        notes := lastOf .notes cells
        fields := cells.filterMap fieldOfCell } := by
  have hname := @set_last _ Cells.name .name id (fun c cell => by rw [set_eq]) cells
  have hfolder := @set_last _ Cells.folder .folder folderSegments
    (fun c cell => by rw [set_eq]) cells
  have hpassword := @set_last _ Cells.password .password some (fun c cell => by rw [set_eq]) cells
  have husername := @set_last _ Cells.username .username some (fun c cell => by rw [set_eq]) cells
  have htotp := @set_last _ Cells.totp .totp some (fun c cell => by rw [set_eq]) cells
  have hnotes := @set_last _ Cells.notes .notes some (fun c cell => by rw [set_eq]) cells
  have huris := @foldl_append _ _ _ Cells.set Cells.uris (valueOf .url id)
    (fun c cell => by rw [set_eq]) cells .start
  have hfields := @foldl_append _ _ _ Cells.set Cells.fields fieldOfCell
    (fun c cell => by rw [set_eq]) cells .start
  have hopt : ∀ o : Option Str, (o.map some).getD none = o := fun o => by cases o <;> rfl
  generalize cells.foldl Cells.set .start = c at *
  cases c
  simp_all [Cells.start, valuesOf]

theorem lastOf_ne_nil {role : Role} {cells : List (Role × Str)} {value : Str}
    (h : lastOf role cells = some value) : value ≠ [] := by
  obtain ⟨raw, -, hne, rfl⟩ := mem_valuesOf.1 (List.mem_of_getLast? h)
  exact hne

/-- The folder of a row: that of its last folder cell that is not blank. -/
def rowFolder (cells : List (Role × Str)) : List Str :=
  ((lastOf .folder cells).map folderSegments).getD []

/-- What a row becomes. -/
structure Becomes (row : ℕ) (cells : List (Role × Str)) (e : ImportedEntry)
    (rowNotes : List LossinessNote) : Prop where
  name : ∀ value, lastOf .name cells = some value → e.name = value ∧ e.folder = rowFolder cells
  folder : lastOf .name cells = none → e.folder ++ [e.name] = rowFolder cells
  password : ∃ value, lastOf .password cells = some value ∧ e.password = utf8Encode value
  username : e.username = lastOf .username cells
  uris : e.uris = valuesOf .url cells
  totp : e.totp = lastOf .totp cells
  notes : e.notes = lastOf .notes cells
  fields : e.fields = cells.filterMap fieldOfCell
  noted : ∀ note ∈ rowNotes, note.message = usedFolder row

theorem placeOf_named {row : ℕ} {c : Cells} (h : c.name ≠ []) :
    placeOf row c = (c.name, c.folder, []) := by
  rw [placeOf, if_neg h]

/-- Without a name, the folder is split into the folder and the name of the entry. -/
theorem placeOf_unnamed {row : ℕ} {c : Cells} (h : c.name = []) (hfolder : c.folder ≠ []) :
    (placeOf row c).2.1 ++ [(placeOf row c).1] = c.folder ∧
      ∀ note ∈ (placeOf row c).2.2, note.message = usedFolder row := by
  rw [placeOf, if_pos h, List.getLast?_eq_getLast_of_ne_nil hfolder]
  refine ⟨List.dropLast_append_getLast hfolder, fun note hnote => ?_⟩
  rw [List.mem_singleton.1 hnote]

/-- **What `build_entry` makes of a row.** -/
theorem buildEntry_becomes {row : ℕ} {schema : CsvSchema} {record : List Str} {e : ImportedEntry}
    {notes : List LossinessNote}
    (h : buildEntry row schema record = (.ok (e, notes) : Except (CsvError E) _)) :
    Becomes row (schema.roles.zip record) e notes := by
  rw [buildEntry] at h
  have hall := set_all (schema.roles.zip record)
  generalize (schema.roles.zip record).foldl Cells.set .start = c at h hall
  dsimp only at h
  split_ifs at h with hunnamed
  cases hp : c.password with
  | none => simp [hp] at h
  | some password =>
    simp only [hp] at h
    obtain ⟨rfl, rfl⟩ := Prod.mk.inj (Except.ok.inj h)
    have hname : c.name = (lastOf .name (schema.roles.zip record)).getD [] := by rw [hall]
    have hfolder : c.folder = rowFolder (schema.roles.zip record) := by rw [hall, rowFolder]
    have hunnamed' : c.name = [] → c.folder ≠ [] := fun hn hf => hunnamed ⟨hn, hf⟩
    refine ⟨fun value hvalue => ?_, fun hnone => ?_, ⟨password, ?_, rfl⟩, ?_, ?_, ?_, ?_, ?_,
      fun note hnote => ?_⟩
    · have hne : c.name ≠ [] := by
        rw [hname, hvalue]
        exact lastOf_ne_nil hvalue
      rw [placeOf_named hne, hname, hvalue]
      exact ⟨rfl, hfolder⟩
    · rw [hnone] at hname
      rw [← hfolder]
      exact (placeOf_unnamed hname (hunnamed' hname)).1
    · rw [← hp, hall]
    · rw [hall]
    · rw [hall]
    · rw [hall]
    · rw [hall]
    · rw [hall]
    · by_cases hn : c.name = []
      · exact (placeOf_unnamed hn (hunnamed' hn)).2 note hnote
      · rw [placeOf_named hn] at hnote
        cases hnote

/-! ## What is kept of a cell -/

/-- The cell's content is in the entry under its role: the password byte for byte, other values
trimmed, folders by their segments. Without a name, the last segment of the folder is the name. -/
def Kept (cells : List (Role × Str)) (e : ImportedEntry) : Role × Str → Prop
  | (.name, raw) => e.name = trim raw
  | (.folder, raw) => folderSegments (trim raw) =
      if lastOf .name cells = none then e.folder ++ [e.name] else e.folder
  | (.password, raw) => e.password = utf8Encode raw
  | (.username, raw) => e.username = some (trim raw)
  | (.url, raw) => trim raw ∈ e.uris
  | (.totp, raw) => e.totp = some (trim raw)
  | (.notes, raw) => e.notes = some (trim raw)
  | (.skip, _) => True
  | (.field key, raw) => (key, trim raw) ∈ e.fields

/-- The cell agrees with the last one of its role that is not blank; a password, also in the white
space at its ends. URLs and custom fields need not. -/
def Agrees (cells : List (Role × Str)) : Role × Str → Prop
  | (.name, raw) => lastOf .name cells = some (trim raw)
  | (.folder, raw) => (lastOf .folder cells).map folderSegments = some (folderSegments (trim raw))
  | (.password, raw) => lastOf .password cells = some raw
  | (.username, raw) => lastOf .username cells = some (trim raw)
  | (.totp, raw) => lastOf .totp cells = some (trim raw)
  | (.notes, raw) => lastOf .notes cells = some (trim raw)
  | (.url, _) => True
  | (.skip, _) => True
  | (.field _, _) => True

/-- A role with a cell that is not blank has a last one. -/
theorem lastOf_ne_none {role : Role} {cells : List (Role × Str)} {raw : Str}
    (h : (role, raw) ∈ cells) (hraw : trim raw ≠ []) : lastOf role cells ≠ none := by
  rw [lastOf, Ne, List.getLast?_eq_none_iff]
  intro hnil
  have hmem : trim raw ∈ valuesOf role cells := mem_valuesOf.2 ⟨raw, h, hraw, rfl⟩
  rw [hnil] at hmem
  cases hmem

/-- **A cell is kept** exactly when it agrees with the last one of its role. -/
theorem Becomes.kept_iff {row : ℕ} {cells : List (Role × Str)} {e : ImportedEntry}
    {rowNotes : List LossinessNote} (h : Becomes row cells e rowNotes) {cell : Role × Str}
    (hmem : cell ∈ cells) (hraw : trim cell.2 ≠ []) : Kept cells e cell ↔ Agrees cells cell := by
  obtain ⟨role, raw⟩ := cell
  have hlast := lastOf_ne_none hmem hraw
  cases role with
  | name =>
    obtain ⟨value, hvalue⟩ := Option.ne_none_iff_exists'.1 hlast
    rw [Kept, Agrees, (h.name value hvalue).1, hvalue, Option.some.injEq]
  | folder =>
    obtain ⟨value, hvalue⟩ := Option.ne_none_iff_exists'.1 hlast
    have hfolder : rowFolder cells = folderSegments value := by rw [rowFolder, hvalue]; rfl
    have hplace : (if lastOf .name cells = none then e.folder ++ [e.name] else e.folder) =
        folderSegments value := by
      split_ifs with hnone
      · rw [h.folder hnone, hfolder]
      · obtain ⟨name, hname⟩ := Option.ne_none_iff_exists'.1 hnone
        rw [(h.name name hname).2, hfolder]
    rw [Kept, Agrees, hplace, hvalue, Option.map_some, Option.some.injEq, eq_comm]
  | password =>
    obtain ⟨value, hvalue, hpassword⟩ := h.password
    rw [Kept, Agrees, hpassword, hvalue, Option.some.injEq, utf8Encode_injective.eq_iff]
  | username => rw [Kept, Agrees, h.username]
  | totp => rw [Kept, Agrees, h.totp]
  | notes => rw [Kept, Agrees, h.notes]
  | url =>
    rw [Kept, Agrees, h.uris, iff_true]
    exact mem_valuesOf.2 ⟨raw, hmem, hraw, rfl⟩
  | skip => rw [Kept, Agrees]
  | field key =>
    rw [Kept, Agrees, h.fields, iff_true, List.mem_filterMap]
    exact ⟨_, hmem, by rw [fieldOfCell, if_pos hraw]⟩

/-! ## Whole files -/

/-- A run of the loop that succeeded, row by row. -/
theorem parseFrom_cons_ok {schema : CsvSchema} {row : ℕ} {r : Except E (List Str)}
    {rest : List (Except E (List Str))} {entries : List ImportedEntry} {report : List LossinessNote}
    (h : parseFrom schema row (r :: rest) = .ok (entries, report)) :
    ∃ record e notes es ns, r = .ok record ∧ buildEntry row schema record =
        (.ok (e, notes) : Except (CsvError E) _) ∧ parseFrom schema (row + 1) rest = .ok (es, ns) ∧
      entries = e :: es ∧ report = notes ++ ns := by
  rw [parseFrom] at h
  cases r with
  | error e => cases h
  | ok record =>
    by_cases hlen : record.length = schema.columnCount
    · cases hb : (buildEntry row schema record : Except (CsvError E) _) with
      | error e =>
        simp [Except.mapError, hlen, hb, bind, Except.bind] at h
      | ok built =>
        obtain ⟨e, notes⟩ := built
        cases hp : parseFrom schema (row + 1) rest with
        | error e =>
          simp [Except.mapError, hlen, hb, hp, bind, Except.bind] at h
        | ok parsed =>
          obtain ⟨es, ns⟩ := parsed
          simp [Except.mapError, hlen, hb, hp, bind, Except.bind, pure, Except.pure] at h
          exact ⟨record, e, notes, es, ns, rfl, hb, rfl, h.1.symm, h.2.symm⟩
    · simp [Except.mapError, hlen, bind, Except.bind] at h

/-- **Each row becomes an entry**, and the report has no notes but those on names. -/
theorem parseFrom_becomes {schema : CsvSchema} {row : ℕ} {records : List (Except E (List Str))}
    {entries : List ImportedEntry} {report : List LossinessNote}
    (h : parseFrom schema row records = .ok (entries, report)) :
    List.Forall₂ (fun r e => ∃ n record notes, r = .ok record ∧
        Becomes n (schema.roles.zip record) e notes) records entries ∧
      ∀ note ∈ report, ∃ n, note.message = usedFolder n := by
  induction records generalizing row entries report with
  | nil =>
    cases h
    exact ⟨List.Forall₂.nil, nofun⟩
  | cons r rest ih =>
    obtain ⟨record, e, notes, es, ns, rfl, hbuild, hrest, rfl, rfl⟩ := parseFrom_cons_ok h
    obtain ⟨hall, hnotes⟩ := ih hrest
    have hrow := buildEntry_becomes hbuild
    refine ⟨List.Forall₂.cons ⟨row, record, notes, rfl, hrow⟩ hall, fun note hnote => ?_⟩
    rcases List.mem_append.1 hnote with hnote | hnote
    · exact ⟨row, hrow.noted note hnote⟩
    · exact hnotes note hnote

/-- Some note of the report is not on a folder whose last segment became a name. -/
def ReportsLoss (report : List LossinessNote) : Prop :=
  ∃ note ∈ report, ∀ row, note.message ≠ usedFolder row

/-- **When a row loses nothing silently.** Of a file that is accepted, a cell that is not blank, of
a role other than skip, is kept or its loss is reported exactly when it agrees with the last cell of
its role that is not blank: URLs and custom fields always; a password when it has no white space at
its ends either. -/
theorem parse_keeps_iff {schema : CsvSchema} {hasHeader : Bool}
    {records : List (Except E (List Str))} {entries : List ImportedEntry}
    {report : List LossinessNote}
    (hparse : parse schema hasHeader records = .ok (entries, report)) :
    List.Forall₂ (fun r e => ∃ record, r = .ok record ∧
      ∀ cell ∈ schema.roles.zip record, cell.1 ≠ .skip → trim cell.2 ≠ [] →
        ((Kept (schema.roles.zip record) e cell ∨ ReportsLoss report) ↔
          Agrees (schema.roles.zip record) cell)) records entries := by
  obtain ⟨hall, hnotes⟩ := parseFrom_becomes hparse
  have hsilent : ¬ ReportsLoss report := by
    rintro ⟨note, hnote, hother⟩
    obtain ⟨n, hn⟩ := hnotes note hnote
    exact hother n hn
  refine hall.imp fun r e ⟨n, record, notes, hr, hrow⟩ => ⟨record, hr, fun cell hcell _ hraw => ?_⟩
  rw [or_iff_left hsilent]
  exact hrow.kept_iff hcell hraw

/-- A schema with two columns. -/
def bankSchema : CsvSchema := ⟨[.name, .password]⟩

/-- A row whose password has white space around it. -/
def bankRow : List Str := ["Bank".toList, " p ".toList]

/-- What it becomes. -/
def bankImported : ImportedEntry :=
  ⟨[], "Bank".toList, utf8Encode "p".toList, none, [], none, none, []⟩

theorem bankSchema_parse :
    CsvSchema.parse "name,password".toList = (.ok bankSchema : Except (CsvError Empty) _) := rfl

theorem bankRow_parse : parse bankSchema false [.ok bankRow] =
    (.ok ([bankImported], []) : Except (CsvError Empty) _) := rfl

theorem parse_keeps_iff_bank : ∃ record, (.ok bankRow : Except Empty _) = .ok record ∧
    ∀ cell ∈ bankSchema.roles.zip record, cell.1 ≠ .skip → trim cell.2 ≠ [] →
      ((Kept (bankSchema.roles.zip record) bankImported cell ∨ ReportsLoss []) ↔
        Agrees (bankSchema.roles.zip record) cell) :=
  (List.forall₂_cons.1 (parse_keeps_iff bankRow_parse)).1

/-- **A password can be altered silently**: white space at its ends is trimmed. -/
theorem password_trimmed_silently :
    ¬ ∀ spec schema hasHeader (records : List (Except Empty (List Str))) entries report,
      CsvSchema.parse spec = (.ok schema : Except (CsvError Empty) _) →
        parse schema hasHeader records = .ok (entries, report) →
          List.Forall₂ (fun r e => ∃ record, r = .ok record ∧
            ∀ cell ∈ schema.roles.zip record, cell.1 ≠ .skip → trim cell.2 ≠ [] →
              Kept (schema.roles.zip record) e cell ∨ ReportsLoss report) records entries := by
  intro h
  obtain ⟨record, hrecord, hall⟩ := (List.forall₂_cons.1
    (h _ _ _ _ _ _ bankSchema_parse bankRow_parse)).1
  obtain rfl := Except.ok.inj hrecord
  rcases hall (.password, " p ".toList) (by decide +kernel) (by decide) (by decide +kernel) with
    hkept | ⟨note, hnote, -⟩
  · revert hkept
    rw [Kept]
    decide +kernel
  · cases hnote

end Bypass.Csv
