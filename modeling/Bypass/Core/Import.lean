import Bypass.Core.Run

/-!
# Importing entries

The canonical mapping of foreign entries to entries of the store (`import.rs`): slug the folder and
name to a path, number the paths that occur more than once in the batch, refuse a batch that meets
the store, and render the bodies. The loop of `import::run` then writes each entry.
-/

namespace Bypass

/-! ## Slugs -/

/-- The first pass of `slug_path`, on one character. -/
def slugChar (c : Char) : Option Char :=
  if c.isAlphanum then some c.toLower
  else if c = '.' ∨ c = '_' ∨ c = '-' ∨ c = '/' then some c
  else if isWhitespace c then some '-'
  else none

/-- Collapse runs of dashes; `lastDash` says that the character before was one. -/
def collapseDashes : Bool → Str → Str
  | _, [] => []
  | lastDash, c :: cs =>
    if c = '-' then
      if lastDash then collapseDashes true cs else c :: collapseDashes true cs
    else c :: collapseDashes false cs

/-- `slug_path`. -/
def slugPath (s : Str) : Str :=
  let buf := s.filterMap slugChar
  let segments := (buf.splitOn '/').map fun seg =>
    ((collapseDashes false seg).dropWhile (· = '-')).rdropWhile (· = '-')
  ['/'].intercalate (segments.filter (· ≠ []))

/-! ## Entries -/

/-- `ImportedEntry`. -/
structure ImportedEntry where
  folder : List Str
  name : Str
  password : Bytes
  username : Option Str
  fields : List (Str × Str)
  totp : Option Str
  notes : Option Str
  uris : List Str

/-- `LossinessNote`. -/
structure LossinessNote where
  entry : Str
  message : Str
  deriving DecidableEq

/-- `PreparedEntry`. -/
structure PreparedEntry where
  path : RelPath
  body : Bytes
  deriving DecidableEq

/-- `ImportError`. -/
inductive ImportError where
  | storeCollision (paths : List Str)
  | unnamedEntry (idx : ℕ)
  deriving DecidableEq

/-- The slug of an entry: its folders and name, joined, then slugged. -/
def ImportedEntry.slug (e : ImportedEntry) : Str :=
  slugPath (['/'].intercalate ((e.folder ++ [e.name]).filter (· ≠ [])))

/-! ## Bodies -/

section Body

variable (debug : Str → Str)

/-- `flatten_newlines`. -/
def flattenNewlines (s : Str) : Str :=
  s.flatMap fun c => if c = '\n' then ['\\', 'n'] else if c = '\r' then [] else [c]

/-- `push_kv`: the line, and what it notes. `debug` is the standard library's `{:?}` of a string. -/
def pushKv (key value path : Str) : Str × List LossinessNote :=
  (key ++ ": ".toList ++ flattenNewlines value ++ ['\n'],
    if '\n' ∈ value then
      [⟨path, "field ".toList ++ debug key ++ " contained newlines; flattened to `\\n`".toList⟩]
    else [])

/-- The password line, and what it notes. -/
def passwordLine (password : Bytes) (path : Str) : Str × List LossinessNote :=
  let passwordStr := utf8Lossy password
  (flattenNewlines passwordStr ++ ['\n'],
    (if Char.ofNat 0xfffd ∈ passwordStr then
      [⟨path, "password contained non-UTF-8 bytes; replaced with U+FFFD".toList⟩] else []) ++
    (if '\n' ∈ passwordStr then
      [⟨path, "password contained newlines; flattened to `\\n` to keep the entry parseable".toList⟩]
    else []))

/-- The line of a custom field. -/
def fieldLine (path : Str) : Str × Str → Str × List LossinessNote
  | (k, v) =>
    if trim k = [] then ([], [⟨path, "field with empty key dropped".toList⟩])
    else pushKv debug (trim k) v path

/-- The notes block, after a blank line. -/
def notesBlock : Option Str → Str
  | none => []
  | some notes =>
    if notes = [] then [] else '\n' :: notes ++ if notes.getLast? = some '\n' then [] else ['\n']

/-- `serialise_body`. -/
def serialiseBody (entry : ImportedEntry) (path : Str) : Bytes × List LossinessNote :=
  let parts :=
    passwordLine entry.password path ::
      (entry.username.toList.map fun u => pushKv debug "login".toList u path) ++
      entry.fields.map (fieldLine debug path) ++
      (entry.totp.toList.map fun t => pushKv debug "otpauth".toList t path) ++
      entry.uris.zipIdx.map fun (uri, i) =>
        let key := if i = 0 then "url".toList else "url-".toList ++ Nat.toDigits 10 (i + 1)
        pushKv debug key uri path
  (utf8Encode (parts.flatMap (·.1) ++ notesBlock entry.notes), parts.flatMap (·.2))

end Body

/-! ## Paths of a batch -/

/-- The first pass of `prepare`, from the entry with index `idx` on; `none` is the panic of the
`expect` on a slug that is no path. -/
def desiredPaths : ℕ → List ImportedEntry → Option (Except ImportError (List RelPath))
  | _, [] => some (.ok [])
  | idx, e :: es =>
    if e.slug = [] then some (.error (.unnamedEntry idx))
    else match RelPath.new e.slug with
      | .error _ => none
      | .ok path =>
        (desiredPaths (idx + 1) es).map fun rest => rest.map (path :: ·)

theorem digit_ne {c : Char} {n : ℕ} (h : c ∈ Nat.toDigits 10 n) (d : Char)
    (hd : d.isDigit = false) : c ≠ d := fun he => by
  have := Nat.isDigit_of_mem_toDigits (by decide) (by decide) h
  rw [he, hd] at this
  cases this

/-- A path with a number after it. -/
def suffixed (base : RelPath) (n : ℕ) : RelPath :=
  ⟨base.str ++ '-' :: Nat.toDigits 10 n, by
    refine validate_append base.valid (by simp) ?_ ?_
    · rw [List.getLast?_cons_of_ne_nil Nat.toDigits_ne_nil]
      intro h
      exact digit_ne (List.mem_of_getLast? h) '.' (by decide) rfl
    · intro c hc
      rcases List.mem_cons.1 hc with rfl | hc
      · decide
      · exact ⟨digit_ne hc _ (by decide), digit_ne hc _ (by decide), digit_ne hc _ (by decide)⟩⟩

/-- A slug with a number after it is always a path. -/
theorem new_suffixed (base : RelPath) (n : ℕ) :
    RelPath.new (base.str ++ '-' :: Nat.toDigits 10 n) = .ok (suffixed base n) :=
  RelPath.new_eq_ok.2 rfl

/-- The second pass: number the paths that came before, with `u32` counters that wrap. -/
def finalPaths : Std.ExtTreeMap RelPath ℕ compare → List RelPath → List RelPath
  | _, [] => []
  | counts, base :: rest =>
    let n := (counts.getD base 0 + 1) % 2 ^ 32
    (if n = 1 then base else suffixed base n) :: finalPaths (counts.insert base n) rest

/-- What the second pass notes. -/
def suffixNotes (base resolved : RelPath) : List LossinessNote :=
  if resolved = base then []
  else [⟨resolved.str, "in-batch path collision with ".toList ++ base.str ++
    ": suffixed to disambiguate".toList⟩]

/-- `Vec::dedup`: drop what equals its predecessor. -/
def dedupAdjacent : List Str → List Str
  | [] => []
  | [x] => [x]
  | x :: y :: rest => if x = y then dedupAdjacent (y :: rest) else x :: dedupAdjacent (y :: rest)

/-- `prepare`. `none` is a panic. -/
def prepare (debug : Str → Str) (entries : List ImportedEntry) (existingEntries : List RelPath) :
    Option (Except ImportError (List PreparedEntry × List LossinessNote)) :=
  match desiredPaths 0 entries with
  | none => none
  | some (.error e) => some (.error e)
  | some (.ok desired) =>
    let final := finalPaths ∅ desired
    let collisions := (final.filter (· ∈ existingEntries)).map RelPath.str
    if collisions ≠ [] then
      some (.error (.storeCollision (dedupAdjacent (collisions.insertionSort StrLE))))
    else
      let bodies := List.zipWith (fun e p => serialiseBody debug e p.str) entries final
      let notes := (List.zipWith suffixNotes desired final).flatten ++ bodies.flatMap (·.2)
      some (.ok (List.zipWith (fun p b => ⟨p, b.1⟩) final bodies, notes))

/-! ## The import -/

namespace Store

variable {W CE SE VE : Type} (store : Store W CE SE VE)

/-- The loop of `import::run`: write each entry, and collect the blobs. -/
def insertAll : List PreparedEntry → StoreM W CE SE VE (List RelPath)
  | [] => pure []
  | entry :: rest => do
    let blob ← store.insertNoCommit entry.path entry.body
    let blobs ← insertAll rest
    pure (blob :: blobs)

end Store

end Bypass
