import Bypass.Core.Entry
import Bypass.Core.Init
import Bypass.Foundations.Runs

/-!
# The store of the app

`BypassStore` (`bypass-ffi`) is the store without version control, behind a mutex: its calls follow
one another. Each reads its path, calls the orchestrator, and flattens the errors into one type. The
app can call `init` at any time.

* `BypassStore.program`: each call as a program of backend calls.
* `bypassStore`: the machine of all sequences of calls. Its state keeps the backend calls made so
  far, as a history of what was encrypted to whom.
-/

namespace Bypass

/-! ## Errors -/

/-- `BypassError`. -/
inductive BypassError where
  | notFound (path : Str)
  | alreadyExists (path : Str)
  | invalidPath (reason : Str)
  | notInitialized
  | gpgIdMalformed (reason : Str)
  | crypto (reason : Str)
  | storage (reason : Str)
  | internal (reason : Str)
  deriving DecidableEq

/-- The message of a `BypassError`. -/
def BypassError.message : BypassError → Str
  | notFound path => "entry not found: ".toList ++ path
  | alreadyExists path => "entry already exists: ".toList ++ path
  | invalidPath reason => "invalid entry path: ".toList ++ reason
  | notInitialized => "store not initialised; call `init` first".toList
  | gpgIdMalformed reason => "malformed .gpg-id: ".toList ++ reason
  | crypto reason => "crypto error: ".toList ++ reason
  | storage reason => "storage error: ".toList ++ reason
  | internal reason => "internal error: ".toList ++ reason

/-- What the app brings to its store: the texts of errors, and what `Entry` and `otp` leave open. -/
structure Platform (SE : Type) where
  debug : Str → Str
  storageText : SE → Str
  lower : Str → Str
  code : Str → Except OtpError Str

/-- `From<StoreError>`, of a store whose crypto fails with `BypassError` and which has no version
control. -/
def BypassError.ofStore {SE : Type} (platform : Platform SE) :
    StoreError BypassError SE Empty → BypassError
  | .notFound path => .notFound path
  | .alreadyExists path => .alreadyExists path
  | .notInitialized => .notInitialized
  | .gpgIdMalformed reason => .gpgIdMalformed reason
  | .crypto source => .crypto source.message
  | .storage source => .storage (platform.storageText source)

/-- `From<Error>`, of the one error that `parse_path` meets. -/
def BypassError.ofPath {SE : Type} (platform : Platform SE) (e : PathError) : BypassError :=
  .invalidPath ("invalid store path: ".toList ++ e.message platform.debug)

/-! ## Calls -/

/-- A call of the app, with its arguments; what is drawn by `generate` is one of them. -/
inductive FfiCall where
  | init (recipients : List Str)
  | insert (path : Str) (plaintext : Bytes) (overwrite : Bool)
  | «show» (path : Str)
  | showField (path field : Str)
  | ls (subpath : Option Str)
  | find (pattern : Str)
  | generate (path : Str) (length : Option UInt32) (symbols : Option Bool) (inPlace force : Bool)
      (draw : ℕ → ℕ)
  | otp (path : Str)
  | rm (path : Str) (recursive : Bool)

/-- What a call returns. -/
inductive FfiOutput where
  | unit
  | bytes (bytes : Bytes)
  | text (text : Str)
  | names (names : List Str)
  deriving DecidableEq

namespace BypassStore

/-- A program of the app's store. -/
abbrev FfiM (W SE α : Type) := Prog (Event BypassError SE Empty) W BypassError α

variable {W SE : Type} (platform : Platform SE) (store : Store W BypassError SE Empty)

/-- `parse_path`. -/
def parsePath (s : Str) : FfiM W SE RelPath :=
  match RelPath.new s with
  | .ok path => pure path
  | .error e => throw (.ofPath platform e)

/-- `subpath.map(parse_path).transpose()`. -/
def parseSubpath : Option Str → FfiM W SE (Option RelPath)
  | none => pure none
  | some s => some <$> parsePath platform s

/-- A call of the orchestrator, its errors flattened. -/
def lift {α : Type} (p : StoreM W BypassError SE Empty α) : FfiM W SE α :=
  p.mapErr (.ofStore platform)

/-- `BypassStore::init`; `NoVcs` has nothing to initialise. -/
def init (recipients : List Str) : FfiM W SE Unit :=
  lift platform (store.init (pure ()) (recipients.map KeyId.mk))

/-- `BypassStore::insert`. -/
def insert (path : Str) (plaintext : Bytes) (overwrite : Bool) : FfiM W SE Unit := do
  let entry ← parsePath platform path
  lift platform (store.insert entry plaintext overwrite)

/-- `BypassStore::show`. -/
def «show» (path : Str) : FfiM W SE Bytes := do
  let entry ← parsePath platform path
  lift platform (store.show entry)

/-- `BypassStore::show_field`. -/
def showField (path field : Str) : FfiM W SE Str := do
  let entry ← parsePath platform path
  let plaintext ← lift platform (store.show entry)
  match Entry.parse platform.lower plaintext with
  | .error e => throw (.internal ("parse entry body: ".toList ++ e.message))
  | .ok parsed =>
    match parsed.field platform.lower field with
    | none => throw (.notFound (path ++ '#' :: field))
    | some value => pure value

/-- `BypassStore::ls`. -/
def ls (subpath : Option Str) : FfiM W SE (List Str) := do
  let sub ← parseSubpath platform subpath
  let entries ← lift platform (store.list sub)
  pure (entries.map RelPath.str)

/-- `BypassStore::find`. -/
def find (pattern : Str) : FfiM W SE (List Str) := do
  let entries ← lift platform (store.find pattern)
  pure (entries.map RelPath.str)

/-- `BypassStore::generate`. -/
def generate (path : Str) (length : Option UInt32) (symbols : Option Bool) (inPlace force : Bool)
    (draw : ℕ → ℕ) : FfiM W SE Str := do
  let entry ← parsePath platform path
  let password :=
    Bypass.generate ((length.map UInt32.toNat).getD defaultLength) (symbols.getD true) draw
  if inPlace then
    let existing ← lift platform (store.show entry)
    lift platform (store.insert entry (replaceFirstLine existing password) true)
    pure password
  else
    lift platform (store.insert entry (utf8Encode password) force)
    pure password

/-- `BypassStore::otp`. -/
def otp (path : Str) : FfiM W SE Str := do
  let entry ← parsePath platform path
  let plaintext ← lift platform (store.show entry)
  match utf8Decode? plaintext with
  | none => throw (.internal "entry is not valid UTF-8".toList)
  | some text =>
    match currentCode platform.code text with
    | .error e => throw (.internal ("compute TOTP code: ".toList ++ e.message))
    | .ok code => pure code

/-- `BypassStore::rm`. -/
def rm (path : Str) (recursive : Bool) : FfiM W SE Unit := do
  let entry ← parsePath platform path
  if recursive then
    let _ ← lift platform (store.removeRecursive entry)
    pure ()
  else lift platform (store.remove entry)

/-- The program of a call. -/
def program : FfiCall → FfiM W SE FfiOutput
  | .init recipients => do
    init platform store recipients
    pure .unit
  | .insert path plaintext overwrite => do
    insert platform store path plaintext overwrite
    pure .unit
  | .show path => .bytes <$> «show» platform store path
  | .showField path field => .text <$> showField platform store path field
  | .ls subpath => .names <$> ls platform store subpath
  | .find pattern => .names <$> find platform store pattern
  | .generate path length symbols inPlace force draw =>
    .text <$> generate platform store path length symbols inPlace force draw
  | .otp path => .text <$> otp platform store path
  | .rm path recursive => do
    rm platform store path recursive
    pure .unit

end BypassStore

/-! ## Sequences of calls -/

/-- The world, and the backend calls made so far. -/
structure AppSession (W SE : Type) where
  world : W
  log : Trace W BypassError SE Empty

/-- **The store of the app**: a call is never refused, though it may return an error. -/
def bypassStore {W SE : Type} (platform : Platform SE) (store : Store W BypassError SE Empty) :
    Machine (AppSession W SE) FfiCall (Except BypassError FfiOutput) := fun s call =>
  let program := BypassStore.program platform store call
  some (⟨(program.run s.world).2, s.log ++ program.trace s.world⟩, [(program.run s.world).1])

end Bypass
