import Bypass.Core.Mem

/-!
# Editing an entry

`edit::run` (`edit.rs`) shows an entry, writes what it shows into a file of a directory of its own,
lets an editor change the file, reads it back, and inserts what it has read when it is not what was
shown. An entry that is missing is shown as empty. The insertion always overwrites: it does not ask
whether the entry is still what it was, and neither whether one that was missing is still missing.

The scratch directory is apart from the store. Others may act on both at any time, the editor and
what it starts among them.

* `edit_replaces_what_it_showed`: **what is replaced is what was shown** exactly when the last of
  the others' steps between the two left it so.
* `edit_overwrites_an_update`: an entry that another process adds meanwhile is lost.
-/

namespace Bypass

open Prog

namespace Edit

/-! ## The scratch directory -/

/-- `ExitStatus`, with the text that it prints. -/
structure ExitStatus where
  success : Bool
  text : Str
  deriving DecidableEq

/-- A call of the machine, with what it answered. Errors are their texts. -/
inductive ScratchCall where
  | isDir (path : Str) (answer : Bool)
  | createNew (path : Str) (mode : Option ℕ) (answer : Except Str Unit)
  | removeFile (path : Str)
  | createDir (path : Str) (answer : Except Str Unit)
  | setPermissions (path : Str) (mode : ℕ)
  | writeAll (path : Str) (data : Bytes) (answer : Except Str Unit)
  | syncAll (path : Str) (answer : Except Str Unit)
  | sh (cmd : Str) (answer : Except Str ExitStatus)
  | read (path : Str) (answer : Except Str Bytes)
  | readDir (path : Str) (answer : Except Str (List (Str × Bool)))
  | overwriteThenUnlink (path : Str)
  | removeDir (path : Str)
  deriving DecidableEq

/-- What `edit` asks of the machine besides the store, whose state is a `D`. The entries of a
directory come with whether they are files. -/
structure Scratch (D : Type) where
  isDirFn : Str → D → Bool × D
  createNewFn : Str → Option ℕ → D → Except Str Unit × D
  removeFileFn : Str → D → D
  createDirFn : Str → D → Except Str Unit × D
  setPermissionsFn : Str → ℕ → D → D
  writeAllFn : Str → Bytes → D → Except Str Unit × D
  syncAllFn : Str → D → Except Str Unit × D
  shFn : Str → D → Except Str ExitStatus × D
  readFn : Str → D → Except Str Bytes × D
  readDirFn : Str → D → Except Str (List (Str × Bool)) × D
  overwriteThenUnlinkFn : Str → D → D
  removeDirFn : Str → D → D
  tempDir : Str
  editor : Option Str
  pid : ℕ
  subsecNanos : ℕ

/-- An error of `edit`. -/
inductive EditError (CE SE VE : Type) where
  | store (e : StoreError CE SE VE)
  | noTempdir
  | createWorkspaceDir (dir : Str) (e : Str)
  | createTempfile (file : Str) (e : Str)
  | writeTempfile (file : Str) (e : Str)
  | syncTempfile (file : Str) (e : Str)
  | spawnEditor (cmd : Str) (e : Str)
  | editorExited (status : Str)
  | readTempfile (file : Str) (e : Str)
  | save (entry : Str) (e : StoreError CE SE VE)
  deriving DecidableEq

/-- A call of a backend of the store, or of the machine. -/
inductive EditEvent (CE SE VE : Type) where
  | store (e : Event CE SE VE)
  | scratch (call : ScratchCall)
  deriving DecidableEq

variable {W D CE SE VE ε α : Type}

/-- A program on the store and the scratch directory. -/
abbrev EditM (W D CE SE VE ε α : Type) := Prog (EditEvent CE SE VE) (W × D) ε α

/-- A call on the scratch directory. -/
def scratchCall (ev : Except ε α → ScratchCall) (f : D → Except ε α × D) :
    EditM W D CE SE VE ε α :=
  Prog.call (fun r => .scratch (ev r)) fun w => ((f w.2).1, (w.1, (f w.2).2))

/-- A call whose answer does not matter. -/
def scratchDo (ev : ScratchCall) (f : D → D) : EditM W D CE SE VE ε Unit :=
  scratchCall (fun _ => ev) fun d => (.ok (), f d)

/-! ## The session -/

section Program

variable (store : Store W CE SE VE) (scratch : Scratch D)

/-- `Path::join` of a name. -/
def joinName (dir name : Str) : Str :=
  if dir.getLast? = some '/' then dir ++ name else dir ++ '/' :: name

/-- `file_name`. -/
def fileName (entry : RelPath) : Str :=
  entry.fileName.map fun c => if c = '/' ∨ c = '\\' then '_' else c

/-- `unique_dir_name`. -/
def uniqueDirName : Str :=
  "bypass-edit.".toList ++ Nat.toDigits 10 scratch.pid ++
    '.' :: Nat.toDigits 10 scratch.subsecNanos

def isDir (path : Str) : EditM W D CE SE VE ε Bool :=
  .act (fun w => .scratch (.isDir path (scratch.isDirFn path w.2).1))
    (fun w => (w.1, (scratch.isDirFn path w.2).2))
    fun w => .done (.ok (scratch.isDirFn path w.2).1)

/-- The end of `pick_tempdir`. -/
def fallbackTempdir : EditM W D CE SE VE (EditError CE SE VE) Str := do
  if ← isDir scratch scratch.tempDir then pure scratch.tempDir
  else throw .noTempdir

/-- `pick_tempdir`. -/
def pickTempdir : EditM W D CE SE VE (EditError CE SE VE) Str := do
  let shm := "/dev/shm".toList
  if ← isDir scratch shm then
    let probe := joinName shm ("bypass.probe.".toList ++ Nat.toDigits 10 scratch.pid)
    match ← (scratchCall (.createNew probe none) (scratch.createNewFn probe none)).attempt with
    | .ok _ =>
      scratchDo (.removeFile probe) (scratch.removeFileFn probe)
      pure shm
    | .error _ => fallbackTempdir scratch
  else fallbackTempdir scratch

/-- `EditWorkspace`. -/
structure Workspace where
  dir : Str
  file : Str

/-- `stage_workspace`. -/
def stageWorkspace (entry : RelPath) (plaintext : Bytes) :
    EditM W D CE SE VE (EditError CE SE VE) Workspace := do
  let parent ← pickTempdir scratch
  let dir := joinName parent (uniqueDirName scratch)
  (scratchCall (.createDir dir) (scratch.createDirFn dir)).mapErr (.createWorkspaceDir dir)
  scratchDo (.setPermissions dir 0o700) (scratch.setPermissionsFn dir 0o700)
  let file := joinName dir (fileName entry)
  (scratchCall (.createNew file (some 0o600)) (scratch.createNewFn file (some 0o600))).mapErr
    (.createTempfile file)
  (scratchCall (.writeAll file plaintext) (scratch.writeAllFn file plaintext)).mapErr
    (.writeTempfile file)
  (scratchCall (.syncAll file) (scratch.syncAllFn file)).mapErr (.syncTempfile file)
  pure ⟨dir, file⟩

/-- `spawn_editor`; a quote in the path ends the quoted word, stands for itself, and begins the
next one. -/
def spawnEditor (path : Str) : EditM W D CE SE VE (EditError CE SE VE) Unit := do
  let editor := scratch.editor.getD "vi".toList
  let escaped := path.flatMap fun c => if c = '\'' then "'\\''".toList else [c]
  let cmd := editor ++ " '".toList ++ escaped ++ "'".toList
  let status ← (scratchCall (.sh cmd) (scratch.shFn cmd)).mapErr (.spawnEditor cmd)
  if status.success then pure ()
  else throw (.editorExited status.text)

/-- The loop of `EditWorkspace::drop` over the entries of the directory. -/
def shredFiles (dir : Str) : List (Str × Bool) → EditM W D CE SE VE ε Unit
  | [] => pure ()
  | (name, isFile) :: rest => do
    if isFile then
      scratchDo (.overwriteThenUnlink (joinName dir name))
        (scratch.overwriteThenUnlinkFn (joinName dir name))
    shredFiles dir rest

/-- `EditWorkspace::drop`. -/
def dropWorkspace (dir : Str) : EditM W D CE SE VE ε Unit := do
  match ← (scratchCall (.readDir dir) (scratch.readDirFn dir)).attempt with
  | .ok entries => shredFiles scratch dir entries
  | .error _ => pure ()
  scratchDo (.removeDir dir) (scratch.removeDirFn dir)

/-- What `run` shows: nothing for an entry that is not there. -/
def existing (entry : RelPath) : EditM W D CE SE VE (EditError CE SE VE) Bytes := do
  match ← ((store.show entry).onFst .store).attempt with
  | .ok bytes => pure bytes
  | .error (.notFound _) => pure []
  | .error e => throw (.store e)

/-- What `run` does while it has the workspace. -/
def session (entry : RelPath) (shown : Bytes) (file : Str) :
    EditM W D CE SE VE (EditError CE SE VE) Unit := do
  spawnEditor scratch file
  let newPlaintext ← (scratchCall (.read file) (scratch.readFn file)).mapErr (.readTempfile file)
  if newPlaintext = shown then pure ()
  else ((store.insert entry newPlaintext true).onFst .store).mapErr (.save entry.str)

/-- `edit::run`; the workspace is dropped at its end, also if it ends with an error. -/
def run (entry : RelPath) : EditM W D CE SE VE (EditError CE SE VE) Unit := do
  let shown ← existing store entry
  let workspace ← stageWorkspace scratch entry shown
  let r ← (session store scratch entry shown workspace.file).attempt
  dropWorkspace scratch workspace.dir
  .done r

end Program

/-! ## What changes the store -/

/-- A call of the store that is no write. -/
def NoWrite : Event CE SE VE → Prop
  | .write _ _ _ => False
  | _ => True

/-- A write of the store. -/
def IsWrite : EditEvent CE SE VE → Prop
  | .store (.write _ _ _) => True
  | _ => False

/-- A step that is no write, and leaves the files as they were. -/
def Aside (files : W → Files) (l : EditEvent CE SE VE) (w w' : W × D) : Prop :=
  ¬ IsWrite l ∧ files w'.1 = files w.1

section Aside

variable {store : Store W CE SE VE} {files : W → Files} {scratch : Scratch D}

theorem aside_scratchCall {ev : Except ε α → ScratchCall} {f : D → Except ε α × D} :
    Steps (Aside files) (scratchCall ev f : EditM W D CE SE VE ε α) :=
  steps_call fun _ => ⟨id, rfl⟩

theorem aside_isDir {path : Str} :
    Steps (Aside files) (isDir scratch path : EditM W D CE SE VE ε Bool) :=
  fun _ => ⟨⟨id, rfl⟩, trivial⟩

theorem aside_fallbackTempdir : Steps (Aside files)
    (fallbackTempdir scratch : EditM W D CE SE VE (EditError CE SE VE) Str) := by
  refine aside_isDir.bind fun b => ?_
  cases b with
  | true => exact steps_pure _
  | false => exact steps_throw _

theorem aside_pickTempdir : Steps (Aside files)
    (pickTempdir scratch : EditM W D CE SE VE (EditError CE SE VE) Str) := by
  refine aside_isDir.bind fun b => ?_
  cases b with
  | false => exact aside_fallbackTempdir
  | true =>
    refine aside_scratchCall.attempt.bind fun r => ?_
    cases r with
    | ok _ => exact aside_scratchCall.bind fun _ => steps_pure _
    | error _ => exact aside_fallbackTempdir

theorem aside_stageWorkspace {entry : RelPath} {plaintext : Bytes} : Steps (Aside files)
    (stageWorkspace scratch entry plaintext :
      EditM W D CE SE VE (EditError CE SE VE) Workspace) := by
  refine aside_pickTempdir.bind fun parent => ?_
  refine aside_scratchCall.mapErr.bind fun _ => ?_
  refine aside_scratchCall.bind fun _ => ?_
  refine aside_scratchCall.mapErr.bind fun _ => ?_
  refine aside_scratchCall.mapErr.bind fun _ => ?_
  exact aside_scratchCall.mapErr.bind fun _ => steps_pure _

theorem aside_spawnEditor {path : Str} : Steps (Aside files)
    (spawnEditor scratch path : EditM W D CE SE VE (EditError CE SE VE) Unit) := by
  refine aside_scratchCall.mapErr.bind fun status => ?_
  split_ifs
  · exact steps_pure _
  · exact steps_throw _

theorem aside_shredFiles {dir : Str} (entries : List (Str × Bool)) :
    Steps (Aside files) (shredFiles scratch dir entries : EditM W D CE SE VE ε Unit) := by
  induction entries with
  | nil => exact steps_pure _
  | cons entry rest ih =>
    obtain ⟨name, isFile⟩ := entry
    cases isFile with
    | true => exact aside_scratchCall.bind fun _ => ih
    | false => exact ih

theorem aside_dropWorkspace {dir : Str} :
    Steps (Aside files) (dropWorkspace scratch dir : EditM W D CE SE VE ε Unit) := by
  refine aside_scratchCall.attempt.bind fun r => ?_
  cases r with
  | ok entries => exact (aside_shredFiles entries).bind fun _ => aside_scratchCall
  | error _ => exact aside_scratchCall

/-- A program of the store that writes nothing. -/
theorem aside_onFst {p : StoreM W CE SE VE α}
    (h : Steps (fun l w w' => NoWrite l ∧ files w' = files w) p) :
    Steps (Aside files) (p.onFst .store : EditM W D CE SE VE (StoreError CE SE VE) α) := by
  refine h.onFst fun l w w' d hl => ⟨fun hwrite => ?_, hl.2⟩
  cases l with
  | write => exact hl.1
  | _ => exact hwrite

variable (hmap : OnMap store files)
include hmap

theorem noWrite_show (entry : RelPath) :
    Steps (fun l w w' => NoWrite l ∧ files w' = files w) (store.show entry) := by
  refine Steps.bind (steps_call fun w => ⟨trivial, hmap.read_files _ w⟩).mapErr fun v => ?_
  cases v with
  | none => exact steps_throw _
  | some c => exact (steps_call fun w => ⟨trivial, hmap.decrypt_files c w⟩).mapErr

theorem noWrite_resolveRecipients (entry : RelPath) :
    Steps (fun l w w' => NoWrite l ∧ files w' = files w)
      (resolveRecipients store.storage entry :
        Prog (Event CE SE VE) W (GpgIdError SE) (List KeyId)) := by
  rw [resolveRecipients]
  generalize entry.parent = current
  induction hn : depth current using Nat.strong_induction_on generalizing current with
  | _ n ih =>
    rw [resolveFrom.eq_def]
    refine Steps.bind (steps_call fun w => ⟨trivial, hmap.read_files _ w⟩).mapErr fun v => ?_
    cases v with
    | some bytes =>
      dsimp only
      cases parseGpgId bytes with
      | ok rs => exact steps_pure _
      | error e => exact steps_throw _
    | none =>
      cases current with
      | none => exact steps_throw _
      | some p => exact ih _ (hn ▸ depth_parent_lt p) p.parent rfl

theorem aside_existing {entry : RelPath} : Steps (Aside files)
    (existing store entry : EditM W D CE SE VE (EditError CE SE VE) Bytes) := by
  refine (aside_onFst (noWrite_show hmap entry)).attempt.bind fun r => ?_
  cases r with
  | ok bytes => exact steps_pure _
  | error e => cases e <;> first | exact steps_pure _ | exact steps_throw _

end Aside

/-- The steps of the program among these leave the files of the store as they were. -/
def OwnKeep {m : Type} (files : W → Files)
    (tr : List (Step (EditEvent CE SE VE ⊕ m) (W × D))) : Prop :=
  ∀ x ∈ tr, ∀ l, x.ev = .inl l → files x.after.1 = files x.before.1

section OwnKeep

variable {κ m : Type} {E : Env κ m (W × D)} {files : W → Files} {s t : W × D}
  {tr tr' : List (Step (EditEvent CE SE VE ⊕ m) (W × D))}

@[simp] theorem ownKeep_append :
    OwnKeep files (tr ++ tr') ↔ OwnKeep files tr ∧ OwnKeep files tr' := by
  simp only [OwnKeep, List.mem_append, or_imp, forall_and]

theorem ownKeep_of_aside {k k' : κ} {p : EditM W D CE SE VE ε α} {r : Except ε α}
    (h : Exec E k p s tr r k' t) (hp : Steps (Aside files) p) : OwnKeep files tr :=
  fun x hx l hl => (h.own hp x hx l hl).2

theorem ownKeep_of_idle (h : Idle E s tr t) : OwnKeep files tr := by
  intro x hx l hl
  obtain ⟨l', -, -, hev, -⟩ := h.steps x hx
  rw [hl] at hev
  cases hev

end OwnKeep

/-! ## What is shown, and what is replaced -/

/-- What `edit` shows of an entry when the store has these files. -/
def ShowsAs (store : Store W CE SE VE) (files : Files) (entry : RelPath) (shown : Bytes) : Prop :=
  match files (entryToBlob entry) with
  | none => shown = []
  | some ciphertext => ∃ w, (store.crypto.decryptFn ciphertext w).1 = .ok shown

section Run

variable {κ m : Type} {E : Env κ m (W × D)} {store : Store W CE SE VE} {files : W → Files}
  {scratch : Scratch D} {entry : RelPath} {k k' : κ} {s t : W × D}

/-- **What is shown** is what the entry has at the reading. -/
theorem existing_shows (hmap : OnMap store files) {shown : Bytes}
    {tr : List (Step (EditEvent CE SE VE ⊕ m) (W × D))}
    (h : Exec E k (existing store entry) s tr (.ok shown) k' t) :
    ∃ pre read later answer, tr = pre ++ read :: later ∧
      read.ev = .inl (.store (.read (entryToBlob entry) answer)) ∧
      ShowsAs store (files read.before.1) entry shown := by
  obtain ⟨r, tr₁, tr₂, k₁, u, rfl, hshow, hr⟩ := h.bind_ok
  obtain ⟨r₀, hr₀, hshow⟩ := hshow.attempt_inv
  obtain rfl := Except.ok.inj hr₀
  rw [Store.show, onFst_bind, onFst_mapErr] at hshow
  rcases hshow.bind_inv with ⟨e, rfl, hread⟩ | ⟨v, tr₃, tr₄, k₂, u₂, rfl, hread, hopen⟩
  · -- the reading fails, which is not the error of an entry that is not there
    obtain ⟨r, hr', -⟩ := hread.mapErr_inv
    cases r with
    | ok v => cases hr'
    | error e =>
      cases hr'
      cases hr.throw_inv
  · have hread := hread.mapErr_ok
    rw [Storage.read, onFst_call] at hread
    obtain ⟨pre, u₃, rfl, -, hcall⟩ := hread.call_inv
    obtain ⟨hanswer, -⟩ := Prod.mk.inj hcall
    have hfile : v = files u₃.1 (entryToBlob entry) := hmap.read_ok _ _ _ hanswer
    refine ⟨pre, _, tr₄ ++ tr₂, _, by rw [List.append_assoc, List.append_assoc]; rfl, rfl, ?_⟩
    dsimp only
    rw [ShowsAs, ← hfile]
    cases v with
    | none =>
      obtain ⟨-, rfl, -, -⟩ := hopen.done_inv
      obtain ⟨-, hshown, -, -⟩ := hr.pure_inv
      exact Except.ok.inj hshown
    | some ciphertext =>
      dsimp only at hopen ⊢
      rw [onFst_mapErr, Crypto.decrypt, onFst_call] at hopen
      obtain ⟨opened, rfl, hdecrypt⟩ := hopen.mapErr_inv
      obtain ⟨-, u₄, -, -, hcall⟩ := hdecrypt.call_inv
      cases opened with
      | error e => cases hr.throw_inv
      | ok bytes =>
        obtain ⟨-, hshown, -, -⟩ := hr.pure_inv
        obtain rfl := Except.ok.inj hshown
        exact ⟨u₄.1, (Prod.mk.inj hcall).1⟩

/-- The workspace has a file with what is shown. -/
theorem stageWorkspace_writes {shown : Bytes} {ws : Workspace}
    {tr : List (Step (EditEvent CE SE VE ⊕ m) (W × D))}
    (h : Exec E k (stageWorkspace scratch entry shown) s tr (.ok ws) k' t) :
    ∃ x ∈ tr, x.ev = .inl (.scratch (.writeAll ws.file shown (.ok ()))) := by
  obtain ⟨parent, tr₁, _, _, _, rfl, -, h₁⟩ := h.bind_ok
  obtain ⟨_, tr₂, _, _, _, rfl, -, h₂⟩ := h₁.bind_ok
  obtain ⟨_, tr₃, _, _, _, rfl, -, h₃⟩ := h₂.bind_ok
  obtain ⟨_, tr₄, _, _, _, rfl, -, h₄⟩ := h₃.bind_ok
  obtain ⟨_, tr₅, _, _, _, rfl, hwrite, h₅⟩ := h₄.bind_ok
  obtain ⟨_, tr₆, _, _, _, rfl, -, h₆⟩ := h₅.bind_ok
  obtain ⟨-, hws, -, -⟩ := h₆.pure_inv
  obtain rfl := Except.ok.inj hws
  obtain ⟨pre, u, rfl, -, hcall⟩ := hwrite.mapErr_ok.call_inv
  have hanswer := (Prod.mk.inj hcall).1
  simp only [List.mem_append]
  refine ⟨_, .inr (.inr (.inr (.inr (.inl (.inr List.mem_cons_self))))), ?_⟩
  dsimp only at hanswer ⊢
  rw [hanswer]

/-- **A write of an insertion** is at the blob of the entry, and the calls before it leave the files
as they were. -/
theorem insert_write (hmap : OnMap store files) {plaintext : Bytes}
    {r : Except (StoreError CE SE VE) Unit}
    {front back : List (Step (EditEvent CE SE VE ⊕ m) (W × D))}
    {x : Step (EditEvent CE SE VE ⊕ m) (W × D)} {path : RelPath} {data : Bytes}
    {answer : Except SE Unit} (hx : x.ev = .inl (.store (.write path data answer)))
    (h : Exec E k ((store.insert entry plaintext true).onFst .store) s (front ++ x :: back) r k' t) :
    path = entryToBlob entry ∧ OwnKeep files front := by
  have hmark : IsWrite (.store (.write path data answer) : EditEvent CE SE VE) := trivial
  have hinsert : store.insert entry plaintext true =
      (resolveRecipients store.storage entry).mapErr .fromGpgId >>= fun rs =>
        (store.crypto.encrypt plaintext rs).mapErr .crypto >>= fun c =>
          (store.storage.write (entryToBlob entry) c).mapErr .storage >>= fun _ =>
            (store.vcs.commit [entryToBlob entry] ("bypass: ".toList ++ "Update".toList ++
              " password for ".toList ++ entry.str)).mapErr .vcs := rfl
  have haside {α : Type} {p : StoreM W CE SE VE α}
      (hp : Steps (fun l w w' => NoWrite l ∧ files w' = files w) p) :=
    aside_onFst (D := D) hp
  have hresolve := haside ((noWrite_resolveRecipients hmap entry).mapErr (g := StoreError.fromGpgId))
  rw [hinsert, onFst_bind] at h
  obtain ⟨rs, tr₁, front₁, k₁, u₁, rfl, h₁, hafter₁⟩ := h.marked_later
    (hresolve.imp fun _ _ _ haside => haside.1) hx hmark
  have hencrypt := haside (p := (store.crypto.encrypt plaintext rs).mapErr .crypto)
    (steps_call fun w => ⟨trivial, hmap.encrypt_files plaintext rs w⟩).mapErr
  rw [onFst_bind] at hafter₁
  obtain ⟨c, tr₂, front₂, k₂, u₂, rfl, h₂, hafter₂⟩ := hafter₁.marked_later
    (hencrypt.imp fun _ _ _ haside => haside.1) hx hmark
  have hcommit (message : Str) := haside
    (p := (store.vcs.commit [entryToBlob entry] message).mapErr .vcs)
    (steps_call fun w => ⟨trivial, hmap.commit_files _ _ w⟩).mapErr
  rw [onFst_bind] at hafter₂
  obtain ⟨r₃, back₃, k₃, u₃, h₃⟩ := hafter₂.marked_before
    (fun _ => (hcommit _).imp fun _ _ _ haside => haside.1) hx hmark
  rw [onFst_mapErr, Storage.write, onFst_call] at h₃
  obtain ⟨r₄, rfl, hcall⟩ := h₃.mapErr_inv
  obtain ⟨hev, hidle⟩ := hcall.call_own hx
  cases hev
  exact ⟨rfl, ownKeep_append.2 ⟨ownKeep_of_aside h₁ hresolve,
    ownKeep_append.2 ⟨ownKeep_of_aside h₂ hencrypt, ownKeep_of_idle hidle⟩⟩⟩

/-- What is shown after some steps is decided by the last step of the others among them. -/
theorem showsAs_iff_lastOther {win : List (Step (EditEvent CE SE VE ⊕ m) (W × D))} {shown : Bytes}
    (h : Path s win t) (hkeep : OwnKeep files win) (hshown : ShowsAs store (files s.1) entry shown) :
    ShowsAs store (files t.1) entry shown ↔
      ∀ x ∈ lastOther win, ShowsAs store (files x.after.1) entry shown := by
  have hfiles : files t.1 = ((lastOther win).map fun x => files x.after.1).getD (files s.1) :=
    Path.lastOther (g := fun w : W × D => files w.1) h hkeep
  rw [hfiles]
  cases lastOther win with
  | none => simpa using hshown
  | some x => simp

/-- **When `edit` replaces what it showed.** A write of its run is at the blob of the entry. Before
it, the run has read the blob, and written what it shows into the file for the editor. The write
replaces what was shown exactly when the last step of the others between the reading and the write,
if there was one, left the entry with that. -/
theorem edit_replaces_what_it_showed (hmap : OnMap store files)
    {r : Except (EditError CE SE VE) Unit}
    {front back : List (Step (EditEvent CE SE VE ⊕ m) (W × D))}
    {write : Step (EditEvent CE SE VE ⊕ m) (W × D)} {path : RelPath} {data : Bytes}
    {answer : Except SE Unit}
    (h : Exec E k (run store scratch entry) s (front ++ write :: back) r k' t)
    (hwrite : write.ev = .inl (.store (.write path data answer))) :
    path = entryToBlob entry ∧
      ∃ pre read win shown answer, front = pre ++ read :: win ∧
        read.ev = .inl (.store (.read (entryToBlob entry) answer)) ∧
        ShowsAs store (files read.before.1) entry shown ∧
        (∃ x ∈ win, ∃ file, x.ev = .inl (.scratch (.writeAll file shown (.ok ())))) ∧
        (ShowsAs store (files write.before.1) entry shown ↔
          ∀ x ∈ lastOther win, ShowsAs store (files x.after.1) entry shown) := by
  have hmark : IsWrite (.store (.write path data answer) : EditEvent CE SE VE) := trivial
  have aside_stage {plaintext : Bytes} : Steps (Aside files) (stageWorkspace scratch entry plaintext :
      EditM W D CE SE VE (EditError CE SE VE) Workspace) := aside_stageWorkspace
  obtain ⟨shown, tr₁, front₁, k₁, u₁, rfl, h₁, hafter₁⟩ := h.marked_later
    ((aside_existing hmap).imp fun _ _ _ haside => haside.1) hwrite hmark
  obtain ⟨ws, tr₂, front₂, k₂, u₂, rfl, h₂, hafter₂⟩ := hafter₁.marked_later
    (aside_stage.imp fun _ _ _ haside => haside.1) hwrite hmark
  have hdrop (r : Except (EditError CE SE VE) Unit) : Steps (Aside files)
      (dropWorkspace scratch ws.dir >>= fun _ => .done r :
        EditM W D CE SE VE (EditError CE SE VE) Unit) := aside_dropWorkspace.bind fun _ => trivial
  obtain ⟨r₃, back₃, k₃, u₃, hattempt⟩ := hafter₂.marked_before
    (fun r => (hdrop r).imp fun _ _ _ haside => haside.1) hwrite hmark
  obtain ⟨r₄, -, hsession⟩ := hattempt.attempt_inv
  have hspawn : Steps (Aside files)
      (spawnEditor scratch ws.file : EditM W D CE SE VE (EditError CE SE VE) Unit) :=
    aside_spawnEditor
  obtain ⟨⟨⟩, tr₃, front₃, k₄, u₄, rfl, h₃, hafter₃⟩ := hsession.marked_later
    (hspawn.imp fun _ _ _ haside => haside.1) hwrite hmark
  have hread : Steps (Aside files) ((scratchCall (.read ws.file) (scratch.readFn ws.file)).mapErr
      (.readTempfile ws.file) : EditM W D CE SE VE (EditError CE SE VE) Bytes) :=
    aside_scratchCall.mapErr
  obtain ⟨newPlaintext, tr₄, front₄, k₅, u₅, rfl, h₄, hafter₄⟩ := hafter₃.marked_later
    (hread.imp fun _ _ _ haside => haside.1) hwrite hmark
  split_ifs at hafter₄ with hsame
  · obtain ⟨hnil, -⟩ := hafter₄.pure_inv
    exact absurd hnil (by simp)
  obtain ⟨r₅, -, hinsert⟩ := hafter₄.mapErr_inv
  obtain ⟨hpath, hkeep₄⟩ := insert_write hmap hwrite hinsert
  -- what is read, and the calls from there to the write
  have hkeep₁ := ownKeep_of_aside h₁ (aside_existing hmap)
  have hkeep₂ := ownKeep_of_aside h₂ aside_stage
  have hkeep₃ := ownKeep_of_aside h₃ hspawn
  have hkeep := ownKeep_of_aside h₄ hread
  obtain ⟨x, hx, hfile⟩ := stageWorkspace_writes h₂
  obtain ⟨pre, read, later, readAnswer, rfl, hev, hshown⟩ := existing_shows hmap h₁
  refine ⟨hpath, pre, read, later ++ (tr₂ ++ (tr₃ ++ (tr₄ ++ front₄))), shown, readAnswer,
    by simp, hev, hshown, ⟨x, by simp [hx], ws.file, hfile⟩, ?_⟩
  rw [← List.singleton_append, ownKeep_append, ownKeep_append] at hkeep₁
  have hafter : files read.after.1 = files read.before.1 :=
    hkeep₁.2.1 read (List.mem_singleton_self _) _ hev
  have hwin : OwnKeep files (later ++ (tr₂ ++ (tr₃ ++ (tr₄ ++ front₄)))) := by
    simp only [ownKeep_append]
    exact ⟨hkeep₁.2.2, hkeep₂, hkeep₃, hkeep, hkeep₄⟩
  obtain ⟨u, hfront, hback⟩ := path_append.1 h.path
  obtain ⟨hu, -⟩ := hback
  rw [List.append_assoc, List.cons_append] at hfront
  obtain ⟨u', -, -, hwinPath⟩ := path_append.1 hfront
  rw [hu]
  exact showsAs_iff_lastOther hwinPath hwin (hafter ▸ hshown)

end Run

/-! ## An entry that is added while it is edited -/

/-- A machine whose editor adds a byte to the file; its state is what the file has. -/
def oneFile : Scratch Bytes where
  isDirFn _ d := (true, d)
  createNewFn _ _ d := (.ok (), d)
  removeFileFn _ d := d
  createDirFn _ d := (.ok (), d)
  setPermissionsFn _ _ d := d
  writeAllFn _ data _ := (.ok (), data)
  syncAllFn _ d := (.ok (), d)
  shFn _ d := (.ok ⟨true, "exit status: 0".toList⟩, d ++ [7])
  readFn _ d := (.ok d, d)
  readDirFn _ d := (.ok [("mail".toList, true)], d)
  overwriteThenUnlinkFn _ _ := []
  removeDirFn _ d := d
  tempDir := "/tmp".toList
  editor := none
  pid := 1
  subsecNanos := 0

def raceEntry : RelPath := ⟨"mail".toList, validate_mail⟩

def raceWorld : MemFiles × Bytes :=
  ((∅ : MemFiles).insert gpgIdPath (utf8Encode "ALICE\n".toList), [])

/-- Another process adds the entry. -/
def raceOther : EditM MemFiles Bytes TaggedError Empty Empty (StoreError TaggedError Empty Empty) Unit :=
  (memStore.insert raceEntry [9] false).onFst .store

/-- The other process runs after the entry was read, and found missing. -/
def raceRun := (run memStore oneFile raceEntry).runUnder (fun p w => p.envStep w) [0, 20] raceOther
  raceWorld

def raceCiphertext (plaintext : Bytes) : Bytes :=
  tagHeader [⟨"ALICE".toList⟩] ++ plaintext.map (· ^^^ 0xAA)

theorem raceRun_exec : Exec toEnv raceOther (run memStore oneFile raceEntry) raceWorld raceRun.1
    (.ok ()) raceRun.2.2.1 raceRun.2.2.2 := by
  have hrun := exec_runUnder (E := toEnv) (fun p w => p.envStep w)
    (fun _ _ _ _ _ h => toEnv_of_envStep h) (run memStore oneFile raceEntry) [0, 20] raceOther
    raceWorld
  have hres : raceRun.2.1 = .ok () := by decide +kernel
  rw [← hres]
  exact hrun

/-- **An update is overwritten**: the entry was shown as empty, another process added it, with
success, and the edit replaces what that process wrote. -/
theorem edit_overwrites_an_update :
    ∃ tr k t, Exec toEnv raceOther (run memStore oneFile raceEntry) raceWorld tr (.ok ()) k t ∧
      (∃ x ∈ tr, ∃ file, x.ev = .inl (.scratch (.writeAll file [] (.ok ())))) ∧
      (∃ x ∈ tr, x.ev = .inr (.store (.commit [entryToBlob raceEntry]
        "bypass: Add password for mail".toList (.ok ())))) ∧
      ∃ write ∈ tr, write.ev = .inl (.store (.write (entryToBlob raceEntry) (raceCiphertext [7])
          (.ok ()))) ∧
        ShowsAs memStore (memFiles write.before.1) raceEntry [9] ∧
        ¬ ShowsAs memStore (memFiles write.before.1) raceEntry [] := by
  have hstaged : ∃ x ∈ raceRun.1, x.ev =
      .inl (.scratch (.writeAll "/dev/shm/bypass-edit.1.0/mail".toList [] (.ok ()))) := by
    decide +kernel
  obtain ⟨x, hx, hev⟩ := hstaged
  have hwrite : ∃ write ∈ raceRun.1, write.ev = .inl (.store (.write (entryToBlob raceEntry)
      (raceCiphertext [7]) (.ok ()))) ∧
        memFiles write.before.1 (entryToBlob raceEntry) = some (raceCiphertext [9]) := by
    decide +kernel
  obtain ⟨write, hmem, hwriteEv, hfile⟩ := hwrite
  have hopen (w : MemFiles) := taggedCrypto_opens [⟨"ALICE".toList⟩] [9] w
  refine ⟨raceRun.1, _, _, raceRun_exec, ⟨x, hx, _, hev⟩, by decide +kernel, write, hmem, hwriteEv,
    ?_, fun hshows => ?_⟩
  · rw [ShowsAs, hfile]
    exact ⟨∅, congrArg Prod.fst (hopen ∅)⟩
  · rw [ShowsAs, hfile] at hshows
    obtain ⟨w, hw⟩ := hshows
    cases (congrArg Prod.fst (hopen w)).symm.trans hw

theorem edit_replaces_in_race :
    ∃ front write back, raceRun.1 = front ++ write :: back ∧
      entryToBlob raceEntry = entryToBlob raceEntry ∧
      ∃ pre read win shown answer, front = pre ++ read :: win ∧
        read.ev = .inl (.store (.read (entryToBlob raceEntry) answer)) ∧
        ShowsAs memStore (memFiles read.before.1) raceEntry shown ∧
        (∃ x ∈ win, ∃ file, x.ev = .inl (.scratch (.writeAll file shown (.ok ())))) ∧
        (ShowsAs memStore (memFiles write.before.1) raceEntry shown ↔
          ∀ x ∈ lastOther win, ShowsAs memStore (memFiles x.after.1) raceEntry shown) := by
  have hwrite : ∃ write ∈ raceRun.1, write.ev =
      .inl (.store (.write (entryToBlob raceEntry) (raceCiphertext [7]) (.ok ()))) := by
    decide +kernel
  obtain ⟨write, hmem, hev⟩ := hwrite
  obtain ⟨front, back, hsplit⟩ := List.append_of_mem hmem
  have hexec := raceRun_exec
  rw [hsplit] at hexec
  exact ⟨front, write, back, hsplit, edit_replaces_what_it_showed memStore_onMap hexec hev⟩

end Edit

end Bypass
