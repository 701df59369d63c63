import Bypass.Git.Plain

/-!
# The leak audit

`audit.rs`: whether a file looks like ciphertext or known metadata (`checkFile`), and the audit of
what `git push` would publish (`auditForPush`). The audit lists names from the output of git and
reads each of them from the working tree, while what is pushed are commits.

* `plaintext_flagged_iff`: **when plaintext is flagged**.
* `auditForPush_ok`: what a clean audit has looked at, and found good.
* `audit_for_push_complete_iff`: a clean audit vouches for every version that a pushed commit
  introduces exactly when the versions it did not look at would pass.
-/

namespace Bypass

/-! ## Checking a file -/

/-- `LeakKind`. -/
inductive LeakKind where
  | editorBackup
  | notEncrypted
  | unknownFilename
  deriving DecidableEq

/-- `LeakKind::describe`. -/
def LeakKind.describe : LeakKind → Str
  | editorBackup => "editor backup".toList
  | notEncrypted => "not encrypted".toList
  | unknownFilename => "unknown filename".toList

/-- `LeakIssue`. -/
structure LeakIssue where
  path : Bytes
  kind : LeakKind
  detail : Str
  deriving DecidableEq

/-- `Path::file_name`: the last component, where empty and `.` components do not count, unless it
is `..`. -/
def pathFileName (path : Bytes) : Option Bytes :=
  (((path.splitOn 0x2f).filter fun c => c ≠ [] ∧ c ≠ [0x2e]).getLast?).filter (· ≠ [0x2e, 0x2e])

/-- `path.file_name().and_then(|s| s.to_str()).unwrap_or("")`. -/
def auditName (path : Bytes) : Str := ((pathFileName path).bind utf8Decode?).getD []

/-- `looks_like_openpgp`. -/
def looksLikeOpenpgp (head : Bytes) : Bool :=
  (match head with
    | first :: _ => decide (0x80 ≤ first)
    | [] => false) ||
    decide (utf8Encode "-----BEGIN PGP MESSAGE-----".toList <+: head)

/-- `is_allowlisted_metadata`. -/
def isAllowlistedMetadata (name : Str) : Bool :=
  name = ".gpg-id".toList || name = ".gpg-id.sig".toList || name = ".gitignore".toList ||
    name = ".gitattributes".toList || "README".toList <+: name || "LICENSE".toList <+: name

/-- `is_editor_backup`. -/
def isEditorBackup (name : Str) : Bool :=
  if ".".toList <+: name ∧ (".swp".toList <:+ name ∨ ".swo".toList <:+ name) then true
  else if "#".toList <+: name ∧ "#".toList <:+ name ∧ 2 ≤ (utf8Encode name).length then true
  else "~".toList <:+ name || ".orig".toList <:+ name || ".rej".toList <:+ name ||
    ".bak".toList <:+ name

/-- `check_file`. -/
def checkFile (path head : Bytes) : Option LeakIssue :=
  let name := auditName path
  if isEditorBackup name then
    some ⟨path, .editorBackup, "editor-backup naming pattern".toList⟩
  else if ".gpg".toList <:+ name then
    if looksLikeOpenpgp head then none
    else some ⟨path, .notEncrypted, "no OpenPGP packet or ASCII-armour header".toList⟩
  else if isAllowlistedMetadata name then none
  else some ⟨path, .unknownFilename, "not `*.gpg` or recognised metadata".toList⟩

/-- `check_files`. -/
def checkFiles (files : List (Bytes × Bytes)) : List LeakIssue :=
  files.filterMap fun f => checkFile f.1 f.2

theorem checkFiles_eq_nil {files : List (Bytes × Bytes)} :
    checkFiles files = [] ↔ ∀ f ∈ files, checkFile f.1 f.2 = none :=
  List.filterMap_eq_nil_iff

/-! ## Plaintext -/

/-- The first bytes of a message in ASCII armour. -/
def armourHeader : Bytes := utf8Encode "-----BEGIN PGP MESSAGE-----".toList

/-- **Which text looks like a message**: one whose first character is not ASCII. -/
theorem looksLikeOpenpgp_text {text : Str} (harmour : ¬armourHeader <+: utf8Encode text) :
    looksLikeOpenpgp (utf8Encode text) = false ↔ ∀ c ∈ text.head?, c.toNat < 0x80 := by
  have hsniff : looksLikeOpenpgp (utf8Encode text) = match utf8Encode text with
      | first :: _ => decide (0x80 ≤ first)
      | [] => false := by
    have hno : decide (armourHeader <+: utf8Encode text) = false := decide_eq_false harmour
    unfold looksLikeOpenpgp
    exact (congrArg _ hno).trans (Bool.or_false _)
  rw [hsniff]
  cases text with
  | nil => exact iff_of_true rfl nofun
  | cons c s =>
    obtain ⟨b, bs, hcons, -⟩ := utf8Encode_cons c s
    rw [hcons, List.head?_cons]
    dsimp only
    rw [decide_eq_false_iff_not, UInt8.not_le, utf8Encode_head_ascii hcons]
    constructor
    · intro hc d hd
      rwa [← Option.some.inj hd]
    · exact fun h => h c rfl

/-- The name of an audited file, as text, ends as its bytes do. -/
theorem gpg_suffix_auditName {path name : Bytes} {s : Str} (hname : pathFileName path = some name)
    (hs : utf8Decode? name = some s) (hgpg : utf8Encode ".gpg".toList <:+ name) :
    auditName path = s ∧ ".gpg".toList <:+ s := by
  refine ⟨?_, ?_⟩
  · rw [auditName, hname, Option.bind_some, hs, Option.getD_some]
  · obtain ⟨a, ha⟩ := hgpg
    have hbytes : utf8Encode s = a ++ 0x2e :: utf8Encode "gpg".toList := by
      rw [utf8Decode?_eq_some.1 hs, ← ha]
      rfl
    obtain ⟨t, u, rfl, -, hu⟩ := utf8Encode_eq_append (by decide) hbytes
    have hgpg : u = ".gpg".toList := utf8Encode_injective hu
    rw [hgpg]
    exact List.suffix_append _ _

/-- **When plaintext is flagged**: when the name of its file is UTF-8, and it starts with an ASCII
character or not at all. -/
theorem plaintext_flagged_iff {path name : Bytes} {text : Str} (hname : pathFileName path = some name)
    (hgpg : utf8Encode ".gpg".toList <:+ name) (hbackup : isEditorBackup (auditName path) = false)
    (harmour : ¬armourHeader <+: utf8Encode text) :
    (∃ issue, checkFile path (utf8Encode text) = some issue ∧ issue.kind = .notEncrypted) ↔
      (utf8Decode? name).isSome = true ∧ ∀ c ∈ text.head?, c.toNat < 0x80 := by
  have hnot : ¬isEditorBackup (auditName path) = true := by simp [hbackup]
  cases hs : utf8Decode? name with
  | none =>
    -- such a name is taken for an empty one
    have hempty : auditName path = [] := by
      rw [auditName, hname, Option.bind_some, hs, Option.getD_none]
    refine iff_of_false ?_ (by simp)
    rintro ⟨issue, hissue, hkind⟩
    rw [checkFile, if_neg hnot, hempty, if_neg (by decide), if_neg (by decide)] at hissue
    rw [← Option.some.inj hissue] at hkind
    cases hkind
  | some s =>
    obtain ⟨haudit, hsuffix⟩ := gpg_suffix_auditName hname hs hgpg
    rw [← looksLikeOpenpgp_text harmour, checkFile, if_neg hnot, haudit, if_pos hsuffix]
    cases looksLikeOpenpgp (utf8Encode text) with
    | true =>
      refine iff_of_false ?_ (by simp)
      rintro ⟨issue, hissue, -⟩
      cases hissue
    | false => exact iff_of_true ⟨_, rfl, rfl⟩ ⟨rfl, rfl⟩

/-- A text that starts with a letter that is not ASCII passes. -/
theorem umlaut_passes :
    ¬∀ (path name : Bytes) (text : Str), pathFileName path = some name →
      utf8Encode ".gpg".toList <:+ name → isEditorBackup (auditName path) = false →
      ¬armourHeader <+: utf8Encode text →
      ∃ issue, checkFile path (utf8Encode text) = some issue ∧ issue.kind = .notEncrypted := by
  intro h
  obtain ⟨issue, hissue, -⟩ := h (utf8Encode "a.gpg".toList) (utf8Encode "a.gpg".toList)
    "ähre".toList (by decide +kernel) (by decide +kernel) (by decide +kernel) (by decide +kernel)
  have hpasses : checkFile (utf8Encode "a.gpg".toList) (utf8Encode "ähre".toList) = none := by
    decide +kernel
  rw [hpasses] at hissue
  cases hissue

theorem plaintext_flagged_pw :
    (∃ issue, checkFile (utf8Encode "a.gpg".toList) (utf8Encode "pw".toList) = some issue ∧
        issue.kind = .notEncrypted) ↔
      (utf8Decode? (utf8Encode "a.gpg".toList)).isSome = true ∧
        ∀ c ∈ ("pw".toList).head?, c.toNat < 0x80 :=
  plaintext_flagged_iff (by decide +kernel) (List.suffix_append (utf8Encode ['a']) _)
    (by decide +kernel) (by decide +kernel)

/-! ## Versions -/

/-- A commit introduces a version of a file: it has it, and none of its parents does. -/
def Introduces (c : Commit) (path content : Bytes) : Prop :=
  c.tree[path]? = some content ∧ ∀ p ∈ c.parents, p.tree[path]? ≠ some content

/-! ## The audit before a push -/

/-- What `fs::read` answers. -/
inductive FileRead where
  | content (d : Bytes)
  | notFound
  | failed (e : Str)
  deriving DecidableEq

/-- How the audit fails. -/
inductive AuditError where
  | spawnLsFiles (e : Str)
  | lsFiles (stderr : Str)
  | spawnRevParse (e : Str)
  | spawnDiff (e : Str)
  | diff (stderr : Str)
  | read (path : Bytes) (e : Str)
  deriving DecidableEq

/-- A program of the audit. -/
abbrev AuditM := Prog Command Repo AuditError

section Audit

variable (git : Git) (disk : Bytes → FileRead)

/-- `git_diff_against_upstream`. -/
def gitDiffAgainstUpstream : AuditM (Option (List Bytes)) := do
  match ← git.revParseUpstream.mapErr .spawnRevParse with
  | .error _ => pure none
  | .ok _ =>
    match ← git.diffUpstream.mapErr .spawnDiff with
    | .error stderr => throw (.diff stderr)
    | .ok out => pure (some (parsePathlist out))

/-- `files_to_audit`. -/
def filesToAudit : AuditM (List Bytes) := do
  match ← gitDiffAgainstUpstream git with
  | some diff => pure diff
  | none =>
    match ← git.lsFiles.mapErr .spawnLsFiles with
    | .error stderr => throw (.lsFiles stderr)
    | .ok out => pure (parsePathlist out)

/-- The loop of `audit_for_push`: read each file; one that is not there is passed over. -/
def readForAudit : List Bytes → Except AuditError (List (Bytes × Bytes))
  | [] => .ok []
  | rel :: rest =>
    match disk rel with
    | .content d =>
      match readForAudit rest with
      | .ok pairs => .ok ((rel, d) :: pairs)
      | .error e => .error e
    | .notFound => readForAudit rest
    | .failed e => .error (.read rel e)

/-- `audit_for_push`; `disk` is what reading a file under the store root answers. -/
def auditForPush : AuditM (List LeakIssue) := do
  let files ← filesToAudit git
  let pairs ← Prog.done (readForAudit disk files)
  pure (checkFiles pairs)

/-! ## What a clean audit vouches for -/

/-- The names that the audit lists of a repository: those that differ between the upstream commit
and `HEAD`, or all that are tracked where the upstream commit is not found. -/
def auditedNames (r : Repo) : List Bytes :=
  match git.fault .revParseUpstream r, r.upstream with
  | none, some u => git.changedNames u.tree ((r.head.map Merkle.tree).getD ∅)
  | _, _ => r.index.keys

/-- **The audit looks at a version of a file**: git lists the name, as it is, and this version is
the one on disk. -/
def Audited (r : Repo) (path content : Bytes) : Prop :=
  path ∈ auditedNames git r ∧ path ≠ [] ∧ Plain path ∧ disk path = .content content

variable {git disk} {r r' : Repo}

theorem parsePathlist_quoted (names : List Bytes) :
    parsePathlist (unlines (names.map quote)) = (names.map quote).filter (· ≠ []) := by
  apply parsePathlist_lines
  intro l hl
  obtain ⟨name, -, rfl⟩ := List.mem_map.1 hl
  exact printable_quote name

theorem gitDiffAgainstUpstream_ok {diff : Option (List Bytes)}
    (h : (gitDiffAgainstUpstream git).run r = (.ok diff, r')) :
    r' = r ∧ (diff = none ∧ auditedNames git r = r.index.keys ∨
      diff = some (((auditedNames git r).map quote).filter (· ≠ []))) := by
  obtain ⟨up, r₁, hup, hrest⟩ := Prog.run_bind_ok h
  obtain ⟨rfl, hup⟩ := Git.run_output_ok (Prog.run_mapErr_ok hup)
  rcases hup with ⟨e, hfault, rfl⟩ | ⟨hfault, rfl⟩
  · cases hrest
    exact ⟨rfl, Or.inl ⟨rfl, by simp only [auditedNames, hfault]⟩⟩
  · cases hu : r₁.upstream with
    | none =>
      rw [hu] at hrest
      cases hrest
      exact ⟨rfl, Or.inl ⟨rfl, by simp only [auditedNames, hfault, hu]⟩⟩
    | some u =>
      rw [hu] at hrest
      obtain ⟨out, r₂, hout, hrest⟩ := Prog.run_bind_ok hrest
      obtain ⟨rfl, ⟨e, -, rfl⟩ | ⟨-, rfl⟩⟩ := Git.run_output_ok (Prog.run_mapErr_ok hout)
      · cases hrest
      · cases hh : r₂.head with
        | none =>
          rw [hu, hh] at hrest
          cases hrest
        | some c =>
          rw [hu, hh] at hrest
          cases hrest
          simp only [auditedNames, hfault, hu, hh, true_and]
          exact Or.inr (congrArg some (parsePathlist_quoted _))

/-- The names that the audit works on are those it lists, as git prints them. -/
theorem filesToAudit_ok {files : List Bytes} (h : (filesToAudit git).run r = (.ok files, r')) :
    files = ((auditedNames git r).map quote).filter (· ≠ []) := by
  obtain ⟨diff, r₁, hdiff, hrest⟩ := Prog.run_bind_ok h
  obtain ⟨rfl, ⟨rfl, hnames⟩ | rfl⟩ := gitDiffAgainstUpstream_ok hdiff
  · obtain ⟨out, r₂, hout, hrest⟩ := Prog.run_bind_ok hrest
    obtain ⟨rfl, ⟨e, -, rfl⟩ | ⟨-, rfl⟩⟩ := Git.run_output_ok (Prog.run_mapErr_ok hout)
    · cases hrest
    · cases hrest
      rw [hnames]
      exact parsePathlist_quoted _
  · cases hrest
    rfl

theorem mem_readForAudit {files : List Bytes} {pairs : List (Bytes × Bytes)}
    (h : readForAudit disk files = .ok pairs) {path content : Bytes} (hp : path ∈ files)
    (hd : disk path = .content content) : (path, content) ∈ pairs := by
  induction files generalizing pairs with
  | nil => simp at hp
  | cons rel rest ih =>
    rw [readForAudit] at h
    cases hrel : disk rel with
    | content d =>
      rw [hrel] at h
      cases hrest : readForAudit disk rest with
      | error e => simp [hrest] at h
      | ok ps =>
        simp only [hrest, Except.ok.injEq] at h
        rw [← h]
        rcases List.mem_cons.1 hp with rfl | hp
        · obtain rfl : d = content := by simpa [hrel] using hd
          exact List.mem_cons_self
        · exact List.mem_cons_of_mem _ (ih hrest hp)
    | notFound =>
      rw [hrel] at h
      rcases List.mem_cons.1 hp with rfl | hp
      · rw [hrel] at hd
        cases hd
      · exact ih h hp
    | failed e =>
      rw [hrel] at h
      cases h

/-- **What a clean audit has looked at is good.** -/
theorem auditForPush_ok (h : ((auditForPush git disk).run r).1 = .ok []) {path content : Bytes}
    (ha : Audited git disk r path content) : checkFile path content = none := by
  obtain ⟨hname, hne, hplain, hdisk⟩ := ha
  have hrun : (auditForPush git disk).run r = (.ok [], ((auditForPush git disk).run r).2) :=
    Prod.ext h rfl
  obtain ⟨files, r₁, hfiles, hrun⟩ := Prog.run_bind_ok hrun
  obtain ⟨pairs, r₂, hpairs, hrun⟩ := Prog.run_bind_ok hrun
  have hread : readForAudit disk files = .ok pairs := congrArg Prod.fst hpairs
  have hclean : checkFiles pairs = [] := Except.ok.inj (congrArg Prod.fst hrun)
  have hmem : path ∈ files := by
    rw [filesToAudit_ok hfiles, List.mem_filter]
    exact ⟨List.mem_map.2 ⟨path, hname, quote_eq_self.2 hplain⟩, by simpa using hne⟩
  exact checkFiles_eq_nil.1 hclean _ (mem_readForAudit hread hmem hdisk)

end Audit

/-- The commits that a push publishes. -/
def pushedCommits (r : Repo) : List Commit :=
  match r.upstream, r.head with
  | some u, some h => Merkle.range (some u) h
  | _, _ => []

/-- **When a clean audit vouches for what is pushed**: every version that a commit of
`@{upstream}..HEAD` introduces passes, if and only if those pass that the audit did not look at. -/
theorem audit_for_push_complete_iff (git : Git) (disk : Bytes → FileRead) (r : Repo)
    (hclean : ((auditForPush git disk).run r).1 = .ok []) :
    (∀ c ∈ pushedCommits r, ∀ path content, Introduces c path content →
        checkFile path content = none) ↔
      ∀ c ∈ pushedCommits r, ∀ path content, Introduces c path content →
        ¬ Audited git disk r path content → checkFile path content = none := by
  constructor
  · intro hall c hc path content hi _
    exact hall c hc path content hi
  · intro hrest c hc path content hi
    by_cases ha : Audited git disk r path content
    · exact auditForPush_ok hclean ha
    · exact hrest c hc path content hi ha

/-! ## A deleted file -/

/-- An empty store, a commit that adds a plaintext note, and one that removes it. -/
def noteBase : Commit := commitOf 1 [] []

def noteAdded : Commit := commitOf 2 [("notes.txt".toList, "hunter2".toList)] [noteBase]

def noteRemoved : Commit := commitOf 3 [] [noteAdded]

/-- The repository with these commits, of which the first is upstream. -/
def noteRepo : Repo :=
  { repoAt noteRemoved [noteRemoved, noteAdded, noteBase] (by decide +kernel) (by simp) with
    upstream := some noteBase }

/-- Its working tree is empty. -/
def noteDisk : Bytes → FileRead := fun _ => .notFound

/-- **A push can publish what its audit would flag**: the note is in the history that is pushed,
and the audit is clean. -/
theorem audit_for_push_incomplete :
    ((auditForPush (plainGit []) noteDisk).run noteRepo).1 = .ok [] ∧
      ∃ c ∈ pushedCommits noteRepo, ∃ path content, Introduces c path content ∧
        checkFile path content ≠ none := by
  refine ⟨by decide +kernel, noteAdded, by decide +kernel, utf8Encode "notes.txt".toList,
    utf8Encode "hunter2".toList, ⟨by decide +kernel, by decide +kernel⟩, by decide +kernel⟩

/-- The clean audit of the note's repository. -/
theorem audit_for_push_complete_iff_note :
    (∀ c ∈ pushedCommits noteRepo, ∀ path content, Introduces c path content →
        checkFile path content = none) ↔
      ∀ c ∈ pushedCommits noteRepo, ∀ path content, Introduces c path content →
        ¬ Audited (plainGit []) noteDisk noteRepo path content → checkFile path content = none :=
  audit_for_push_complete_iff (plainGit []) noteDisk noteRepo (by decide +kernel)

end Bypass
