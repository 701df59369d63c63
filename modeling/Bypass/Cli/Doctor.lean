import Bypass.Core.Gitattributes

/-!
# The attributes of a store, checked and repaired

`bypass sync` calls `install_gitattributes` each time (`installGitattributesIfMissing`), and
`bypass doctor` has a check of its own for the rule (`runCheckGitattributes`). The first decodes the
file strictly and finds no rule in one that is not UTF-8; the second replaces what does not decode.

* `hasRule_withGpgRule`: the doctor sees a rule that was appended, whatever was there before.
* `hasGpgBinaryRule_withGpgRule`: the store sees it in a file that is UTF-8.
* `extends_once_iff`: **when installing the rule is idempotent**.
* `sync_commits_again`: in a file that is not UTF-8 each sync appends the rule, and commits it.
-/

namespace Bypass

open Prog

/-! ## The check of the doctor -/

/-- `Status`. -/
inductive Status where
  | ok
  | warn
  | fail
  deriving DecidableEq

/-- `Check`. -/
structure Check where
  name : Str
  status : Status
  detail : Str

def Check.ok (name detail : Str) : Check := ⟨name, .ok, detail⟩

def Check.warn (name detail : Str) : Check := ⟨name, .warn, detail⟩

def Check.fail (name detail : Str) : Check := ⟨name, .fail, detail⟩

/-- The rule, as the doctor looks for it. -/
def hasRule (body : Bytes) : Bool := (lines (utf8Lossy body)).any isGpgBinaryRule

/-- `run_check_gitattributes`, on the file at `path`: it may not exist, and reading it may fail. -/
def runCheckGitattributes (path : Str) (file : Option (Except Str Bytes)) : Check :=
  match file with
  | none => .fail ".gitattributes".toList
      "missing; `bypass sync` will install `*.gpg binary` automatically on next run".toList
  | some (.error e) =>
    .warn ".gitattributes".toList ("cannot read ".toList ++ path ++ ": ".toList ++ e)
  | some (.ok body) =>
    if hasRule body then
      .ok ".gitattributes".toList
        "carries `*.gpg binary` rule (line-ending normalisation disabled)".toList
    else
      .fail ".gitattributes".toList
        "missing `*.gpg binary` rule; cross-platform clones may corrupt ciphertext".toList

/-- The check passes on a file that has the rule. -/
theorem runCheckGitattributes_ok (path : Str) (file : Option Bytes) :
    (runCheckGitattributes path (file.map .ok)).status = .ok ↔
      hasRule (file.getD []) = true := by
  cases file with
  | none =>
    have hfail : (runCheckGitattributes path (Option.none.map .ok)).status = .fail := rfl
    rw [hfail]
    exact iff_of_false nofun (by decide)
  | some body =>
    rw [Option.map_some, Option.getD_some, runCheckGitattributes]
    split_ifs with h
    · exact iff_of_true rfl h
    · rw [Check.fail]
      exact iff_of_false nofun h

/-! ## Who sees the rule -/

/-- Lines stay lines behind another one. -/
theorem mem_lines_append {l : Str} (a : Str) {b : Str} (h : l ∈ lines b) :
    l ∈ lines (a ++ '\n' :: b) := by
  have hne : b.splitOn '\n' ≠ [] := List.splitOn_ne_nil _ _
  rw [lines, List.mem_append] at h
  rw [lines, List.splitOn_append_cons_self, List.dropLast_append_of_ne_nil hne,
    List.getLast?_append_of_ne_nil _ hne, List.map_append, List.append_assoc]
  exact List.mem_append_right _ (List.mem_append.2 h)

theorem any_lines_append (a : Str) {b : Str} {P : Str → Bool} (h : (lines b).any P = true) :
    (lines (a ++ '\n' :: b)).any P = true := by
  obtain ⟨l, hl, hP⟩ := List.any_eq_true.1 h
  exact List.any_eq_true.2 ⟨l, mem_lines_append a hl, hP⟩

theorem lines_gitattributesRule : (lines gitattributesRule).any isGpgBinaryRule = true := by
  decide +kernel

theorem utf8Encode_newline (s : Str) : utf8Encode ('\n' :: s) = 0x0A :: utf8Encode s := rfl

/-- **The doctor sees the rule that was appended**, whatever was there before. -/
theorem hasRule_withGpgRule (existing : Bytes) : hasRule (withGpgRule existing) = true := by
  rcases withGpgRule_eq existing with ⟨hnew, -⟩ | ⟨a, hnew, -⟩
  · rw [hasRule, hnew, ← utf8Encode_gitattributesRule, utf8Lossy_encode]
    exact lines_gitattributesRule
  · rw [hasRule, hnew, utf8Lossy_append _ _ (by decide), ← utf8Encode_gitattributesRule,
      ← utf8Encode_newline, utf8Lossy_encode]
    exact any_lines_append _ lines_gitattributesRule

/-- They agree on a file that is UTF-8. -/
theorem hasRule_of_utf8 {body : Bytes} (h : (utf8Decode? body).isSome) :
    hasRule body = hasGpgBinaryRule body := by
  obtain ⟨text, htext⟩ := Option.isSome_iff_exists.1 h
  rw [hasRule, hasGpgBinaryRule, htext, ← utf8Decode?_eq_some.1 htext, utf8Lossy_encode]

/-- The rule is ASCII. -/
theorem utf8_withGpgRule (existing : Bytes) :
    (utf8Decode? (withGpgRule existing)).isSome = (utf8Decode? existing).isSome := by
  have hline (b : Bytes) : (utf8Decode? (b ++ 0x0A :: (ruleLine ++ [0x0A]))).isSome =
      (utf8Decode? b).isSome := by
    rw [utf8Decode?_append _ _ (by decide), ← utf8Encode_gitattributesRule, ← utf8Encode_newline,
      utf8Decode?_encode]
    cases utf8Decode? b <;> rfl
  have hend (b : Bytes) : (utf8Decode? (b ++ [0x0A])).isSome = (utf8Decode? b).isSome := by
    rw [utf8Decode?_append _ _ (by decide)]
    cases utf8Decode? b <;> rfl
  rcases withGpgRule_eq existing with ⟨hnew, rfl⟩ | ⟨a, hnew, -, rfl | rfl⟩
  · rw [hnew, ← utf8Encode_gitattributesRule, utf8Decode?_encode]
    rfl
  · rw [hnew, hline]
  · rw [hnew, hline, hend]

/-- **The store sees the rule that was appended** to a file that is UTF-8, and only then. -/
theorem hasGpgBinaryRule_withGpgRule (existing : Bytes) :
    hasGpgBinaryRule (withGpgRule existing) = (utf8Decode? existing).isSome := by
  by_cases h : (utf8Decode? (withGpgRule existing)).isSome
  · rw [← utf8_withGpgRule, h, ← hasRule_of_utf8 h, hasRule_withGpgRule]
  · rw [← utf8_withGpgRule, hasGpgBinaryRule]
    rw [Option.not_isSome_iff_eq_none] at h
    simp [h]

/-! ## Installing the rule twice -/

section Install

variable {W CE SE VE : Type} {store : Store W CE SE VE} {files : W → Files}

/-- What is asked of a call of `install_gitattributes` that leads from `s` to `t`: the old content
comes first and its lines are kept, another call finds the rule, and the doctor agrees with it. -/
structure ExtendsOnce (store : Store W CE SE VE) (files : W → Files) (s t : W) : Prop where
  keeps : attributesOf (files s) <+: attributesOf (files t)
  lines : byteLines (attributesOf (files s)) <+: byteLines (attributesOf (files t))
  again : touched (store.installGitattributes.trace t) = ∅ ∧
    ∀ changed, (store.installGitattributes.run t).1 = .ok changed → changed = false
  agrees : ∀ path, (runCheckGitattributes path ((files t gitattributesPath).map .ok)).status = .ok ↔
    hasGpgBinaryRule (attributesOf (files t)) = true

/-- **When installing the rule is idempotent**: in a file that is UTF-8. -/
theorem extends_once_iff (h : OnMap store files) {s t : W} {changed : Bool}
    (hrun : store.installGitattributes.run s = (.ok changed, t)) :
    ExtendsOnce store files s t ↔ (utf8Decode? (attributesOf (files s))).isSome := by
  have hnew : attributesOf (files t) = attributesOf (files s) ∧
        hasGpgBinaryRule (attributesOf (files s)) = true ∨
      attributesOf (files t) = withGpgRule (attributesOf (files s)) := by
    rcases installGitattributes_ok h hrun with ⟨-, hrule, hfiles, -⟩ | ⟨-, -, hfiles⟩
    · exact Or.inl ⟨by rw [hfiles], hrule⟩
    · exact Or.inr (by rw [hfiles, attributesOf, Function.update_self, Option.getD_some])
  have hdecodes : ∀ body, hasGpgBinaryRule body = true → (utf8Decode? body).isSome := by
    intro body hrule
    rw [hasGpgBinaryRule] at hrule
    cases hbody : utf8Decode? body with
    | none => simp [hbody] at hrule
    | some text => rfl
  have hdoctor (path : Str) := runCheckGitattributes_ok path (files t gitattributesPath)
  rcases hnew with ⟨hsame, hrule⟩ | hnew
  · -- the rule was there
    refine iff_of_true ⟨hsame ▸ List.prefix_refl _, hsame ▸ List.prefix_refl _,
      installGitattributes_found h (hsame ▸ hrule), fun path => (hdoctor path).trans ?_⟩
      (hdecodes _ hrule)
    rw [← attributesOf, hasRule_of_utf8 (hsame ▸ hdecodes _ hrule)]
  · constructor
    · -- the doctor sees the rule, so the store does
      intro hext
      rw [← hasGpgBinaryRule_withGpgRule, ← hnew, ← hext.agrees [], hdoctor, ← attributesOf, hnew]
      exact hasRule_withGpgRule _
    · intro hutf8
      have hrule : hasGpgBinaryRule (attributesOf (files t)) = true := by
        rw [hnew, hasGpgBinaryRule_withGpgRule, hutf8]
      refine ⟨hnew ▸ prefix_withGpgRule _, ?_, installGitattributes_found h hrule, fun path =>
        (hdoctor path).trans ?_⟩
      · rw [hnew, byteLines_withGpgRule]
        exact List.prefix_append _ _
      · rw [← attributesOf, hasRule_of_utf8 (hdecodes _ hrule)]

/-- The message of the commit that adds the rule. -/
def attributesMessage : Str := "bypass: install .gitattributes for binary `.gpg` files".toList

/-- `install_gitattributes_if_missing` of `bypass sync`. -/
def Store.installGitattributesIfMissing (store : Store W CE SE VE) : StoreM W CE SE VE Unit := do
  if ← store.installGitattributes then
    (store.vcs.commit [gitattributesPath] attributesMessage).mapErr .vcs
  else pure ()

/-- **In a file that is not UTF-8 each sync appends the rule**, and commits it: the file is then as
little UTF-8 as before. -/
theorem sync_commits_again (h : OnMap store files) {s t : W}
    (hbad : utf8Decode? (attributesOf (files s)) = none)
    (hrun : store.installGitattributesIfMissing.run s = (.ok (), t)) :
    attributesOf (files t) = withGpgRule (attributesOf (files s)) ∧
      utf8Decode? (attributesOf (files t)) = none ∧
      ∃ call ∈ store.installGitattributesIfMissing.trace s,
        call.ev = .commit [gitattributesPath] attributesMessage (.ok ()) := by
  obtain ⟨changed, u, hinstall, hrest⟩ := run_bind_ok hrun
  have hnone : hasGpgBinaryRule (attributesOf (files s)) = false := by
    rw [hasGpgBinaryRule, hbad]
  rcases installGitattributes_ok h hinstall with ⟨-, hrule, -⟩ | ⟨rfl, -, hfiles⟩
  · rw [hnone] at hrule
    cases hrule
  have hcommit : store.vcs.commitFn [gitattributesPath] attributesMessage u = (.ok (), t) :=
    run_mapErr_ok hrest
  have hkept := h.commit_files [gitattributesPath] attributesMessage u
  rw [hcommit] at hkept
  have hnew : attributesOf (files t) = withGpgRule (attributesOf (files s)) := by
    rw [attributesOf, hkept, hfiles, Function.update_self, Option.getD_some]
  refine ⟨hnew, ?_, ⟨.commit [gitattributesPath] attributesMessage (.ok ()), u, t⟩, ?_, rfl⟩
  · rw [hnew, ← Option.not_isSome_iff_eq_none, utf8_withGpgRule, hbad]
    decide
  · rw [Store.installGitattributesIfMissing, trace_bind, hinstall]
    refine List.mem_append_right _ ?_
    simp only [if_true, trace_mapErr, VersionControl.commit, trace_call, hcommit,
      List.mem_singleton]

end Install

/-- A store whose attributes are not UTF-8. -/
def latin1Store : MemFiles := Std.ExtTreeMap.empty.insert gitattributesPath [0xE9]

theorem latin1_rules : (hasGpgBinaryRule [0xE9], hasGpgBinaryRule (withGpgRule [0xE9])) =
    (false, false) := by
  decide +kernel

/-- The rule is installed twice. -/
theorem rule_installed_twice :
    ∃ t u : MemFiles, memStore.installGitattributes.run latin1Store = (.ok true, t) ∧
      memStore.installGitattributes.run t = (.ok true, u) := by
  obtain ⟨hfirst, hsecond⟩ := Prod.mk.inj latin1_rules
  have hrun := memStore_installGitattributes (w := latin1Store) Std.ExtTreeMap.getElem?_insert_self
  rw [hfirst] at hrun
  have hagain := memStore_installGitattributes
    (w := latin1Store.insert gitattributesPath (withGpgRule [0xE9]))
    Std.ExtTreeMap.getElem?_insert_self
  rw [hsecond] at hagain
  exact ⟨_, _, hrun, hagain⟩

theorem extends_once_fresh :
    ∃ t, memStore.installGitattributes.run (∅ : MemFiles) = (.ok true, t) ∧
      (ExtendsOnce memStore memFiles ∅ t ↔ (utf8Decode? (attributesOf (memFiles ∅))).isSome) :=
  ⟨_, rfl, extends_once_iff memStore_onMap rfl⟩

end Bypass
