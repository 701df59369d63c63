import Bypass.Core.Backend

/-!
# Recipients of an entry

`resolve_recipients` (`gpg_id.rs`) walks from an entry's directory up to the store root and parses
the first `.gpg-id` it finds.

* `recipientsFor`: what the walk returns, as a function of the files.
* `resolve_asks`: the walk over a storage that is a map returns just that.
* `recipientsFor_update`: it depends on no file but the recipients files, so no write to an entry
  changes it.
-/

namespace Bypass

/-- `GpgIdError`. -/
inductive GpgIdError (SE : Type) where
  | missing
  | empty
  | notUtf8
  | storage (e : SE)
  deriving DecidableEq

section Parse

variable {SE : Type}

/-- `parse_gpg_id`: one recipient a line; blank lines and lines that start with `#` are skipped. -/
def parseGpgId (bytes : Bytes) : Except (GpgIdError SE) (List KeyId) :=
  match utf8Decode? bytes with
  | none => .error .notUtf8
  | some text =>
    let recipients := ((lines text).map trim).filter fun line =>
      line ≠ [] ∧ line.head? ≠ some '#'
    if recipients = [] then .error .empty else .ok (recipients.map KeyId.mk)

/-- A parsed file names at least one recipient. -/
theorem parseGpgId_ne_nil {bytes : Bytes} {rs : List KeyId}
    (h : parseGpgId bytes = (.ok rs : Except (GpgIdError SE) _)) : rs ≠ [] := by
  rw [parseGpgId] at h
  split at h
  · cases h
  · dsimp only at h
    split_ifs at h with hne
    cases h
    simpa using hne

end Parse

/-! ## The walk -/

/-- How far below the root the walk stands. -/
def depth (current : Option RelPath) : ℕ := (current.map (·.str.length + 1)).getD 0

theorem depth_parent_lt (p : RelPath) : depth p.parent < depth (some p) := by
  cases h : p.parent with
  | none => simp [depth]
  | some q => simpa [depth] using RelPath.length_parent_lt h

variable {W CE SE VE : Type}

/-- The loop of `resolve_recipients`, in the directory `current`. -/
def resolveFrom (storage : Storage W SE) (current : Option RelPath) :
    Prog (Event CE SE VE) W (GpgIdError SE) (List KeyId) := do
  match ← (storage.read (gpgIdIn current)).mapErr .storage with
  | some bytes =>
    match parseGpgId bytes with
    | .ok recipients => pure recipients
    | .error e => throw e
  | none =>
    match current with
    | none => throw .missing
    | some p => resolveFrom storage p.parent
termination_by depth current
decreasing_by exact depth_parent_lt p

/-- `resolve_recipients`. -/
def resolveRecipients (storage : Storage W SE) (entryPath : RelPath) :
    Prog (Event CE SE VE) W (GpgIdError SE) (List KeyId) :=
  resolveFrom storage entryPath.parent

/-- The recipients in force in the directory `current`. -/
def recipientsIn (files : Files) (current : Option RelPath) :
    Except (GpgIdError SE) (List KeyId) :=
  match files (gpgIdIn current) with
  | some bytes => parseGpgId bytes
  | none =>
    match current with
    | none => .error .missing
    | some p => recipientsIn files p.parent
termination_by depth current
decreasing_by exact depth_parent_lt p

/-- The recipients in force for an entry. -/
def recipientsFor (files : Files) (entry : RelPath) : Except (GpgIdError SE) (List KeyId) :=
  recipientsIn files entry.parent

/-- `recipients` are in force for the entry; `SE` is the storage's error type. -/
def Resolves (SE : Type) (files : Files) (entry : RelPath) (recipients : List KeyId) : Prop :=
  recipientsFor files entry = (.ok recipients : Except (GpgIdError SE) _)

theorem Resolves.unique {f : Files} {e : RelPath} {rs rs' : List KeyId} (h : Resolves SE f e rs)
    (h' : Resolves SE f e rs') : rs = rs' :=
  Except.ok.inj (h.symm.trans h')

/-- The walk computes the recipients in force. -/
theorem resolveFrom_asks {store : Store W CE SE VE} {files : W → Files} (h : OnMap store files)
    (current : Option RelPath) (s : W) :
    Asks files (resolveFrom store.storage current : Prog (Event CE SE VE) W _ _) s
      (fun e => recipientsIn (files s) current = .error e)
      (fun rs _ => recipientsIn (files s) current = (.ok rs : Except (GpgIdError SE) _)) := by
  induction hn : depth current using Nat.strong_induction_on generalizing current s with
  | _ n ih =>
    rw [resolveFrom.eq_def, recipientsIn.eq_def]
    refine (Asks.mapErr (asks_read h)).bind fun v tr u hu hv => ?_
    subst hv
    cases hfile : files s (gpgIdIn current) with
    | some bytes =>
      cases hp : (parseGpgId bytes : Except (GpgIdError SE) _) with
      | ok rs =>
        simp only [hp]
        exact asks_pure rfl
      | error e =>
        simp only [hp]
        exact asks_throw rfl
    | none =>
      cases current with
      | none => exact asks_throw rfl
      | some p =>
        have := ih _ (hn ▸ depth_parent_lt p) p.parent u rfl
        rwa [hu] at this

/-- **`resolve_recipients` computes the recipients in force for the entry.** -/
theorem resolve_asks {store : Store W CE SE VE} {files : W → Files} (h : OnMap store files)
    (entry : RelPath) (s : W) :
    Asks files (resolveRecipients store.storage entry : Prog (Event CE SE VE) W _ _) s
      (fun e => recipientsFor (files s) entry = .error e)
      (fun rs _ => Resolves SE (files s) entry rs) :=
  resolveFrom_asks h entry.parent s

/-- What the walk returns is in force. -/
theorem resolves_of_run {store : Store W CE SE VE} {files : W → Files} (h : OnMap store files)
    {entry : RelPath} {s : W} {rs : List KeyId}
    (hrun : ((resolveRecipients store.storage entry :
      Prog (Event CE SE VE) W _ _).run s).1 = .ok rs) : Resolves SE (files s) entry rs := by
  have hwalk := (@resolve_asks W CE SE VE _ _ h entry s).2.2
  rw [hrun] at hwalk
  exact hwalk.2

/-- The recipients in force depend on the recipients files only. -/
theorem recipientsIn_congr {f g : Files} (h : ∀ d, f (gpgIdIn d) = g (gpgIdIn d))
    (current : Option RelPath) :
    (recipientsIn f current : Except (GpgIdError SE) _) = recipientsIn g current := by
  induction hn : depth current using Nat.strong_induction_on generalizing current with
  | _ n ih =>
    rw [recipientsIn.eq_def f, recipientsIn.eq_def g, h current]
    cases g (gpgIdIn current) with
    | some bytes => rfl
    | none =>
      cases current with
      | none => rfl
      | some p => exact ih _ (hn ▸ depth_parent_lt p) p.parent rfl

/-- Recipients are in force everywhere, when the root has a recipients file and every recipients
file parses. -/
theorem recipientsIn_isOk {f : Files} (hroot : f gpgIdPath ≠ none)
    (hparse : ∀ d b, f (gpgIdIn d) = some b →
      ∃ rs, parseGpgId b = (.ok rs : Except (GpgIdError SE) _)) (current : Option RelPath) :
    ∃ rs, recipientsIn f current = (.ok rs : Except (GpgIdError SE) _) := by
  induction hn : depth current using Nat.strong_induction_on generalizing current with
  | _ n ih =>
    rw [recipientsIn.eq_def]
    cases hfile : f (gpgIdIn current) with
    | some bytes => exact hparse current bytes hfile
    | none =>
      cases current with
      | none => exact absurd hfile hroot
      | some p => exact ih _ (hn ▸ depth_parent_lt p) p.parent rfl

/-- Recipients that are in force are some. -/
theorem recipientsIn_ne_nil {f : Files} {current : Option RelPath} {rs : List KeyId}
    (h : recipientsIn f current = (.ok rs : Except (GpgIdError SE) _)) : rs ≠ [] := by
  induction hn : depth current using Nat.strong_induction_on generalizing current with
  | _ n ih =>
    rw [recipientsIn.eq_def] at h
    cases hfile : f (gpgIdIn current) with
    | some bytes =>
      rw [hfile] at h
      exact parseGpgId_ne_nil h
    | none =>
      rw [hfile] at h
      cases current with
      | none => cases h
      | some q => exact ih _ (hn ▸ depth_parent_lt q) h rfl

/-- **Changing the blob of an entry changes no entry's recipients.** -/
theorem recipientsFor_update (f : Files) (e : RelPath) (v : Option Bytes) (entry : RelPath) :
    (recipientsFor (Function.update f (entryToBlob e) v) entry : Except (GpgIdError SE) _) =
      recipientsFor f entry :=
  recipientsIn_congr
    (fun d => Function.update_of_ne (gpgIdIn_ne_entryToBlob d e) v f) entry.parent

end Bypass
