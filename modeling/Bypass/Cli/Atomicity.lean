import Bypass.Core.Run
import Bypass.Cli.Vcs

/-!
# Failed mutations

A mutation changes the storage and then commits. When the commit refuses, or a storage call fails
after another succeeded, the operation returns an error and leaves the storage changed.

* `mutation_atomic_iff`: an operation that fails leaves the storage as it was, if and only if no
  backend call fails at or after a change.
* `mutation_not_atomic`: it can: during a merge the commit refuses, after the write.
-/

namespace Bypass

variable {W CE SE VE : Type} {files : W → Files}

/-- The operations that change the storage and commit. -/
def Op.Commits : Op → Prop
  | .insert _ _ _ => True
  | .remove _ => True
  | .copy _ _ _ => True
  | .rename _ _ _ => True
  | .removeRecursive _ => True
  | _ => False

/-- The operation leaves the files as they were, if it fails. -/
def FailsAtomically (files : W → Files) (store : Store W CE SE VE) (op : Op) (s : W) : Prop :=
  ∀ e, ((store.program op).run s).1 = .error e → files ((store.program op).run s).2 = files s

/-- A quiet run leaves the files as they were. -/
theorem Quiet.files_run {ε α : Type} {p : Prog (Event CE SE VE) W ε α} {s : W}
    (h : Quiet files (p.trace s)) : files (p.run s).2 = files s := by
  induction p generalizing s with
  | done r => rfl
  | act ev upd next ih =>
    have hstep : files (upd s) = files s := h _ List.mem_cons_self
    have hrest : Quiet files ((next s).trace (upd s)) :=
      fun c hc => h c (List.mem_cons_of_mem _ hc)
    exact (ih s hrest).trans hstep

/-- How an operation that names no path twice fails. -/
theorem Outcome.atomic_iff {α : Type} {s t : W} {refused : StoreError CE SE VE → Prop}
    {planned : Plan α → Trace W CE SE VE → Prop} {r : Except (StoreError CE SE VE) α}
    {tr : Trace W CE SE VE} (ho : Outcome files s refused planned r tr t)
    (hnodup : ∀ plan asked, planned plan asked → (plan.changes.map Change.path).Nodup)
    (hquiet : Quiet files tr → files t = files s) :
    (∀ e, r = .error e → files t = files s) ↔ ¬ LateFault files tr := by
  cases ho with
  | stopped hq ht _ => exact ⟨fun _ => hq.not_lateFault, fun _ _ _ => ht⟩
  | done _ hnf _ _ _ =>
    exact ⟨fun _ => not_lateFault_of_not_faulty hnf, fun _ e he => by cases he⟩
  | @broken plan asked tr t e n hq _ hp hch hf =>
    obtain ⟨pre, c, rfl, hc, -⟩ := hf
    have hlate := @lateFault_concat W CE SE VE files (asked ++ pre) c hc
    rw [List.append_assoc] at hlate
    rw [hlate, not_not]
    constructor
    · intro h
      exact quiet_append.2 ⟨hq, hch.quiet_of_eq (hnodup plan asked hp) (h e rfl)⟩
    · intro h _ _
      exact hquiet h

section Atomic

variable {store : Store W CE SE VE} (h : OnMap store files)
include h

/-- An operation that is a plan, executed. -/
theorem Asks.atomic_iff {α : Type} {op : Op} {f : α → Output} {p : StoreM W CE SE VE (Plan α)}
    {s : W} {refused : StoreError CE SE VE → Prop} {planned : Plan α → Trace W CE SE VE → Prop}
    (hp : Asks files p s refused planned)
    (hprog : store.program op = do let a ← p >>= store.execute; pure (f a))
    (hnodup : ∀ plan asked, planned plan asked → (plan.changes.map Change.path).Nodup) :
    FailsAtomically files store op s ↔ ¬ LateFault files ((store.program op).trace s) := by
  have hwp : (store.program op).wp (fun r tr t => (Quiet files tr → files t = files s) →
      ((∀ e, r = .error e → files t = files s) ↔ ¬ LateFault files tr)) s := by
    rw [hprog]
    refine wp_bind_pure (Prog.wp_mono (hp.outcome h) fun r tr t ho hquiet => ?_)
    rw [← ho.atomic_iff hnodup hquiet]
    cases r <;> simp [Except.map]
  exact hwp fun hq => hq.files_run

end Atomic

/-- **When a failed mutation leaves the storage as it was**: if and only if no backend call fails
that changed the storage, or that comes after one that did. -/
theorem mutation_atomic_iff {store : Store W CE SE VE} (h : OnMap store files) (op : Op)
    (hop : op.Commits) (s : W) :
    FailsAtomically files store op s ↔ ¬ LateFault files ((store.program op).trace s) := by
  cases op with
  | insert entry plaintext overwrite =>
    refine (insert_asks h entry plaintext overwrite).atomic_iff h
      (by rw [← store.insert_eq]; rfl) ?_
    rintro plan asked ⟨-, -, c, -, hch⟩
    simp [hch]
  | remove entry =>
    refine (remove_asks h entry).atomic_iff h (by rw [← store.remove_eq]; rfl) ?_
    rintro plan asked ⟨-, -, hch⟩
    simp [hch]
  | copy source dest overwrite =>
    refine (copy_asks h source dest overwrite).atomic_iff h (by rw [← store.copy_eq]; rfl) ?_
    rintro plan asked ⟨-, c, -, hch⟩
    simp [hch]
  | rename source dest overwrite =>
    refine (rename_asks h source dest overwrite).atomic_iff h (by rw [← store.rename_eq]; rfl) ?_
    rintro plan asked ⟨-, ⟨-, hch⟩ | ⟨hne, c, -, hch⟩⟩
    · simp [hch]
    · simp [hch, Change.path, Ne.symm hne]
  | removeRecursive dir =>
    refine (removeRecursive_asks h dir).atomic_iff h
      (by rw [← store.removeRecursive_eq]; rfl) ?_
    rintro plan asked ⟨hl, -, hch⟩
    rw [hch, List.map_map]
    exact hl.2.1.map entryToBlob_injective
  | insertNoCommit entry plaintext => exact hop.elim
  | «show» entry => exact hop.elim
  | list subpath => exact hop.elim
  | find pattern => exact hop.elim

/-! ## A commit that refuses -/

/-- A store with recipients, in the middle of a merge. -/
def mergingRepo : Repo :=
  let base := commitOf 1 [(".gpg-id".toList, "ALICE\n".toList)] []
  { repoAt base [base] (by decide +kernel) (by simp) with
    state := .merge
    orig_mem := by simp [RepositoryState.orig] }

/-- The insertion of an entry. -/
def insertBank : Op := .insert ⟨"bank".toList, by decide⟩ [1] false

/-- **A failed insertion can leave its blob behind**: it reports the unfinished merge when the file
is written already. -/
theorem mutation_not_atomic :
    insertBank.Commits ∧
      (((gitStore (plainGit [])).program insertBank).run mergingRepo).1 =
        .error (.vcs (.dirtyTree "merge".toList)) ∧
      worktreeFiles (((gitStore (plainGit [])).program insertBank).run mergingRepo).2
          (entryToBlob ⟨"bank".toList, by decide⟩) ≠
        worktreeFiles mergingRepo (entryToBlob ⟨"bank".toList, by decide⟩) :=
  ⟨trivial, by decide +kernel, by decide +kernel⟩

/-- The insertion during a merge has a late fault. -/
theorem mutation_atomic_iff_merging :
    FailsAtomically worktreeFiles (gitStore (plainGit [])) insertBank mergingRepo ↔
      ¬ LateFault worktreeFiles (((gitStore (plainGit [])).program insertBank).trace mergingRepo) :=
  mutation_atomic_iff (gitStore_onMap _) insertBank trivial mergingRepo

end Bypass
