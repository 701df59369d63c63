import Bypass.Cli.Vcs
import Bypass.Sync.Steps

/-!
# An insertion beside a sync

`Store::insert` writes the blob of an entry and then commits it; a sync in another process may act
in between. Its reset takes the file back to the target of the reset, and the commit, which stages
what is on disk, finds nothing to do and succeeds.

* `insert_beside_sync`: what was written is in `HEAD` when `insert` returns, unless such a step of
  the sync changed the file before the commit.
-/

namespace Bypass

open Prog

/-! ## The steps of a sync that touch files -/

/-- A step leaves the files alone, but for those commands. -/
def KeepsFiles (cmd : Command) (r r' : Repo) : Prop :=
  cmd.movesFiles = false → r'.worktree = r.worktree

theorem moves_keepsFiles (git : Git) : Moves git KeepsFiles where
  refl _ _ _ := rfl
  indexPack bytes r r' h _ := by
    obtain ⟨cs, -, hstore⟩ := Option.bind_eq_some_iff.1 h
    exact (Repo.store_eq_some hstore).2.2.2.1
  reset _ _ h := by cases h
  resetBroken _ _ h := by cases h
  rebase _ _ h := by cases h
  rebaseBroken _ _ h := by cases h
  abort _ h := by cases h
  abortBroken _ h := by cases h

/-! ## The run of an insertion -/

section Insert

variable {κ m CE SE : Type} {E : Env κ m Repo} {git : Git} {store : Store Repo CE SE Git2Error}

/-- **The end of an insertion that succeeds**: the blob is written, others act, and the commit
succeeds. -/
theorem insert_ok (hvcs : store.vcs = git2Vcs git) {entry : RelPath} {plaintext : Bytes}
    {overwrite : Bool} {k k' : κ} {s t : Repo} {tr : List (Step (Event CE SE Git2Error ⊕ m) Repo)}
    (h : Exec E k (store.insert entry plaintext overwrite) s tr (.ok ()) k' t) :
    ∃ pre ciphertext u v win w message, tr = pre ++
        ⟨.inl (.write (entryToBlob entry) ciphertext (.ok ())), u, v⟩ ::
          (win ++ [⟨.inl (.commit [entryToBlob entry] message (.ok ())), w, t⟩]) ∧
      store.storage.writeFn (entryToBlob entry) ciphertext u = (.ok (), v) ∧ Idle E v win w ∧
      Git2Vcs.commitFn git [entryToBlob entry] message w = (.ok (), t) := by
  obtain ⟨present, tr₁, tr₂, k₁, s₁, rfl, -, h₁⟩ := h.bind_ok
  cases present with
  | true => cases h₁.throw_inv
  | false =>
    obtain ⟨recipients, tr₃, tr₄, k₂, s₂, rfl, -, h₂⟩ := h₁.bind_ok
    obtain ⟨ciphertext, tr₅, tr₆, k₃, s₃, rfl, -, h₃⟩ := h₂.bind_ok
    obtain ⟨⟨⟩, tr₇, tr₈, k₄, v, rfl, hput, h₄⟩ := h₃.bind_ok
    obtain ⟨pre, u, rfl, -, hwrite⟩ := hput.mapErr_ok.call_inv
    obtain ⟨win, w, rfl, hidle, hcommit⟩ := h₄.mapErr_ok.call_inv
    have hanswer := congrArg Prod.fst hcommit
    rw [hvcs] at hcommit
    refine ⟨tr₁ ++ (tr₃ ++ (tr₅ ++ pre)), ciphertext, u, v, win, w, _, ?_, hwrite, hidle, hcommit⟩
    rw [hanswer, hwrite]
    simp only [List.append_assoc, List.cons_append, List.nil_append]

/-- **When an insertion beside a sync is kept.** The insertion returned `Ok`: it wrote a
ciphertext, the sync took the steps `win`, and the commit succeeded. If each reset, rebase and
abort among these steps left the file of the blob as it was, the branch after the commit is at a
commit with the ciphertext. -/
theorem insert_beside_sync {CE SE F : Type} {git : Git} {store : Store Repo CE SE Git2Error}
    (hvcs : store.vcs = git2Vcs git)
    (hwrite : ∀ p d r, (store.storage.writeFn p d r).1 = .ok () →
      (store.storage.writeFn p d r).2.worktree[p.bytes]? = some d)
    {json : Json F} {request : F → Except Str F} {localId remoteId : Str} {entry : RelPath}
    {plaintext : Bytes} {overwrite : Bool} {k : SyncM SyncReport} {s t : Repo}
    {tr : List (Step (Event CE SE Git2Error ⊕ Command) Repo)}
    (h : Exec toEnv (syncWithPeer git json request localId remoteId)
      (store.insert entry plaintext overwrite) s tr (.ok ()) k t) :
    ∃ pre ciphertext write win commit message, tr = pre ++ write :: (win ++ [commit]) ∧
      write.ev = .inl (.write (entryToBlob entry) ciphertext (.ok ())) ∧
      commit.ev = .inl (.commit [entryToBlob entry] message (.ok ())) ∧
      ((∀ x ∈ win, ∀ cmd, x.ev = .inr cmd → cmd.movesFiles = true →
          x.after.worktree[(entryToBlob entry).bytes]? =
            x.before.worktree[(entryToBlob entry).bytes]?) →
        ∃ c ∈ commit.after.head, c.tree[(entryToBlob entry).bytes]? = some ciphertext) := by
  have hsteps := (h.env_steps (I := Steps KeepsFiles) (P := KeepsFiles)
    (fun _ _ _ _ _ hk hE => hk.toEnv hE)
    (steps_syncWithPeer (moves_keepsFiles git) json request localId remoteId)).1
  obtain ⟨pre, ciphertext, u, v, win, w, message, rfl, hw, hidle, hcommit⟩ := insert_ok hvcs h
  refine ⟨pre, ciphertext, _, win, _, message, rfl, rfl, rfl, fun hkeep => ?_⟩
  -- the file that the commit stages is the one that was written
  have hfile : w.worktree[(entryToBlob entry).bytes]? = some ciphertext := by
    have hv : v.worktree[(entryToBlob entry).bytes]? = some ciphertext := by
      have hput := hwrite (entryToBlob entry) ciphertext u (congrArg Prod.fst hw)
      rwa [hw] at hput
    rw [← hv]
    refine hidle.path.const (g := fun r : Repo => r.worktree[(entryToBlob entry).bytes]?) ?_
    intro x hx
    obtain ⟨cmd, _, _, hcmd, -⟩ := hidle.steps x hx
    cases hmoves : cmd.movesFiles with
    | true => exact hkeep x hx cmd hcmd hmoves
    | false => exact congrArg (·[(entryToBlob entry).bytes]?) (hsteps x (by simp [hx]) cmd hcmd hmoves)
  have hok := commitFn_ok git hfile (congrArg Prod.fst hcommit)
  rwa [hcommit] at hok

end Insert

/-! ## A reset between the write and the commit -/

def raceBase : Commit :=
  commitOf 1 [(".gpg-id".toList, "ALICE\n".toList), ("mail.gpg".toList, "é".toList)] []

/-- The peer added an entry. -/
def racePeer : Commit :=
  commitOf 9 [(".gpg-id".toList, "ALICE\n".toList), ("mail.gpg".toList, "é".toList),
    ("work.gpg".toList, "é".toList)] [raceBase]

def raceRepo : Repo := repoAt raceBase [raceBase] (by decide +kernel) (by simp)

def raceGit : Git := plainGit [([1], [racePeer])]

def raceRequest : WireMsg → Except Str WireMsg := fun _ =>
  .ok (packMsg (some racePeer.sha.hex) [1])

def raceSync : SyncM SyncReport :=
  syncWithPeer raceGit plainJson raceRequest "A".toList "B".toList

def raceEntry : RelPath := ⟨"mail".toList, validate_mail⟩

/-- The new password of an entry is written, the sync runs, and then it is committed. -/
def raceRun :
    List (Step (Event TaggedError Empty Git2Error ⊕ Command) Repo) ×
      Except (StoreError TaggedError Empty Git2Error) Unit × SyncM SyncReport × Repo :=
  ((gitStore raceGit).insert raceEntry [7] true).runUnder (fun p r => p.envStep r)
    [0, 0, 0, 20] raceSync raceRepo

theorem raceRun_exec : Exec toEnv raceSync ((gitStore raceGit).insert raceEntry [7] true) raceRepo
    raceRun.1 (.ok ()) raceRun.2.2.1 raceRun.2.2.2 := by
  have hrun := exec_runUnder (E := toEnv) (fun p r => p.envStep r)
    (fun _ _ _ _ _ h => toEnv_of_envStep h) ((gitStore raceGit).insert raceEntry [7] true)
    [0, 0, 0, 20] raceSync raceRepo
  have hres : raceRun.2.1 = .ok () := by decide +kernel
  rw [← hres]
  exact hrun

def raceWritten : Bytes := tagHeader [⟨"ALICE".toList⟩] ++ [7 ^^^ 0xAA]

/-- **An insertion can be lost**: it succeeds, and what it wrote is in no commit that the branch
ever reaches. -/
theorem insert_can_be_lost :
    ∃ tr k t, Exec toEnv raceSync ((gitStore raceGit).insert raceEntry [7] true) raceRepo tr
        (.ok ()) k t ∧
      (∃ write ∈ tr, write.ev = .inl (.write (entryToBlob raceEntry) raceWritten (.ok ()))) ∧
      ∀ x ∈ tr, ∀ c ∈ reachable x.after.head,
        c.tree[(entryToBlob raceEntry).bytes]? ≠ some raceWritten :=
  ⟨raceRun.1, raceRun.2.2.1, raceRun.2.2.2, raceRun_exec, by decide +kernel, by decide +kernel⟩

theorem insert_beside_sync_race :
    ∃ pre ciphertext write win commit message, raceRun.1 = pre ++ write :: (win ++ [commit]) ∧
      write.ev = .inl (.write (entryToBlob raceEntry) ciphertext (.ok ())) ∧
      commit.ev = .inl (.commit [entryToBlob raceEntry] message (.ok ())) ∧
      ((∀ x ∈ win, ∀ cmd, x.ev = .inr cmd → cmd.movesFiles = true →
          x.after.worktree[(entryToBlob raceEntry).bytes]? =
            x.before.worktree[(entryToBlob raceEntry).bytes]?) →
        ∃ c ∈ commit.after.head, c.tree[(entryToBlob raceEntry).bytes]? = some ciphertext) :=
  insert_beside_sync (show (gitStore raceGit).vcs = git2Vcs raceGit from rfl)
    (fun _ _ _ _ => Std.ExtTreeMap.getElem?_insert_self) raceRun_exec

end Bypass
