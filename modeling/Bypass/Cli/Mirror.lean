import Bypass.Cli.Checkout
import Bypass.Core.Init

/-!
# `HEAD` mirrors the store

Each operation of a store in a repository makes a commit of the paths that it has changed. So as
long as every operation succeeds, `HEAD` agrees with the disk at every path that any of them has
written or removed.

* `GitOp`: the operations. Writes without commits come with the commit of what they returned.
* `gitProgram_mirrors`: what one operation preserves.
* **`head_mirrors_store`**: what a sequence of them does.
-/

namespace Bypass

open Prog

variable {W CE SE : Type} {store : Store W CE SE Git2Error} {git : Git} {checkout : W → Checkout}

/-! ## Operations -/

/-- An operation of a store in a repository, with its arguments. -/
inductive GitOp where
  | init (recipients : List KeyId)
  | insert (entry : RelPath) (plaintext : Bytes) (overwrite : Bool)
  | copy (source dest : RelPath) (overwrite : Bool)
  | rename (source dest : RelPath) (overwrite : Bool)
  | remove (entry : RelPath)
  | removeRecursive (dir : RelPath)
  /-- `insert_no_commit` of each, and then `commit_changes` of the paths that were returned. -/
  | batch (entries : List (RelPath × Bytes)) (message : Str)

namespace Store

variable (store : Store W CE SE Git2Error) (vcsInit : Prog (Event CE SE Git2Error) W Git2Error Unit)

/-- The program of an operation. -/
def gitProgram : GitOp → StoreM W CE SE Git2Error Unit
  | .init recipients => store.init vcsInit recipients
  | .insert entry plaintext overwrite => store.insert entry plaintext overwrite
  | .copy source dest overwrite => store.copy source dest overwrite
  | .rename source dest overwrite => store.rename source dest overwrite
  | .remove entry => store.remove entry
  | .removeRecursive dir => do
    let _ ← store.removeRecursive dir
    pure ()
  | .batch entries message => do
    let blobs ← entries.mapM fun entry => store.insertNoCommit entry.1 entry.2
    store.commitChanges blobs message

/-- Operations one after the other, up to the first that fails. -/
def inTurn : List GitOp → StoreM W CE SE Git2Error Unit
  | [] => pure ()
  | op :: ops => do
    store.gitProgram vcsInit op
    inTurn ops

end Store

/-- `vcsInit` is `Git2Vcs::init` on the checkout, and touches none of its files. -/
structure InitsCheckout (vcsInit : Prog (Event CE SE Git2Error) W Git2Error Unit)
    (fault : Checkout → Option Git2Error) (checkout : W → Checkout) : Prop where
  run : ∀ s, ((vcsInit.run s).1, checkout (vcsInit.run s).2) = Git2Vcs.init fault (checkout s)
  touches : ∀ s, touched (vcsInit.trace s) = ∅

/-! ## One operation -/

section Operations

variable (h : OnCheckout store git checkout)
include h

/-- What a batch has written is committed. -/
theorem batch_mirrors {vcsInit : Prog (Event CE SE Git2Error) W Git2Error Unit}
    {entries : List (RelPath × Bytes)} {message : Str} {T : Set RelPath} {s t : W}
    (hs : Mirrors T [] (checkout s))
    (hrun : (store.gitProgram vcsInit (.batch entries message)).run s = (.ok (), t)) :
    Mirrors (T ∪ touched ((store.gitProgram vcsInit (.batch entries message)).trace s)) []
      (checkout t) := by
  obtain ⟨blobs, u, hloop, hcommit⟩ := run_bind_ok hrun
  obtain ⟨hwrote, htouched⟩ :=
    mapM_wrote (fun _ _ _ _ hone => insertNoCommit_wrote h hone) hloop
  have hcall : store.vcs.commitFn blobs message u = (.ok (), t) := run_mapErr_ok hcommit
  have hrepo := h.commit blobs message u
  rw [hcall] at hrepo
  refine (commit_mirrors (hwrote.mirrors hs blobs fun _ hq => hq) hrepo.symm).mono ?_
  refine Set.union_subset_union_right T ?_
  refine (touched_bind_ok hloop htouched (touched_commitChanges store blobs message u)).trans ?_
  rw [Set.union_empty]

/-- The paths that `install_gitattributes` writes, by what it returns. -/
def attributesWritten (changed : Bool) : Set RelPath := if changed then {gitattributesPath} else ∅

theorem installGitattributes_wrote {s t : W} {changed : Bool}
    (hrun : store.installGitattributes.run s = (.ok changed, t)) :
    Wrote checkout (attributesWritten changed) s t ∧
      touched (store.installGitattributes.trace s) ⊆ attributesWritten changed := by
  unfold Store.installGitattributes at hrun ⊢
  have hread : ((store.storage.read gitattributesPath : Prog (Event CE SE Git2Error) W SE _).mapErr
      (.storage : SE → StoreError CE SE Git2Error)).Steps (Asking (SameCheckout checkout)) :=
    (asking_read h.same _).mapErr
  obtain ⟨existing, u, hcall, hrest⟩ := run_bind_ok hrun
  have hsu := Asking.keeps SameCheckout.refl (fun _ _ _ => SameCheckout.trans) hread s
  rw [hcall] at hsu
  have hasked := (Asking.touched_eq hread s).subset
  dsimp only at hrest
  split_ifs at hrest with hrule
  · obtain ⟨hok, rfl⟩ := Prod.mk.inj hrest
    obtain rfl := Except.ok.inj hok
    refine ⟨hsu.wrote, (touched_bind_ok hcall hasked ?_).trans (Set.empty_union _).subset⟩
    dsimp only
    rw [if_pos hrule]
    exact touched_nil.subset
  · obtain ⟨_, v, hwrite, hend⟩ := run_bind_ok hrest
    obtain ⟨hok, rfl⟩ := Prod.mk.inj hend
    obtain rfl := Except.ok.inj hok
    have hchange := change_wrote h (c := .write gitattributesPath _) hwrite
    have hwrote := hsu.wrote.trans hchange.1
    rw [Set.empty_union] at hwrote
    refine ⟨hwrote, (touched_bind_ok hcall hasked ?_).trans (Set.empty_union _).subset⟩
    dsimp only
    rw [if_neg hrule]
    refine touched_bind (touched_change store (.write gitattributesPath _) u) fun _ _ => ?_
    exact touched_nil.subset.trans (Set.empty_subset _)

/-- **Initialising commits what it writes**, in the repository that is there, or in the one that it
makes. -/
theorem init_mirrors {vcsInit : Prog (Event CE SE Git2Error) W Git2Error Unit}
    {fault : Checkout → Option Git2Error} (hinit : InitsCheckout vcsInit fault checkout)
    {recipients : List KeyId} {T : Set RelPath} {s t : W}
    (hs : Mirrors T [] (checkout s) ∨ (checkout s).initialized = false ∧ T = ∅)
    (hrun : (store.init vcsInit recipients).run s = (.ok (), t)) :
    Mirrors (T ∪ touched ((store.init vcsInit recipients).trace s)) [] (checkout t) := by
  unfold Store.init at hrun ⊢
  split_ifs at hrun ⊢ with hnil
  · cases hrun
  obtain ⟨_, u, hroot, hrest⟩ := run_bind_ok hrun
  obtain ⟨changed, v, hattrs, hrest'⟩ := run_bind_ok hrest
  obtain ⟨_, w, hvcs, hcommit⟩ := run_bind_ok hrest'
  have hchange := (change_wrote h (c := .write gpgIdPath (gpgIdBody recipients)) hroot).1
  obtain ⟨hwrote', htouched'⟩ := installGitattributes_wrote h hattrs
  have hwrote := hchange.trans hwrote'
  have hpaths : ∀ q ∈ ({gpgIdPath} ∪ attributesWritten changed : Set RelPath),
      q ∈ if changed then [gpgIdPath, gitattributesPath] else [gpgIdPath] := by
    intro q hq
    cases changed <;> simpa [attributesWritten, or_comm] using hq
  have hmade := hinit.run v
  rw [run_mapErr_ok hvcs] at hmade
  -- what has been written is staged in the repository, old or new
  have hstaged : Mirrors (T ∪ ({gpgIdPath} ∪ attributesWritten changed))
      (if changed then [gpgIdPath, gitattributesPath] else [gpgIdPath]) (checkout w) := by
    unfold Git2Vcs.init at hmade
    rcases hs with hs | ⟨hno, rfl⟩
    · have hv := hwrote.mirrors hs _ hpaths
      rw [if_pos hv.initialized] at hmade
      rw [(Prod.mk.inj hmade).2]
      exact hv
    · rw [if_neg (by rw [hwrote.git.initialized, hno]; exact Bool.false_ne_true)] at hmade
      split at hmade
      · cases hmade
      · rw [(Prod.mk.inj hmade).2]
        refine ⟨rfl, rfl, fun p hp hpending => ?_, hwrote.apart ∅ fun p hp => nomatch hp⟩
        rw [Set.empty_union] at hp
        exact absurd (hpaths p hp) hpending
  have hcall : store.vcs.commitFn _ _ w = (.ok (), t) := run_mapErr_ok hcommit
  have hrepo := h.commit (if changed then [gpgIdPath, gitattributesPath] else [gpgIdPath])
    "bypass: initialise store".toList w
  rw [hcall] at hrepo
  refine (commit_mirrors hstaged hrepo.symm).mono (Set.union_subset_union_right T ?_)
  refine touched_bind_ok hroot (touched_change store (.write gpgIdPath _) s) ?_
  refine (touched_bind_ok hattrs htouched' ?_).trans (Set.union_empty _).subset
  refine (touched_bind_ok hvcs ?_ (touched_commitChanges store _ _ w)).trans (Set.union_empty _).subset
  rw [trace_mapErr]
  exact (hinit.touches v).subset

/-- **One operation that succeeds** leaves `HEAD` in agreement with the disk. -/
theorem gitProgram_mirrors {vcsInit : Prog (Event CE SE Git2Error) W Git2Error Unit}
    {fault : Checkout → Option Git2Error} (hinit : InitsCheckout vcsInit fault checkout) (op : GitOp)
    {T : Set RelPath} {s t : W} (hs : Mirrors T [] (checkout s))
    (hrun : (store.gitProgram vcsInit op).run s = (.ok (), t)) :
    Mirrors (T ∪ touched ((store.gitProgram vcsInit op).trace s)) [] (checkout t) := by
  cases op with
  | init recipients => exact init_mirrors h hinit (.inl hs) hrun
  | insert entry plaintext overwrite =>
    simp only [Store.gitProgram, store.insert_eq] at hrun ⊢
    exact planned_mirrors h (asking_insertPlan h.same entry plaintext overwrite)
      (insertPlan_commits store entry plaintext overwrite) hs hrun
  | copy source dest overwrite =>
    simp only [Store.gitProgram, store.copy_eq] at hrun ⊢
    exact planned_mirrors h (asking_copyPlan h.same source dest overwrite)
      (copyPlan_commits store source dest overwrite) hs hrun
  | rename source dest overwrite =>
    simp only [Store.gitProgram, store.rename_eq] at hrun ⊢
    exact planned_mirrors h (asking_renamePlan h.same source dest overwrite)
      (renamePlan_commits store source dest overwrite) hs hrun
  | remove entry =>
    simp only [Store.gitProgram, store.remove_eq] at hrun ⊢
    exact planned_mirrors h (asking_removePlan h.same entry) (removePlan_commits store entry) hs hrun
  | removeRecursive dir =>
    simp only [Store.gitProgram, store.removeRecursive_eq] at hrun ⊢
    obtain ⟨entries, u, hremove, hend⟩ := run_bind_ok hrun
    obtain ⟨-, rfl⟩ := Prod.mk.inj hend
    refine (planned_mirrors h (asking_removeRecursivePlan h.same dir)
      (removeRecursivePlan_commits store dir) hs hremove).mono (Set.union_subset_union_right T ?_)
    refine (touched_bind_ok hremove subset_rfl ?_).trans (Set.union_empty _).subset
    exact touched_nil.subset
  | batch entries message => exact batch_mirrors h hs hrun

end Operations

/-! ## Every sequence -/

/-- Nothing is staged that `HEAD` does not have. -/
def Checkout.Clean (c : Checkout) : Prop := headTree c.repo = c.repo.index

/-- A sequence of operations, from what they mirror to what they mirror then. -/
theorem inTurn_mirrors (h : OnCheckout store git checkout)
    {vcsInit : Prog (Event CE SE Git2Error) W Git2Error Unit} {fault : Checkout → Option Git2Error}
    (hinit : InitsCheckout vcsInit fault checkout) (ops : List GitOp) {T : Set RelPath} {s t : W}
    (hs : Mirrors T [] (checkout s)) (hrun : (store.inTurn vcsInit ops).run s = (.ok (), t)) :
    Mirrors (T ∪ touched ((store.inTurn vcsInit ops).trace s)) [] (checkout t) := by
  induction ops generalizing s T with
  | nil =>
    obtain ⟨-, rfl⟩ := Prod.mk.inj hrun
    refine hs.mono (Set.union_subset subset_rfl ?_)
    exact touched_nil.subset.trans (Set.empty_subset T)
  | cons op ops ih =>
    obtain ⟨_, u, hfirst, hrest⟩ := run_bind_ok hrun
    refine (ih (gitProgram_mirrors h hinit op hs hfirst) hrest).mono ?_
    rw [Set.union_assoc]
    exact Set.union_subset_union_right T (touched_bind_ok hfirst subset_rfl subset_rfl)

/-- **`HEAD` mirrors the store**: after operations that have all succeeded, it agrees with the disk
at every path that one of them has written or removed. They start in a repository with a clean
index, or make one first. -/
theorem head_mirrors_store (h : OnCheckout store git checkout)
    {vcsInit : Prog (Event CE SE Git2Error) W Git2Error Unit} {fault : Checkout → Option Git2Error}
    (hinit : InitsCheckout vcsInit fault checkout) {ops : List GitOp} {s t : W}
    (hstart : (checkout s).initialized = true ∧ (checkout s).Clean ∨
      (checkout s).initialized = false ∧ ∃ recipients, ops.head? = some (.init recipients))
    (hrun : (store.inTurn vcsInit ops).run s = (.ok (), t)) :
    ∀ p ∈ touched ((store.inTurn vcsInit ops).trace s),
      (headTree (checkout t).repo)[p.bytes]? = (checkout t).files p := by
  suffices hmirrors : Mirrors (∅ ∪ touched ((store.inTurn vcsInit ops).trace s)) [] (checkout t) by
    intro p hp
    rw [hmirrors.clean]
    exact hmirrors.agrees p (Or.inr hp) List.not_mem_nil
  rcases hstart with ⟨hrepo, hclean⟩ | ⟨hno, recipients, hfirst⟩
  · have hs : Mirrors ∅ [] (checkout s) :=
      ⟨hrepo, hclean, fun _ hp => False.elim hp, fun _ hp => False.elim hp⟩
    exact inTurn_mirrors h hinit ops hs hrun
  · obtain ⟨ops, rfl⟩ : ∃ rest, ops = .init recipients :: rest := List.head?_eq_some_iff.1 hfirst
    obtain ⟨_, u, hstore, hrest⟩ := run_bind_ok hrun
    have hu := init_mirrors h hinit (.inr ⟨hno, rfl⟩) hstore
    refine (inTurn_mirrors h hinit ops hu hrest).mono ?_
    rw [Set.union_assoc]
    exact Set.union_subset_union_right ∅ (touched_bind_ok hstore subset_rfl subset_rfl)

/-! ## A run in memory -/

/-- `Git2Vcs::init` in memory: it looks for `.git`, and nothing fails. -/
def checkoutInit : Prog (Event TaggedError InTheWay Git2Error) Checkout Git2Error Unit :=
  Prog.call (fun _ => .exists_ ⟨".git".toList, validate_git⟩ (.ok true)) (Git2Vcs.init fun _ => none)

theorem checkoutInit_inits : InitsCheckout checkoutInit (fun _ => none) id where
  run _ := rfl
  touches s := by
    ext q
    simp [touched, checkoutInit, Event.target]

/-- One of each operation. -/
def mirroredOps : List GitOp :=
  [.init [⟨"ALICE".toList⟩], .insert ⟨"a".toList, validate_a⟩ [1, 0] false,
    .copy ⟨"a".toList, validate_a⟩ ⟨"web/b".toList, validate_web_b⟩ false,
    .rename ⟨"a".toList, validate_a⟩ ⟨"web/c".toList, by decide⟩ false,
    .batch [(⟨"d".toList, by decide⟩, [2]), (⟨"web/b".toList, validate_web_b⟩, [3])] "batch".toList,
    .remove ⟨"d".toList, by decide⟩, .removeRecursive ⟨"web".toList, validate_web⟩]

/-- They are run in a directory without files. -/
def mirroredRun : StoreM Checkout TaggedError InTheWay Git2Error Unit :=
  (checkoutStore taggedCrypto (plainGit [])).inTurn checkoutInit mirroredOps

/-- A path that the run writes, and removes again. -/
def mirroredPath : RelPath := ⟨"web/b.gpg".toList, by decide⟩

theorem head_mirrors_store_run :
    (headTree (mirroredRun.run ⟨false, Repo.fresh ∅⟩).2.repo)[mirroredPath.bytes]? =
      (mirroredRun.run ⟨false, Repo.fresh ∅⟩).2.files mirroredPath := by
  have hok : (mirroredRun.run ⟨false, Repo.fresh ∅⟩).1 = .ok () := by decide +kernel
  have htouched : mirroredPath ∈ touched (mirroredRun.trace ⟨false, Repo.fresh ∅⟩) := by
    rw [touched, Set.mem_ofPred_eq]
    decide +kernel
  exact head_mirrors_store
    (checkoutStore_onCheckout (plainGit []) (fun _ _ _ => rfl) taggedCrypto_keeps)
    checkoutInit_inits (.inr ⟨rfl, _, rfl⟩) (Prod.ext hok rfl) mirroredPath htouched

end Bypass
