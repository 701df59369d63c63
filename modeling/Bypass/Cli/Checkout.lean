import Bypass.Cli.Vcs
import Bypass.Core.Asking

/-!
# Stores on a checkout

A store of the command line lies in a directory that may or may not be a git repository, and
`Git2Vcs` does nothing where it is none. Here is what the operations of such a store do to the index
and to `HEAD`, when they succeed: the storage changes the working tree alone, and a commit stages
the paths that it is given.

* `stage_agrees`, `stage_other`: what is staged afterwards.
* `commitFn_done`: what a commit that succeeds does.
* `OnCheckout`: what the backends of such a store promise.
* `changeAll_wrote`: changes of the working tree, and what they leave beside each other on disk.
* `commit_mirrors`: after a commit, `HEAD` has what is on disk at the paths given.
-/

namespace Bypass

open Prog

/-! ## Checkouts -/

/-- The directory of a store. Where there is no repository, only the working tree of `repo`, which
is what lies on disk, has a meaning. -/
structure Checkout where
  initialized : Bool
  repo : Repo

/-- The files on disk. -/
def Checkout.files (c : Checkout) : Files := worktreeFiles c.repo

/-- A repository that has just been made around a working tree. -/
def Repo.fresh (worktree : GitTree) : Repo where
  odb := ⟨[], List.nodup_nil⟩
  head := none
  head_mem := nofun
  upstream := none
  index := ∅
  worktree := worktree
  state := .clean
  orig_mem := nofun

/-- `Git2Vcs::init`, with the error that it has where it fails. -/
def Git2Vcs.init (fault : Checkout → Option Git2Error) (c : Checkout) :
    Except Git2Error Unit × Checkout :=
  if c.initialized then (.ok (), c)
  else
    match fault c with
    | some e => (.error e, c)
    | none => (.ok (), ⟨true, Repo.fresh c.repo.worktree⟩)

/-- `Git2Vcs::commit`. -/
def Git2Vcs.commit (git : Git) (paths : List RelPath) (message : Str) (c : Checkout) :
    Except Git2Error Unit × Checkout :=
  if paths = [] ∨ c.initialized = false then (.ok (), c)
  else
    ((Git2Vcs.commitFn git paths message c.repo).1,
      { c with repo := (Git2Vcs.commitFn git paths message c.repo).2 })

/-- The tree of `HEAD`, which is empty as long as there is no commit. -/
def headTree (r : Repo) : GitTree := (r.head.map Merkle.tree).getD ∅

/-- The repository is as it was, but for its working tree. -/
structure SameGit (c d : Checkout) : Prop where
  initialized : d.initialized = c.initialized
  head : d.repo.head = c.repo.head
  index : d.repo.index = c.repo.index

theorem SameGit.refl (c : Checkout) : SameGit c c := ⟨rfl, rfl, rfl⟩

theorem SameGit.trans {c d e : Checkout} (hcd : SameGit c d) (hde : SameGit d e) : SameGit c e :=
  ⟨hde.initialized.trans hcd.initialized, hde.head.trans hcd.head, hde.index.trans hcd.index⟩

/-! ## What a commit stages -/

theorem Collides.symm {a b : Bytes} (h : Collides a b) : Collides b a := Or.symm h

theorem not_collides_self (a : Bytes) : ¬ Collides a a := by
  intro h
  have hlen : (a ++ [0x2f]).length ≤ a.length := h.elim List.IsPrefix.length_le
    List.IsPrefix.length_le
  simp only [List.length_append, List.length_singleton] at hlen
  omega

theorem getElem?_addPath (index : GitTree) (p content b : Bytes) :
    (addPath index p content)[b]? =
      if p = b then some content else if Collides p b then none else index[b]? := by
  rw [addPath, Std.ExtTreeMap.getElem?_insert]
  simp only [Std.LawfulEqOrd.compare_eq_iff_eq, Std.ExtTreeMap.getElem?_filter']
  refine if_congr Iff.rfl rfl ?_
  by_cases hcollides : Collides p b
  · simp [hcollides]
  · cases index[b]? with
    | none => simp
    | some content => simp [hcollides]

/-- One round of the loop of `commit`. -/
def stageOne (worktree : GitTree) (p : RelPath) (index : GitTree) : GitTree :=
  match worktree[p.bytes]? with
  | some content => addPath index p.bytes content
  | none => index.erase p.bytes

theorem stage_cons (worktree : GitTree) (p : RelPath) (ps : List RelPath) (index : GitTree) :
    stage worktree (p :: ps) index = stage worktree ps (stageOne worktree p index) := by
  rw [stage, stageOne]
  cases worktree[p.bytes]? <;> rfl

/-- What one path puts into the index. -/
theorem getElem?_stageOne (worktree : GitTree) (p : RelPath) (index : GitTree) (b : Bytes) :
    (stageOne worktree p index)[b]? =
      if p.bytes = b then worktree[b]?
      else if (worktree[p.bytes]?).isSome ∧ Collides p.bytes b then none else index[b]? := by
  rw [stageOne]
  by_cases hb : p.bytes = b
  · subst hb
    cases hcontent : worktree[p.bytes]? with
    | some content => simp [getElem?_addPath]
    | none => simp
  · cases hcontent : worktree[p.bytes]? with
    | some content => simp [getElem?_addPath, hb]
    | none => simp [Std.ExtTreeMap.getElem?_erase, hb]

/-- **What is staged agrees with the disk**, at the paths given and where it did before, as far as
nothing that is staged is in the way. -/
theorem stage_agrees {worktree : GitTree} {ps : List RelPath} {index : GitTree} {b : Bytes}
    (hb : (∃ p ∈ ps, p.bytes = b) ∨ index[b]? = worktree[b]?)
    (hclear : ∀ p ∈ ps, (worktree[p.bytes]?).isSome → (worktree[b]?).isSome →
      ¬ Collides p.bytes b) :
    (stage worktree ps index)[b]? = worktree[b]? := by
  induction ps generalizing index with
  | nil =>
    rcases hb with ⟨p, hp, -⟩ | hb
    · cases hp
    · exact hb
  | cons p ps ih =>
    rw [stage_cons]
    refine ih ?_ fun q hq => hclear q (List.mem_cons_of_mem _ hq)
    rw [getElem?_stageOne]
    rcases hb with ⟨q, hq, hqb⟩ | hb
    · rcases List.mem_cons.1 hq with rfl | hq
      · exact Or.inr (if_pos hqb)
      · exact Or.inl ⟨q, hq, hqb⟩
    · refine Or.inr ?_
      split_ifs with hpb hway
      · rfl
      · -- what is in the way of a path on disk is not on disk
        cases hdisk : worktree[b]? with
        | none => rfl
        | some content =>
          have hsome : (worktree[b]?).isSome := by rw [hdisk]; rfl
          exact absurd hway.2 (hclear p List.mem_cons_self hway.1 hsome)
      · exact hb

/-- **A path that is not staged** stays in the index, unless something that is staged is in its
way. -/
theorem stage_other {worktree : GitTree} {ps : List RelPath} {index : GitTree} {b : Bytes}
    (hb : ∀ p ∈ ps, p.bytes ≠ b) :
    (stage worktree ps index)[b]? =
      if ∃ p ∈ ps, (worktree[p.bytes]?).isSome ∧ Collides p.bytes b then none else index[b]? := by
  induction ps generalizing index with
  | nil => simp [stage]
  | cons p ps ih =>
    rw [stage_cons, ih fun q hq => hb q (List.mem_cons_of_mem _ hq), getElem?_stageOne,
      if_neg (hb p List.mem_cons_self)]
    by_cases hway : (worktree[p.bytes]?).isSome ∧ Collides p.bytes b
    · rw [if_pos hway, ite_self, if_pos ⟨p, List.mem_cons_self, hway⟩]
    · rw [if_neg hway]
      refine if_congr ?_ rfl rfl
      rw [List.exists_mem_cons_iff, or_iff_right hway]

/-- **A commit that succeeds** leaves its paths staged. It finds their tree at `HEAD`, or makes one
commit of it. No path that it is given is a directory. -/
theorem commitFn_done {git : Git} {paths : List RelPath} {message : Str} {r r' : Repo}
    (hpaths : paths ≠ []) (h : Git2Vcs.commitFn git paths message r = (.ok (), r')) :
    (∀ p ∈ paths, ¬ IsDirectory r.worktree p) ∧
      r'.index = stage r.worktree paths r.index ∧ r'.worktree = r.worktree ∧
      (r.head.map Merkle.tree = some (stage r.worktree paths r.index) ∧ r'.head = r.head ∨
        r.head.map Merkle.tree ≠ some (stage r.worktree paths r.index) ∧
          ∃ c, r'.head = some c ∧ c.tree = stage r.worktree paths r.index ∧
            c.parents = r.head.toList ∧ ∀ d, d ∈ r'.odb.commits ↔ d = c ∨ d ∈ r.odb.commits) := by
  unfold Git2Vcs.commitFn at h
  rw [if_neg hpaths] at h
  split at h
  · cases h
  split at h
  · cases h
  · cases h
  split at h
  · cases h
  next hdir =>
  push Not at hdir
  unfold Git2Vcs.commitIndex at h
  split at h
  · next hhead =>
    obtain ⟨-, rfl⟩ := Prod.mk.inj h
    exact ⟨hdir, rfl, rfl, Or.inl ⟨hhead, rfl⟩⟩
  · next hhead =>
    split at h
    · cases h
    next stored hstored =>
    obtain ⟨hcommits, -, hindex, hwork, -⟩ := Repo.store_eq_some hstored
    split at h
    · obtain ⟨-, rfl⟩ := Prod.mk.inj h
      refine ⟨hdir, hindex, hwork, Or.inr ⟨hhead, _, rfl, rfl, rfl, fun d => ?_⟩⟩
      show d ∈ stored.odb.commits ↔ _
      rw [hcommits d, List.mem_singleton]
    · cases h

/-- Either way, it is the tree of `HEAD`. -/
theorem commitFn_staged {git : Git} {paths : List RelPath} {message : Str} {r r' : Repo}
    (hpaths : paths ≠ []) (h : Git2Vcs.commitFn git paths message r = (.ok (), r')) :
    ∃ c ∈ r'.head, c.tree = stage r.worktree paths r.index := by
  obtain ⟨-, -, -, ⟨hhead, hsame⟩ | ⟨-, c, hc, htree, -⟩⟩ := commitFn_done hpaths h
  · rw [hsame]
    exact Option.map_eq_some_iff.1 hhead
  · exact ⟨c, hc, htree⟩

/-! ## The backends -/

/-- No path of `T` that is on disk is a directory of another, or in one that is a file. -/
def Apart (T : Set RelPath) (f : Files) : Prop :=
  ∀ p ∈ T, (f p).isSome → ∀ q : RelPath, (f q).isSome → ¬ Collides p.bytes q.bytes

/-- **The store lies in a checkout**: its storage is the working tree, and touches nothing else of
the repository; its version control is `Git2Vcs`. A path cannot be written where a directory is, nor
below a file. -/
structure OnCheckout {W CE SE : Type} (store : Store W CE SE Git2Error) (git : Git)
    (checkout : W → Checkout) : Prop where
  onMap : OnMap store fun w => (checkout w).files
  calm : Calm store fun s t => SameGit (checkout s) (checkout t)
  write_git : ∀ p d w, SameGit (checkout w) (checkout (store.storage.writeFn p d w).2)
  write_clear : ∀ p d w, (store.storage.writeFn p d w).1 = .ok () →
    ∀ q : RelPath, ((checkout w).files q).isSome → ¬ Collides p.bytes q.bytes
  remove_git : ∀ p w, SameGit (checkout w) (checkout (store.storage.removeFn p w).2)
  commit : ∀ paths message w, ((store.vcs.commitFn paths message w).1,
    checkout (store.vcs.commitFn paths message w).2) = Git2Vcs.commit git paths message (checkout w)

variable {W CE SE : Type} {store : Store W CE SE Git2Error} {git : Git} {checkout : W → Checkout}

/-- Nothing on disk, and nothing in git, has changed. -/
def SameCheckout (checkout : W → Checkout) (s t : W) : Prop :=
  (checkout t).files = (checkout s).files ∧ SameGit (checkout s) (checkout t)

theorem SameCheckout.refl (s : W) : SameCheckout checkout s s := ⟨rfl, .refl _⟩

theorem SameCheckout.trans {s t u : W} (hst : SameCheckout checkout s t)
    (htu : SameCheckout checkout t u) : SameCheckout checkout s u :=
  ⟨htu.1.trans hst.1, hst.2.trans htu.2⟩

theorem OnCheckout.same (h : OnCheckout store git checkout) :
    Calm store (SameCheckout checkout) where
  encrypt p rs w := ⟨h.onMap.encrypt_files p rs w, h.calm.encrypt p rs w⟩
  decrypt c w := ⟨h.onMap.decrypt_files c w, h.calm.decrypt c w⟩
  read p w := ⟨h.onMap.read_files p w, h.calm.read p w⟩
  exists_ p w := ⟨h.onMap.exists_files p w, h.calm.exists_ p w⟩
  list d w := ⟨h.onMap.list_files d w, h.calm.list d w⟩

/-! ## Changes -/

/-- From `s` to `t` the paths `P` have been written or removed, with success. -/
structure Wrote (checkout : W → Checkout) (P : Set RelPath) (s t : W) : Prop where
  git : SameGit (checkout s) (checkout t)
  frame : ∀ q ∉ P, (checkout t).files q = (checkout s).files q
  apart : ∀ T, Apart T (checkout s).files → Apart (T ∪ P) (checkout t).files

theorem SameCheckout.wrote {s t : W} (h : SameCheckout checkout s t) :
    Wrote checkout ∅ s t where
  git := h.2
  frame q _ := congrFun h.1 q
  apart T hT := by rwa [h.1, Set.union_empty]

theorem Wrote.trans {P Q : Set RelPath} {s t u : W} (hst : Wrote checkout P s t)
    (htu : Wrote checkout Q t u) : Wrote checkout (P ∪ Q) s u where
  git := hst.git.trans htu.git
  frame q hq := by
    rw [Set.mem_union, not_or] at hq
    rw [htu.frame q hq.2, hst.frame q hq.1]
  apart T hT := by
    rw [← Set.union_assoc]
    exact htu.apart _ (hst.apart T hT)

theorem Apart.mono {T T' : Set RelPath} {f : Files} (h : Apart T f) (hsub : T' ⊆ T) : Apart T' f :=
  fun p hp => h p (hsub hp)

/-- What has just been written is apart from the rest. -/
theorem Apart.write {T : Set RelPath} {f : Files} {p : RelPath} {d : Bytes} (h : Apart T f)
    (hclear : ∀ q : RelPath, (f q).isSome → ¬ Collides p.bytes q.bytes) :
    Apart (T ∪ {p}) (Function.update f p (some d)) := by
  have hself : ∀ q : RelPath, (Function.update f p (some d) q).isSome →
      ¬ Collides p.bytes q.bytes := by
    intro q hq
    by_cases hqp : q = p
    · exact hqp ▸ not_collides_self _
    · rw [Function.update_of_ne hqp] at hq
      exact hclear q hq
  intro r hr hrsome q hq
  by_cases hrp : r = p
  · subst hrp
    exact hself q hq
  · by_cases hqp : q = p
    · subst hqp
      exact fun hcollides => hself r hrsome hcollides.symm
    · rw [Function.update_of_ne hrp] at hrsome
      rw [Function.update_of_ne hqp] at hq
      exact h r (hr.resolve_right hrp) hrsome q hq

theorem Apart.remove {T : Set RelPath} {f : Files} {p : RelPath} (h : Apart T f) :
    Apart (T ∪ {p}) (Function.update f p none) := by
  have hsub : ∀ q, (Function.update f p none q).isSome → q ≠ p ∧ (f q).isSome := by
    intro q hq
    by_cases hqp : q = p
    · rw [hqp, Function.update_self] at hq
      cases hq
    · rw [Function.update_of_ne hqp] at hq
      exact ⟨hqp, hq⟩
  intro r hr hrsome q hq
  obtain ⟨hrp, hrsome⟩ := hsub r hrsome
  exact h r (hr.resolve_right hrp) hrsome q (hsub q hq).2

section Changes

variable (h : OnCheckout store git checkout)
include h

/-- A change that succeeds. -/
theorem change_wrote {c : Change} {s t : W} (hrun : (store.change c).run s = (.ok (), t)) :
    Wrote checkout {c.path} s t ∧ (checkout t).files = c.apply (checkout s).files := by
  have hframe : ∀ {f : Files} {p : RelPath} {v : Option Bytes},
      ∀ q ∉ ({p} : Set RelPath), Function.update f p v q = f q := fun q hq =>
    Function.update_of_ne hq _ _
  cases c with
  | write p d =>
    have hcall : store.storage.writeFn p d s = (.ok (), t) := run_mapErr_ok hrun
    have hok := congrArg Prod.fst hcall
    have hfiles := h.onMap.write_ok p d s hok
    have hgit := h.write_git p d s
    rw [hcall] at hfiles hgit
    refine ⟨⟨hgit, ?_, fun T hT => ?_⟩, hfiles⟩
    · rw [hfiles]
      exact hframe
    · rw [hfiles]
      exact hT.write (h.write_clear p d s hok)
  | remove p =>
    have hcall : store.storage.removeFn p s = (.ok (), t) := run_mapErr_ok hrun
    have hfiles := h.onMap.remove_ok p s (congrArg Prod.fst hcall)
    have hgit := h.remove_git p s
    rw [hcall] at hfiles hgit
    refine ⟨⟨hgit, ?_, fun T hT => ?_⟩, hfiles⟩
    · rw [hfiles]
      exact hframe
    · rw [hfiles]
      exact hT.remove

/-- **Changes that succeed**, in order. -/
theorem changeAll_wrote {cs : List Change} {s t : W}
    (hrun : (store.changeAll cs).run s = (.ok (), t)) :
    Wrote checkout {q | q ∈ cs.map Change.path} s t := by
  induction cs generalizing s with
  | nil =>
    obtain ⟨-, rfl⟩ := Prod.mk.inj hrun
    have hwrote := (@SameCheckout.refl W checkout s).wrote
    simpa using hwrote
  | cons c cs ih =>
    obtain ⟨_, u, hfirst, hrest⟩ := run_bind_ok hrun
    have hpaths : {q | q ∈ (c :: cs).map Change.path} =
        {c.path} ∪ {q | q ∈ cs.map Change.path} := by
      ext q
      simp
    rw [hpaths]
    exact (change_wrote h hfirst).1.trans (ih hrest)

/-- What `insert_no_commit` writes when it succeeds. -/
theorem insertNoCommit_wrote {entry blob : RelPath} {plaintext : Bytes} {s t : W}
    (hrun : (store.insertNoCommit entry plaintext).run s = (.ok blob, t)) :
    Wrote checkout {blob} s t ∧ touched ((store.insertNoCommit entry plaintext).trace s) ⊆ {blob} := by
  have hshape : (store.insertNoCommitPlan entry plaintext).Returns fun plan =>
      plan.commit = none ∧ plan.changes.map Change.path = [plan.result, plan.result] :=
    returns_bind fun _ => returns_pure ⟨rfl, rfl⟩
  rw [store.insertNoCommit_eq] at hrun ⊢
  obtain ⟨decided, u, v, hplan, hsu, hchanges, hend, rfl, htouched⟩ :=
    planned_ok SameCheckout.refl (fun _ _ _ => SameCheckout.trans)
      (asking_insertNoCommitPlan h.same entry plaintext) hrun
  obtain ⟨hnone, hpaths⟩ := hshape.run hplan
  have hblob : {q | q ∈ decided.changes.map Change.path} = ({decided.result} : Set RelPath) := by
    ext q
    simp [hpaths]
  rw [hblob] at htouched
  have hwrote := hsu.wrote.trans (changeAll_wrote h hchanges)
  rw [hblob, Set.empty_union] at hwrote
  rcases hend with ⟨-, rfl⟩ | ⟨paths, message, hsome, -⟩
  · exact ⟨hwrote, htouched⟩
  · rw [hnone] at hsome
    cases hsome

omit h in
/-- **A loop that writes**, one path each time. -/
theorem mapM_wrote {β ε : Type} {f : β → Prog (Event CE SE Git2Error) W ε RelPath}
    (hf : ∀ b s t blob, (f b).run s = (.ok blob, t) →
      Wrote checkout {blob} s t ∧ touched ((f b).trace s) ⊆ {blob}) {bs : List β} {s t : W}
    {blobs : List RelPath} (hrun : (bs.mapM f).run s = (.ok blobs, t)) :
    Wrote checkout {q | q ∈ blobs} s t ∧ touched ((bs.mapM f).trace s) ⊆ {q | q ∈ blobs} := by
  induction bs generalizing s blobs with
  | nil =>
    obtain ⟨hnil, rfl⟩ := Prod.mk.inj hrun
    obtain rfl := Except.ok.inj hnil
    have hwrote := (@SameCheckout.refl W checkout s).wrote
    exact ⟨by simpa using hwrote, touched_nil.subset.trans (Set.empty_subset _)⟩
  | cons b bs ih =>
    rw [List.mapM_cons] at hrun ⊢
    obtain ⟨blob, u, hfirst, hothers⟩ := run_bind_ok hrun
    obtain ⟨rest, v, hrest, hend⟩ := run_bind_ok hothers
    obtain ⟨hcons, rfl⟩ := Prod.mk.inj hend
    obtain rfl := Except.ok.inj hcons
    obtain ⟨hwrote, htouched⟩ := hf b _ _ _ hfirst
    obtain ⟨hwrote', htouched'⟩ := ih hrest
    have hpaths : {q | q ∈ blob :: rest} = ({blob} ∪ {q | q ∈ rest} : Set RelPath) := by
      ext q
      simp
    rw [hpaths]
    refine ⟨hwrote.trans hwrote', touched_bind_ok hfirst htouched ?_⟩
    refine (touched_bind_ok hrest htouched' touched_nil.subset).trans ?_
    rw [Set.union_empty]

end Changes

/-! ## Commits -/

/-- In the repository, the index is that of `HEAD`, and agrees with the disk at the paths of `T`,
but for those that are yet to be committed. -/
structure Mirrors (T : Set RelPath) (pending : List RelPath) (c : Checkout) : Prop where
  initialized : c.initialized = true
  clean : headTree c.repo = c.repo.index
  agrees : ∀ p ∈ T, p ∉ pending → c.repo.index[p.bytes]? = c.files p
  apart : Apart T c.files

theorem Mirrors.mono {T T' : Set RelPath} {pending : List RelPath} {c : Checkout}
    (h : Mirrors T pending c) (hsub : T' ⊆ T) : Mirrors T' pending c where
  initialized := h.initialized
  clean := h.clean
  agrees p hp := h.agrees p (hsub hp)
  apart := h.apart.mono hsub

/-- What is written is yet to be committed. -/
theorem Wrote.mirrors {P T : Set RelPath} {pending : List RelPath} {s t : W}
    (h : Wrote checkout P s t) (hs : Mirrors T pending (checkout s)) (more : List RelPath)
    (hP : ∀ q ∈ P, q ∈ more) : Mirrors (T ∪ P) (pending ++ more) (checkout t) where
  initialized := h.git.initialized.trans hs.initialized
  clean := by rw [headTree, h.git.head, h.git.index, ← hs.clean, headTree]
  agrees p hp hpending := by
    rw [List.mem_append, not_or] at hpending
    have hnew : p ∉ P := fun hin => hpending.2 (hP p hin)
    rw [h.git.index, h.frame p hnew]
    exact hs.agrees p (hp.resolve_right hnew) hpending.1
  apart := h.apart T hs.apart

/-- **After a commit, `HEAD` has what is on disk** at the paths that it was given, and where it had
it before. -/
theorem commit_mirrors {T : Set RelPath} {pending : List RelPath} {message : Str} {c c' : Checkout}
    (h : Mirrors T pending c) (hrun : Git2Vcs.commit git pending message c = (.ok (), c')) :
    Mirrors T [] c' := by
  rw [Git2Vcs.commit] at hrun
  split_ifs at hrun with hnothing
  · obtain ⟨-, rfl⟩ := Prod.mk.inj hrun
    have hnil : pending = [] := hnothing.resolve_right fun hno => by
      rw [h.initialized] at hno
      cases hno
    exact hnil ▸ h
  · rw [not_or] at hnothing
    obtain ⟨hok, rfl⟩ := Prod.mk.inj hrun
    have hcommit : Git2Vcs.commitFn git pending message c.repo =
        (.ok (), (Git2Vcs.commitFn git pending message c.repo).2) := Prod.ext hok rfl
    obtain ⟨-, hindex, hwork, -⟩ := commitFn_done hnothing.1 hcommit
    obtain ⟨d, hd, htree⟩ := commitFn_staged hnothing.1 hcommit
    have hfiles : Checkout.files { c with
        repo := (Git2Vcs.commitFn git pending message c.repo).2 } = c.files := by
      funext p
      simp only [Checkout.files, worktreeFiles, hwork]
    refine ⟨h.initialized, ?_, fun p hp _ => ?_, hfiles ▸ h.apart⟩
    · rw [headTree, Option.mem_def.1 hd, hindex]
      exact htree
    · rw [hfiles, hindex]
      refine stage_agrees ?_ fun q _ hq hpsome hcollides => ?_
      · by_cases hin : p ∈ pending
        · exact Or.inl ⟨p, hin, rfl⟩
        · exact Or.inr (h.agrees p hp hin)
      · exact h.apart p hp hpsome q hq hcollides.symm

section Operations

variable (h : OnCheckout store git checkout)
include h

/-- **A planned operation that commits what it changes** is mirrored in `HEAD`. -/
theorem planned_mirrors {α : Type} {plan : StoreM W CE SE Git2Error (Plan α)}
    (hasks : plan.Steps (Asking (SameCheckout checkout))) (hcommits : plan.Returns Plan.Commits)
    {T : Set RelPath} {s t : W} (hs : Mirrors T [] (checkout s)) {a : α}
    (hrun : (plan >>= store.execute).run s = (.ok a, t)) :
    Mirrors (T ∪ touched ((plan >>= store.execute).trace s)) [] (checkout t) := by
  obtain ⟨decided, u, v, hplan, hsu, hchanges, hend, -, htouched⟩ :=
    planned_ok SameCheckout.refl (fun _ _ _ => SameCheckout.trans) hasks hrun
  have hall := hcommits.run hplan
  refine Mirrors.mono ?_ (Set.union_subset_union_right T htouched)
  have hwrote := hsu.wrote.trans (changeAll_wrote h hchanges)
  rw [Set.empty_union] at hwrote
  rcases hend with ⟨hnone, rfl⟩ | ⟨paths, message, hsome, hcommit⟩
  · -- what does not commit, has changed nothing
    refine hwrote.mirrors hs [] fun q hq => ?_
    obtain ⟨c, hc, -⟩ := List.mem_map.1 hq
    obtain ⟨_, _, hcommit, -⟩ := hall c hc
    rw [hnone] at hcommit
    cases hcommit
  · have hpending : Mirrors (T ∪ {q | q ∈ decided.changes.map Change.path}) paths (checkout v) := by
      refine hwrote.mirrors hs paths fun q hq => ?_
      obtain ⟨c, hc, rfl⟩ := List.mem_map.1 hq
      obtain ⟨paths', message', hcommit', hin⟩ := hall c hc
      rw [hsome] at hcommit'
      obtain ⟨rfl, -⟩ := Prod.mk.inj (Option.some.inj hcommit')
      exact hin
    have hrepo := h.commit paths message v
    rw [hcommit] at hrepo
    exact commit_mirrors hpending hrepo.symm

end Operations

/-! ## A checkout in memory -/

/-- The error of a path that cannot be written. -/
inductive InTheWay where
  | inTheWay (path : Str)
  deriving DecidableEq

/-- The working tree of a checkout as a storage. -/
def checkoutStorage : Storage Checkout InTheWay where
  readFn path c := (.ok (c.files path), c)
  writeFn path data c :=
    if c.repo.worktree.keys.any fun q => decide (Collides path.bytes q) then
      (.error (.inTheWay path.str), c)
    else
      (.ok (), { c with repo := { c.repo with
        worktree := c.repo.worktree.insert path.bytes data } })
  removeFn path c :=
    (.ok (), { c with repo := { c.repo with worktree := c.repo.worktree.erase path.bytes } })
  existsFn path c := (.ok (c.files path).isSome, c)
  listFn dir c := (.ok ((c.repo.worktree.keys.filterMap RelPath.ofBytes).filter fun q =>
    dir.all fun p => decide (p.Below q)), c)

/-- The store of such a checkout. -/
def checkoutStore {CE : Type} (crypto : Crypto Checkout CE) (git : Git) :
    Store Checkout CE InTheWay Git2Error where
  crypto := crypto
  storage := checkoutStorage
  vcs := ⟨Git2Vcs.commit git⟩

theorem commit_files (git : Git) (paths : List RelPath) (message : Str) (c : Checkout) :
    (Git2Vcs.commit git paths message c).2.files = c.files := by
  rw [Git2Vcs.commit]
  split_ifs
  · rfl
  · exact (gitStore_onMap git).commit_files paths message c.repo

/-- A write changes nothing, or one file of the working tree. -/
theorem checkoutStorage_write (p : RelPath) (d : Bytes) (c : Checkout) :
    (checkoutStorage.writeFn p d c).2 = c ∨
      (checkoutStorage.writeFn p d c).2 = { c with repo := { c.repo with
        worktree := c.repo.worktree.insert p.bytes d } } := by
  unfold checkoutStorage
  dsimp only
  split_ifs
  · exact Or.inl rfl
  · exact Or.inr rfl

/-- A write that succeeds found nothing in its way. -/
theorem checkoutStorage_write_ok {p : RelPath} {d : Bytes} {c : Checkout}
    (hok : (checkoutStorage.writeFn p d c).1 = .ok ()) :
    (∀ q ∈ c.repo.worktree.keys, ¬ Collides p.bytes q) ∧
      (checkoutStorage.writeFn p d c).2 = { c with repo := { c.repo with
        worktree := c.repo.worktree.insert p.bytes d } } := by
  unfold checkoutStorage at hok ⊢
  dsimp only at hok ⊢
  split_ifs at hok ⊢ with hway
  simp only [List.any_eq_true, decide_eq_true_eq, not_exists, not_and] at hway
  exact ⟨hway, rfl⟩

section Memory

variable {CE : Type} {crypto : Crypto Checkout CE}

theorem checkoutStore_onMap (git : Git) (hencrypt : ∀ p rs c, (crypto.encryptFn p rs c).2 = c)
    (hdecrypt : ∀ d c, (crypto.decryptFn d c).2 = c) :
    OnMap (checkoutStore crypto git) Checkout.files where
  encrypt_files p rs c := congrArg Checkout.files (hencrypt p rs c)
  decrypt_files d c := congrArg Checkout.files (hdecrypt d c)
  read_files _ _ := rfl
  read_ok p c v hv := (Except.ok.inj hv).symm
  write_frame p d c q hq := by
    rcases checkoutStorage_write p d c with hsame | hnew
    · exact congrFun (congrArg Checkout.files hsame) q
    · refine (congrFun (congrArg Checkout.files hnew) q).trans ?_
      exact (gitStore_onMap git).write_frame p d c.repo q hq
  write_ok p d c hok := by
    refine (congrArg Checkout.files (checkoutStorage_write_ok hok).2).trans ?_
    exact (gitStore_onMap git).write_ok p d c.repo rfl
  remove_frame p c q hq := (gitStore_onMap git).remove_frame p c.repo q hq
  remove_ok p c _ := (gitStore_onMap git).remove_ok p c.repo rfl
  exists_files _ _ := rfl
  exists_ok p c b hb := (Except.ok.inj hb).symm
  list_files _ _ := rfl
  list_nodup d c l hl := by
    obtain rfl := Except.ok.inj hl
    exact (gitStore_onMap git).list_nodup d c.repo _ rfl
  mem_list d c l hl := by
    obtain rfl := Except.ok.inj hl
    exact (gitStore_onMap git).mem_list d c.repo _ rfl
  commit_files paths message c := commit_files git paths message c

/-- **It lies in a checkout**, if its crypto leaves the state alone. -/
theorem checkoutStore_onCheckout (git : Git) (hencrypt : ∀ p rs c, (crypto.encryptFn p rs c).2 = c)
    (hdecrypt : ∀ d c, (crypto.decryptFn d c).2 = c) :
    OnCheckout (checkoutStore crypto git) git id where
  onMap := checkoutStore_onMap git hencrypt hdecrypt
  calm := by
    have hsame : ∀ {c d : Checkout}, d = c → SameGit c d := fun h => h ▸ SameGit.refl _
    exact ⟨fun p rs c => hsame (hencrypt p rs c), fun d c => hsame (hdecrypt d c),
      fun _ c => .refl c, fun _ c => .refl c, fun _ c => .refl c⟩
  write_git p d c := by
    show SameGit c (checkoutStorage.writeFn p d c).2
    rcases checkoutStorage_write p d c with hsame | hnew
    · rw [hsame]
      exact .refl c
    · rw [hnew]
      exact ⟨rfl, rfl, rfl⟩
  write_clear p d c hok q hq := by
    refine (checkoutStorage_write_ok hok).1 q.bytes ?_
    rw [Std.ExtTreeMap.mem_keys, Std.ExtTreeMap.mem_iff_isSome_getElem?]
    exact hq
  remove_git _ _ := ⟨rfl, rfl, rfl⟩
  commit _ _ _ := rfl

end Memory

end Bypass
