import Bypass.Sync.Serve

/-!
# Building a pack, call by call

`build_pack` walks the history twice with libgit2: once to see whether there is anything to send,
and once to pack it. Each time it hides what the peer says it has seen, if that names a commit, and
it does not look at how the hiding went.

* `startWalk_ok`: what a walk starts with.
* `buildPackCalls_ok`, `buildPack_of_calls`: the pack that comes out is the one that `buildPack`
  asks git for.
* **`build_pack_exact`**: it has what the head reaches and the peer's claim does not, and completes
  the history of a receiver for whom the claim is true.
-/

namespace Bypass

open Prog

/-! ## Walks of libgit2 -/

/-- A call of libgit2 in `build_pack`. -/
inductive PackCall where
  | openRepo
  | revwalk
  | push (oid : Oid)
  | findCommit (oid : Oid)
  | hide (oid : Oid)
  | next
  | packbuilder
  | insertWalk
  | writeBuf
  deriving DecidableEq

/-- `git2::Revwalk`: the commits to start from, and those to hide with all that they reach. -/
structure PackRevwalk where
  pushed : List Commit
  hidden : List Commit

/-- What a walk meets. -/
def PackRevwalk.commits (walk : PackRevwalk) : List Commit :=
  (walk.pushed.flatMap Merkle.history).dedup.filter fun c => ∀ h ∈ walk.hidden, c ∉ h.history

/-- A walk from one commit that hides at most one meets the commits between the two. -/
theorem commits_from (head : Commit) (since : Option Commit) :
    (PackRevwalk.mk [head] since.toList).commits = Merkle.range since head := by
  rw [PackRevwalk.commits, Merkle.range, List.flatMap_singleton]
  refine List.filter_congr fun c _ => decide_eq_decide.2 ?_
  cases since <;> simp

/-! ## The calls -/

section Calls

variable (fault : PackCall → Repo → Option Str)

/-- A call that may fail, and changes nothing. -/
def packCall {α : Type} (call : PackCall) (f : Repo → Except Str α) : Prog PackCall Repo Str α :=
  Prog.call (fun _ => call) fun r =>
    match fault call r with
    | some e => (.error e, r)
    | none => (f r, r)

/-- The commit of an id, for a call that needs it. -/
def lookupOr (oid : Oid) (r : Repo) : Except Str Commit :=
  match r.odb.lookup oid with
  | some c => .ok c
  | none => .error "object not found".toList

/-- `Revwalk::push`. -/
def pushOid (walk : PackRevwalk) (oid : Oid) : Prog PackCall Repo Str PackRevwalk :=
  packCall fault (.push oid) fun r =>
    (lookupOr oid r).map fun c => { walk with pushed := c :: walk.pushed }

/-- `Repository::find_commit`, which fails where the commit is missing. -/
def findOid (oid : Oid) : Prog PackCall Repo Str Commit :=
  Prog.call (fun _ => .findCommit oid) fun r => (lookupOr oid r, r)

/-- `Revwalk::hide`, which fails where the commit is missing. -/
def hideOid (walk : PackRevwalk) (oid : Oid) : Prog PackCall Repo Str PackRevwalk :=
  Prog.call (fun _ => .hide oid) fun r =>
    ((lookupOr oid r).map fun c => { walk with hidden := c :: walk.hidden }, r)

/-- The next commit of a walk. -/
def nextCommit (walk : PackRevwalk) : Prog PackCall Repo Str (Option Commit) :=
  packCall fault .next fun _ => .ok walk.commits.head?

/-- `PackBuilder::insert_walk`, into an empty one: it takes the commits of the walk one by one, with
all that they hold. -/
def insertWalk (walk : PackRevwalk) : Prog PackCall Repo Str (List Commit) :=
  packCall fault .insertWalk fun r =>
    match fault .next r with
    | some e => .error e
    | none =>
      if ∀ c ∈ walk.commits, c ∈ r.odb.commits then .ok walk.commits
      else .error "object not found".toList

/-- `PackBuilder::write_buf`. -/
def writeBuf (git : Git) (builder : List Commit) : Prog PackCall Repo Str Bytes :=
  packCall fault .writeBuf fun _ => .ok (git.pack builder)

/-! ## `build_pack` -/

/-- Hide what the peer claims to have, if it names a commit that is there. -/
def hideSeen (walk : PackRevwalk) : Option Str → Prog PackCall Repo Str PackRevwalk
  | none => pure walk
  | some seen =>
    match Oid.fromStr seen with
    | none => pure walk
    | some oid => do
      match ← (findOid oid).attempt with
      | .error _ => pure walk
      | .ok _ =>
        match ← (hideOid walk oid).attempt with
        | .error _ => pure walk
        | .ok walk => pure walk

/-- A new walk from the head, with the contexts of its errors. -/
def startWalk (head : Oid) (seen : Option Str) (onCreate onPush : Str) :
    Prog PackCall Repo Str PackRevwalk := do
  (packCall fault .revwalk fun _ => .ok ()).mapErr fun _ => onCreate
  let walk ← (pushOid fault ⟨[], []⟩ head).mapErr fun _ => onPush
  hideSeen walk seen

/-- The second walk of `build_pack`, and the pack of what it meets. -/
def packWalk (git : Git) (head : Oid) (seen : Option Str) : Prog PackCall Repo Str Bytes := do
  let walk ← startWalk fault head seen "recreate revwalk".toList "re-push HEAD".toList
  (packCall fault .packbuilder fun _ => .ok ()).mapErr fun _ => "create packbuilder".toList
  let builder ← (insertWalk fault walk).mapErr fun _ => "pack revwalk".toList
  (writeBuf fault git builder).mapErr fun _ => "serialise pack".toList

/-- `build_pack`, call by call. -/
def buildPackCalls (git : Git) (localHead seen : Option Str) : Prog PackCall Repo Str Bytes :=
  match localHead with
  | none => pure []
  | some head => do
    (packCall fault .openRepo fun _ => .ok ()).mapErr fun _ => "open repo for packing".toList
    match Oid.fromStr head with
    | none => throw "parse local HEAD oid".toList
    | some oid => do
      let walk ← startWalk fault oid seen "create revwalk".toList "push HEAD onto revwalk".toList
      match ← (nextCommit fault walk).attempt with
      | .ok none => pure []
      -- an error of this walk is met again by the second
      | _ => packWalk fault git oid seen

end Calls

/-! ## What comes out -/

section Outcome

variable {fault : PackCall → Repo → Option Str} {r t : Repo}

theorem packCall_ok {α : Type} {call : PackCall} {f : Repo → Except Str α} {a : α}
    (h : (packCall fault call f).run r = (.ok a, t)) : t = r ∧ f r = .ok a := by
  rw [packCall, run_call] at h
  split at h
  · cases h
  · exact ⟨(Prod.mk.inj h).2.symm, (Prod.mk.inj h).1⟩

theorem packCall_sound {α : Type} {call : PackCall} {f : Repo → Except Str α}
    (h : fault call r = none) : (packCall fault call f).run r = (f r, r) := by
  rw [packCall, run_call, h]

/-- Hiding always succeeds: it hides the commit that is claimed, or nothing. -/
theorem hideSeen_run (walk : PackRevwalk) (seen : Option Str) (r : Repo) :
    (hideSeen walk seen).run r =
      (.ok { walk with hidden := (seen.bind (Git.findCommit r)).toList ++ walk.hidden }, r) := by
  cases seen with
  | none => rfl
  | some seen =>
    rw [hideSeen, Option.bind_some, Git.findCommit]
    cases Oid.fromStr seen with
    | none => rfl
    | some oid =>
      cases hfind : r.odb.lookup oid with
      | none =>
        simp only [run_bind, run_attempt, findOid, run_call, lookupOr, hfind, Option.bind_some]
        rfl
      | some c =>
        simp only [run_bind, run_attempt, findOid, hideOid, run_call, lookupOr, hfind,
          Option.bind_some]
        rfl

/-- **What a walk starts with.** -/
theorem startWalk_ok {head : Oid} {seen : Option Str} {onCreate onPush : Str} {walk : PackRevwalk}
    (hrun : (startWalk fault head seen onCreate onPush).run r = (.ok walk, t)) :
    t = r ∧ ∃ c, r.odb.lookup head = some c ∧
      walk = ⟨[c], (seen.bind (Git.findCommit r)).toList⟩ := by
  obtain ⟨_, s₁, hcreate, hpushing⟩ := run_bind_ok hrun
  obtain ⟨rfl, -⟩ := packCall_ok (run_mapErr_ok hcreate)
  obtain ⟨pushed, s₂, hpush, hhiding⟩ := run_bind_ok hpushing
  obtain ⟨rfl, hpushed⟩ := packCall_ok (run_mapErr_ok hpush)
  rw [hideSeen_run] at hhiding
  obtain ⟨hwalk, rfl⟩ := Prod.mk.inj hhiding
  refine ⟨rfl, ?_⟩
  rw [lookupOr] at hpushed
  cases hfind : s₂.odb.lookup head with
  | none =>
    rw [hfind] at hpushed
    cases hpushed
  | some c =>
    rw [hfind] at hpushed
    obtain rfl := Except.ok.inj hpushed
    refine ⟨c, rfl, ?_⟩
    rw [← Except.ok.inj hwalk, List.append_nil]

theorem startWalk_sound (hsound : ∀ call, fault call r = none) {head : Oid} {c : Commit}
    (hfind : r.odb.lookup head = some c) (seen : Option Str) (onCreate onPush : Str) :
    (startWalk fault head seen onCreate onPush).run r =
      (.ok ⟨[c], (seen.bind (Git.findCommit r)).toList⟩, r) := by
  simp only [startWalk, pushOid, run_bind, run_mapErr, packCall_sound (hsound _), lookupOr, hfind,
    Except.mapError, Except.map, hideSeen_run, List.append_nil]

theorem packWalk_ok {git : Git} {oid : Oid} {h : Commit} (hfind : r.odb.lookup oid = some h)
    {seen : Option Str} {bytes : Bytes}
    (hrun : (packWalk fault git oid seen).run r = (.ok bytes, t)) :
    t = r ∧ fault .next r = none ∧ bytes = git.pack (Git.walk r h seen) ∧
      ∀ c ∈ Git.walk r h seen, c ∈ r.odb.commits := by
  obtain ⟨walk, s₁, hwalk, hbuilding⟩ := run_bind_ok hrun
  obtain ⟨rfl, h', hfind', rfl⟩ := startWalk_ok hwalk
  obtain rfl := Option.some.inj (hfind.symm.trans hfind')
  obtain ⟨_, s₂, hbuilder, hinserting⟩ := run_bind_ok hbuilding
  obtain ⟨rfl, -⟩ := packCall_ok (run_mapErr_ok hbuilder)
  obtain ⟨builder, s₃, hinsert, hwriting⟩ := run_bind_ok hinserting
  obtain ⟨rfl, hinserted⟩ := packCall_ok (run_mapErr_ok hinsert)
  obtain ⟨rfl, hwritten⟩ := packCall_ok (run_mapErr_ok hwriting)
  rw [commits_from] at hinserted
  cases hnext : fault .next t with
  | some e =>
    rw [hnext] at hinserted
    cases hinserted
  | none =>
    simp only [hnext] at hinserted
    split_ifs at hinserted with hmem
    rw [← Except.ok.inj hwritten, ← Except.ok.inj hinserted]
    exact ⟨rfl, rfl, rfl, hmem⟩

/-- **The pack that comes out** is that of the commits which the head reaches, and the claim does
not. -/
theorem buildPackCalls_ok {git : Git} {localHead seen : Option Str} {bytes : Bytes}
    (hrun : (buildPackCalls fault git localHead seen).run r = (.ok bytes, t)) :
    t = r ∧ (localHead = none ∧ bytes = [] ∨
      ∃ head h, localHead = some head ∧ Git.findCommit r head = some h ∧
        bytes = git.packOf (Git.walk r h seen) ∧ ∀ c ∈ Git.walk r h seen, c ∈ r.odb.commits) := by
  cases localHead with
  | none =>
    obtain ⟨hbytes, rfl⟩ := Prod.mk.inj hrun
    exact ⟨rfl, Or.inl ⟨rfl, (Except.ok.inj hbytes).symm⟩⟩
  | some head =>
    obtain ⟨_, s₁, hopen, hparsing⟩ := run_bind_ok hrun
    obtain ⟨rfl, -⟩ := packCall_ok (run_mapErr_ok hopen)
    cases hoid : Oid.fromStr head with
    | none =>
      simp only [hoid] at hparsing
      cases hparsing
    | some oid =>
      simp only [hoid] at hparsing
      obtain ⟨walk, s₂, hwalk, hpeeking⟩ := run_bind_ok hparsing
      obtain ⟨rfl, h, hfind, rfl⟩ := startWalk_ok hwalk
      have hhead : Git.findCommit s₂ head = some h := by
        rw [Git.findCommit, hoid, Option.bind_some, hfind]
      obtain ⟨peeked, s₃, hpeek, hending⟩ := run_bind_ok hpeeking
      rw [run_attempt, nextCommit, packCall, run_call, commits_from] at hpeek
      cases hnext : fault .next s₂ with
      | some e =>
        rw [hnext] at hpeek
        obtain ⟨hpeeked, rfl⟩ := Prod.mk.inj hpeek
        obtain rfl := Except.ok.inj hpeeked
        have hnone := (packWalk_ok hfind hending).2.1
        rw [hnext] at hnone
        cases hnone
      | none =>
        rw [hnext] at hpeek
        obtain ⟨hpeeked, rfl⟩ := Prod.mk.inj hpeek
        obtain rfl := Except.ok.inj hpeeked
        by_cases hw : Git.walk s₂ h seen = []
        · have hpeeked : (Merkle.range (seen.bind (Git.findCommit s₂)) h).head? = none := by
            rw [List.head?_eq_none_iff]
            exact hw
          rw [hpeeked] at hending
          obtain ⟨hbytes, rfl⟩ := Prod.mk.inj hending
          refine ⟨rfl, Or.inr ⟨head, h, rfl, hhead, ?_, by simp [hw]⟩⟩
          rw [Git.packOf, if_pos hw, Except.ok.inj hbytes]
        · obtain ⟨c, hc⟩ : ∃ c, (Merkle.range (seen.bind (Git.findCommit s₂)) h).head? = some c :=
            Option.ne_none_iff_exists'.1 fun hnone => hw (List.head?_eq_none_iff.1 hnone)
          rw [hc] at hending
          obtain ⟨rfl, -, rfl, hmem⟩ := packWalk_ok hfind hending
          refine ⟨rfl, Or.inr ⟨head, h, rfl, hhead, ?_, hmem⟩⟩
          rw [Git.packOf, if_neg hw]

/-- It is the one that `buildPack` asks git for, if git does not fail. -/
theorem buildPack_of_calls {git : Git} {localHead seen : Option Str} {bytes : Bytes}
    (hgit : ∀ cmd, git.fault cmd r = none)
    (hrun : (buildPackCalls fault git localHead seen).run r = (.ok bytes, t)) :
    (buildPack git localHead seen).run r = (.ok bytes, r) := by
  obtain ⟨-, ⟨rfl, rfl⟩ | ⟨head, h, rfl, hfind, rfl, -⟩⟩ := buildPackCalls_ok hrun
  · rfl
  · obtain ⟨oid, hoid, -⟩ := Option.bind_eq_some_iff.1 hfind
    simp only [buildPack, Git.openRepo, Git.packObjects, Git.query, run_bind, run_mapErr, run_call,
      hgit, Except.mapError, hoid, hfind]
    rfl

theorem packWalk_sound {git : Git} (hsound : ∀ call, fault call r = none) {oid : Oid} {h : Commit}
    (hfind : r.odb.lookup oid = some h) {seen : Option Str}
    (hmem : ∀ c ∈ Git.walk r h seen, c ∈ r.odb.commits) :
    (packWalk fault git oid seen).run r = (.ok (git.pack (Git.walk r h seen)), r) := by
  have hinsert : (insertWalk fault ⟨[h], (seen.bind (Git.findCommit r)).toList⟩).run r =
      (.ok (Git.walk r h seen), r) := by
    rw [insertWalk, packCall_sound (hsound _), hsound, commits_from]
    exact Prod.ext (if_pos hmem) rfl
  simp only [packWalk, run_bind, run_mapErr, startWalk_sound hsound hfind,
    packCall_sound (hsound _), hinsert, writeBuf, Except.mapError]

/-- Without faults, a pack comes out, where the history of the head is there. -/
theorem buildPackCalls_sound {git : Git} (hsound : ∀ call, fault call r = none)
    {localHead : Option Str} (seen : Option Str)
    (hhead : ∀ head ∈ localHead, ∃ h, Git.findCommit r head = some h ∧
      ∀ c ∈ h.history, c ∈ r.odb.commits) :
    ∃ bytes, (buildPackCalls fault git localHead seen).run r = (.ok bytes, r) := by
  cases localHead with
  | none => exact ⟨[], rfl⟩
  | some head =>
    obtain ⟨h, hfind, hhistory⟩ := hhead head rfl
    obtain ⟨oid, hoid, hlookup⟩ := Option.bind_eq_some_iff.1 hfind
    have hmem : ∀ c ∈ Git.walk r h seen, c ∈ r.odb.commits := fun c hc =>
      hhistory c (Merkle.mem_range.1 hc).1
    simp only [buildPackCalls, run_bind, run_mapErr, packCall_sound (hsound _), hoid,
      startWalk_sound hsound hlookup, nextCommit, run_attempt, Except.mapError]
    split
    · exact ⟨[], rfl⟩
    · exact ⟨_, packWalk_sound hsound hlookup hmem⟩

end Outcome

/-! ## Exactly what is missing -/

/-- The packs of what lies between two commits of the repository open again. -/
def PacksOpen (git : Git) (r : Repo) : Prop :=
  ∀ head ∈ r.odb.commits, ∀ since ∈ none :: r.odb.commits.map some,
    Merkle.range since head ≠ [] → git.pack (Merkle.range since head) ≠ [] ∧
      git.unpack (git.pack (Merkle.range since head)) = some (Merkle.range since head)

theorem findCommit_mem {r : Repo} {s : Str} {c : Commit} (h : Git.findCommit r s = some c) :
    c ∈ r.odb.commits := by
  obtain ⟨oid, -, hc⟩ := Option.bind_eq_some_iff.1 h
  exact (Odb.mem_of_lookup hc).1

/-- A name stands for its commit wherever that is. -/
theorem findCommit_eq_some {r r' : Repo} {s : Str} {c : Commit} (h : Git.findCommit r s = some c)
    (hc : c ∈ r'.odb.commits) : Git.findCommit r' s = some c := by
  obtain ⟨oid, hoid, hfind⟩ := Option.bind_eq_some_iff.1 h
  rw [Git.findCommit, hoid, Option.bind_some, Odb.lookup_eq_some]
  exact ⟨hc, (Odb.mem_of_lookup hfind).2⟩

/-- Ingesting adds the commits of the pack. -/
theorem Ingested.mem_commits {git : Git} {bytes : Bytes} {r r' : Repo} (h : Ingested git bytes r r')
    (c : Commit) : c ∈ r'.odb.commits ↔ c ∈ git.packed bytes ∨ c ∈ r.odb.commits := by
  rcases h with ⟨rfl, rfl⟩ | ⟨hne, hstore⟩
  · simp [Git.packed]
  · obtain ⟨cs, hcs, hstored⟩ := Option.bind_eq_some_iff.1 hstore
    rw [Git.packed, if_neg hne, hcs, Option.getD_some]
    exact (Repo.store_eq_some hstored).1 c

/-- The pack of a walk opens to what the walk met. -/
theorem packed_packOf {git : Git} {r : Repo} (hpacks : PacksOpen git r) {h : Commit}
    (hh : h ∈ r.odb.commits) (seen : Option Str) :
    git.packed (git.packOf (Git.walk r h seen)) = Git.walk r h seen ∧
      (git.packOf (Git.walk r h seen) = [] ↔ Git.walk r h seen = []) := by
  have hseen : seen.bind (Git.findCommit r) ∈ none :: r.odb.commits.map some := by
    cases hfind : seen.bind (Git.findCommit r) with
    | none => exact List.mem_cons_self
    | some c =>
      obtain ⟨s, -, hs⟩ := Option.bind_eq_some_iff.1 hfind
      exact List.mem_cons_of_mem _ (List.mem_map_of_mem (findCommit_mem hs))
  by_cases hw : Git.walk r h seen = []
  · simp [Git.packed, Git.packOf, hw]
  · obtain ⟨hne, hopens⟩ : git.pack (Git.walk r h seen) ≠ [] ∧
        git.unpack (git.pack (Git.walk r h seen)) = some (Git.walk r h seen) :=
      hpacks h hh _ hseen hw
    rw [Git.packOf, if_neg hw, Git.packed, if_neg hne]
    exact ⟨congrArg (·.getD []) hopens, iff_of_false hne hw⟩

/-- **Packs have exactly what is missing.** What `build_pack` packs are the commits that the local
head reaches, and the claim of the peer does not, if it names a commit; the bytes are empty where
there are none. A receiver for whom the claim is true has the whole history of the head, under its
name, after ingesting them. Without faults there is a pack, for every head with its history. -/
theorem build_pack_exact {git : Git} {r : Repo} (hpacks : PacksOpen git r)
    (fault : PackCall → Repo → Option Str) (localHead seen : Option Str) :
    (∀ bytes t, (buildPackCalls fault git localHead seen).run r = (.ok bytes, t) →
      (∀ c, c ∈ git.packed bytes ↔ c ∈ reachable (localHead.bind (Git.findCommit r)) ∧
        c ∉ reachable (seen.bind (Git.findCommit r))) ∧
      (bytes = [] ↔ ∀ c ∈ reachable (localHead.bind (Git.findCommit r)),
        c ∈ reachable (seen.bind (Git.findCommit r))) ∧
      ∀ r₂ r₃, (∀ c ∈ reachable (seen.bind (Git.findCommit r)), c ∈ r₂.odb.commits) →
        (ingestUnlessEmpty git bytes).run r₂ = (.ok (), r₃) →
          localHead.bind (Git.findCommit r₃) = localHead.bind (Git.findCommit r) ∧
            ∀ c ∈ reachable (localHead.bind (Git.findCommit r₃)), c ∈ r₃.odb.commits) ∧
    ((∀ call, fault call r = none) →
      (∀ head ∈ localHead, ∃ h, Git.findCommit r head = some h ∧
        ∀ c ∈ h.history, c ∈ r.odb.commits) →
      ∃ bytes, (buildPackCalls fault git localHead seen).run r = (.ok bytes, r)) := by
  refine ⟨fun bytes t hrun => ?_, fun hsound hhead => buildPackCalls_sound hsound seen hhead⟩
  obtain ⟨-, ⟨rfl, rfl⟩ | ⟨head, h, rfl, hfind, rfl, -⟩⟩ := buildPackCalls_ok hrun
  · refine ⟨by simp [Git.packed], by simp, fun r₂ r₃ _ _ => ⟨rfl, by simp⟩⟩
  · obtain ⟨hpacked, hempty⟩ := packed_packOf hpacks (findCommit_mem hfind) seen
    have hmem : ∀ c, c ∈ Git.walk r h seen ↔
        c ∈ h.history ∧ c ∉ reachable (seen.bind (Git.findCommit r)) := fun c => Merkle.mem_range
    simp only [Option.bind_some, hfind, reachable_some]
    refine ⟨fun c => by rw [hpacked, hmem], ?_, fun r₂ r₃ hholds hingest => ?_⟩
    · rw [hempty, List.eq_nil_iff_forall_not_mem]
      simp only [hmem, not_and, not_not]
    · rcases ingestUnlessEmpty_alone git (git.packOf (Git.walk r h seen)) r₂ with
        ⟨-, r', hrun', hin⟩ | ⟨-, e, hfail⟩
      swap
      · rw [hfail] at hingest
        cases hingest
      obtain rfl : r' = r₃ := (Prod.mk.inj (hrun'.symm.trans hingest)).2
      -- a commit of the history was sent, or the claim reaches it
      have hall : ∀ c ∈ h.history, c ∈ r'.odb.commits := by
        intro c hc
        rw [hin.mem_commits, hpacked, hmem]
        by_cases hseen : c ∈ reachable (seen.bind (Git.findCommit r))
        · exact Or.inr (hholds c hseen)
        · exact Or.inl ⟨hc, hseen⟩
      rw [findCommit_eq_some hfind (hall h (Merkle.mem_history_self h))]
      exact ⟨rfl, hall⟩

/-! ## A history of two commits -/

def firstCommit : Commit := commitOf 1 [("a.gpg".toList, "a".toList)] []

def secondCommit : Commit := commitOf 2 [("a.gpg".toList, "a".toList)] [firstCommit]

def twoCommits : Repo := repoAt secondCommit [firstCommit, secondCommit] (by decide +kernel) (by simp)

/-- The packs of both commits, and of either. -/
def twoPacks : Git :=
  plainGit [([1], [secondCommit, firstCommit]), ([2], [firstCommit]), ([3], [secondCommit])]

theorem twoPacks_open : PacksOpen twoPacks twoCommits := by
  unfold PacksOpen
  decide +kernel

/-- A peer that has the first commit gets the second, and then has both. -/
theorem build_pack_exact_two :
    (∀ c, c ∈ twoPacks.packed [3] ↔ c ∈ reachable (some secondCommit) ∧
        c ∉ reachable (some firstCommit)) ∧
      ∀ r₂ r₃, (∀ c ∈ reachable (some firstCommit), c ∈ r₂.odb.commits) →
        (ingestUnlessEmpty twoPacks [3]).run r₂ = (.ok (), r₃) →
          ∀ c ∈ reachable (some secondCommit), c ∈ r₃.odb.commits := by
  have hhead : Git.findCommit twoCommits secondCommit.sha.hex = some secondCommit := by
    decide +kernel
  have hseen : Git.findCommit twoCommits firstCommit.sha.hex = some firstCommit := by
    decide +kernel
  have hrun : ((buildPackCalls (fun _ _ => none) twoPacks (some secondCommit.sha.hex)
      (some firstCommit.sha.hex)).run twoCommits).1 = .ok [3] := by
    decide +kernel
  obtain ⟨hexact, -, hcomplete⟩ := (build_pack_exact twoPacks_open (fun _ _ => none)
    (some secondCommit.sha.hex) (some firstCommit.sha.hex)).1 [3] _ (Prod.ext hrun rfl)
  rw [Option.bind_some, Option.bind_some, hhead, hseen] at hexact
  refine ⟨hexact, fun r₂ r₃ hholds hingest => ?_⟩
  rw [Option.bind_some, Option.bind_some, hhead, hseen] at hcomplete
  obtain ⟨hname, hall⟩ := hcomplete r₂ r₃ hholds hingest
  rwa [hname] at hall

end Bypass
