import Bypass.Sync.Undisturbed

/-!
# The peer's head, on the command line

A peer says where its branch is with a string, which the initiator of a sync hands to git: to
`git log` and `git show` for the audit, and then to `git reset` or `git rebase`. It is read as an
object id in between, and only then.

* `Command.argv`: the command lines of a sync.
* `steps_audit_speaks`, `steps_reconcile_speaks`: no other word of the peer is on them.
* **`peer_words_iff`**: when all of them are full object ids.
-/

namespace Bypass

open Prog

/-! ## Command lines -/

/-- The arguments of git, after `-C root`; calls of the library have none. -/
def Command.argv : Command → List Str
  | .indexPack _ => ["index-pack".toList, "--stdin".toList, "--fix-thin".toList]
  | .log since tip =>
    ["log".toList, "--name-only".toList, "--pretty=format:".toList,
      since.elim tip fun s => s ++ "..".toList ++ tip]
  | .show_ rev path => ["show".toList, rev ++ ':' :: utf8Lossy path]
  | .resetHard target => ["reset".toList, "--hard".toList, target]
  | .rebase onto => ["rebase".toList, onto]
  | .rebaseAbort => ["rebase".toList, "--abort".toList]
  | _ => []

/-- The word of the peer on the command line, in a sync. -/
def Command.peerWord : Command → Option Str
  | .log _ tip => some tip
  | .show_ rev _ => some rev
  | .resetHard target => some target
  | .rebase onto => some onto
  | _ => none

theorem Command.peerWord_argv {cmd : Command} {word : Str} (h : cmd.peerWord = some word) :
    ∃ arg ∈ cmd.argv, word <:+: arg := by
  cases cmd with
  | log since tip =>
    obtain rfl := Option.some.inj h
    refine ⟨_, List.mem_cons_of_mem _ (List.mem_cons_of_mem _ (List.mem_cons_of_mem _
      List.mem_cons_self)), ?_⟩
    cases since with
    | none => exact List.infix_rfl
    | some s => exact (List.suffix_append _ _).isInfix
  | show_ rev path =>
    obtain rfl := Option.some.inj h
    exact ⟨_, List.mem_cons_of_mem _ List.mem_cons_self, (List.prefix_append _ _).isInfix⟩
  | resetHard target =>
    obtain rfl := Option.some.inj h
    exact ⟨_, List.mem_cons_of_mem _ (List.mem_cons_of_mem _ List.mem_cons_self), List.infix_rfl⟩
  | rebase onto =>
    obtain rfl := Option.some.inj h
    exact ⟨_, List.mem_cons_of_mem _ List.mem_cons_self, List.infix_rfl⟩
  | _ => cases h

/-- A full object id, its digits in either case. -/
def IsFullHex (s : Str) : Prop := s.length = 40 ∧ s.all (fun c => isHexLower c.toLower) = true

instance (s : Str) : Decidable (IsFullHex s) := inferInstanceAs (Decidable (_ ∧ _))

theorem isFullHex_hex (o : Oid) : IsFullHex o.hex := by
  refine ⟨o.valid.1, List.all_eq_true.2 fun c hc => ?_⟩
  have hlower := List.all_eq_true.1 o.valid.2 c hc
  rw [Oid.toLower_of_isHexLower hlower, hlower]

/-! ## The words of a sync -/

/-- The word of the peer in the command, if there is one, is this. -/
def Speaks (tip : Str) (cmd : Command) (_ _ : Repo) : Prop := ∀ word ∈ cmd.peerWord, word = tip

section Words

variable {git : Git} {tip : Str}

theorem steps_process_of {P : Command → Prop} {α : Type} {cmd : Command} {left : Repo → Repo}
    {f : Repo → Except Str α × Repo} (h : P cmd) :
    Steps (fun cmd _ _ => P cmd) (git.process cmd left f) :=
  steps_call fun _ => h

theorem steps_query_of {P : Command → Prop} {α : Type} {cmd : Command} {f : Repo → Except Str α}
    (h : P cmd) : Steps (fun cmd _ _ => P cmd) (git.query cmd f) :=
  steps_call fun _ => h

/-- A command whose word is the tip. -/
theorem steps_process_speaks {α : Type} {cmd : Command} {left : Repo → Repo}
    {f : Repo → Except Str α × Repo} (h : cmd.peerWord = some tip) :
    Steps (Speaks tip) (git.process cmd left f) :=
  steps_process_of (P := fun cmd => ∀ word ∈ cmd.peerWord, word = tip) fun word hword => by
    rw [h] at hword
    exact (Option.some.inj hword).symm

theorem steps_showAll_speaks (tip : Str) (ps : List Bytes) :
    Steps (Speaks tip) (showAll git tip ps) := by
  induction ps with
  | nil => exact steps_pure _
  | cons p ps ih =>
    have hshow : Steps (Speaks tip) (git.showFile tip p) := steps_process_speaks rfl
    refine hshow.mapErr.bind fun r => ?_
    cases r with
    | error e => exact ih
    | ok content => exact ih.bind fun rest => steps_pure _

theorem steps_audit_speaks (localHead : Option Str) (tip : Str) :
    Steps (Speaks tip) (auditIncoming git localHead tip) := by
  have hlog : Steps (Speaks tip) (git.log localHead tip) := steps_process_speaks rfl
  refine hlog.mapErr.bind fun r => ?_
  cases r with
  | error e => exact steps_pure _
  | ok out => exact (steps_showAll_speaks _ _).bind fun pairs => steps_pure _

theorem steps_fastForward_speaks (tip : Str) : Steps (Speaks tip) (fastForward git tip) := by
  have hreset : Steps (Speaks tip) (git.resetHard tip) := steps_process_speaks rfl
  refine hreset.mapErr.bind fun r => ?_
  cases r with
  | error e => exact steps_throw _
  | ok u => exact steps_pure _

theorem steps_rebaseOnto_speaks (tip : Str) : Steps (Speaks tip) (rebaseOnto git tip) := by
  have hrebase : Steps (Speaks tip) (git.rebase tip) := steps_process_speaks rfl
  have habort : Steps (Speaks tip) git.rebaseAbort :=
    steps_process_of (P := fun cmd => ∀ word ∈ cmd.peerWord, word = tip) fun _ hword => nomatch hword
  refine hrebase.mapErr.bind fun r => ?_
  cases r with
  | error e => exact habort.ignore.bind fun _ => steps_throw _
  | ok u => exact steps_pure _

theorem steps_reconcile_speaks (localHead : Option Str) (tip localId remoteId : Str) :
    Steps (Speaks tip) (reconcile git localHead tip localId remoteId) := by
  have hquery : ∀ {α : Type} {cmd : Command} (f : Repo → Except Str α), cmd.peerWord = none →
      Steps (Speaks tip) (git.query cmd f) := fun f hcmd =>
    steps_query_of (P := fun cmd => ∀ word ∈ cmd.peerWord, word = tip) fun word hword => by
      rw [hcmd] at hword
      cases hword
  refine (hquery _ rfl).mapErr.bind fun _ => ?_
  split
  · exact steps_throw _
  split
  · exact (steps_fastForward_speaks _).bind fun _ => steps_pure _
  split
  · exact steps_throw _
  split
  · exact steps_pure _
  refine (hquery _ rfl).mapErr.bind fun ahead => ?_
  cases ahead with
  | true => exact (steps_fastForward_speaks _).bind fun _ => steps_pure _
  | false =>
    refine (hquery _ rfl).mapErr.bind fun behind => ?_
    cases behind with
    | true => exact steps_pure _
    | false =>
      by_cases hlt : compare localId remoteId = .lt
      · simp only [if_pos hlt]
        exact (steps_rebaseOnto_speaks _).bind fun _ => steps_pure _
      · simp only [if_neg hlt]
        exact steps_pure _

/-- Ingesting a pack says nothing of the peer's head. -/
theorem steps_ingest_silent (bytes : Bytes) :
    Steps (fun cmd _ _ => cmd.peerWord = none) (ingestUnlessEmpty git bytes) := by
  unfold ingestUnlessEmpty
  split_ifs
  · exact steps_pure _
  · have hpack : Steps (fun cmd _ _ => cmd.peerWord = none) (git.indexPack bytes) :=
      steps_process_of (P := fun cmd => cmd.peerWord = none) rfl
    refine hpack.mapErr.bind fun r => ?_
    cases r with
    | error e => exact steps_throw _
    | ok u => exact steps_pure _

end Words

/-! ## When all words are object ids -/

section Main

variable {git : Git} {F : Type} {json : Json F} {request : F → Except Str F}
  {localId remoteId : Str} {r : Repo}

/-- The answer to a sync started in `r` is a pack with this tip, and git takes the pack. -/
def PeerDelivers (git : Git) (json : Json F) (request : F → Except Str F) (r : Repo) (tip : Str)
    (bytes : Bytes) : Prop :=
  Fetched git bytes r ∧ askPeer json request (headText r) = .ok (some tip, bytes) ∧
    bytes.length ≤ maxPackBytes ∧ ∃ r₁, Ingested git bytes r r₁

/-- The head is read first. -/
theorem headSha_ok {head : Option Str} {t : Repo}
    (h : (git.headSha.mapErr SyncError.headLookup).run r = (.ok head, t)) :
    git.fault .headSha r = none ∧ head = headText r ∧ t = r := by
  have hrun := run_mapErr_ok h
  rw [Git.headSha, headText_def] at hrun
  rcases query_alone git .headSha (fun r => .ok (headText r)) r with ⟨hf, hq⟩ | ⟨-, e, hq⟩
  · rw [hq] at hrun
    obtain ⟨hhead, rfl⟩ := Prod.mk.inj hrun
    exact ⟨hf, (Except.ok.inj hhead).symm, rfl⟩
  · rw [hq] at hrun
    cases hrun

/-- A word of the peer is on a command line only once its pack has been stored; and then it is its
tip. -/
theorem peerWord_delivers {call : Step Command Repo}
    (hcall : call ∈ (syncWithPeer git json request localId remoteId).trace r) {word : Str}
    (hword : call.ev.peerWord = some word) :
    ∃ bytes, PeerDelivers git json request r word bytes := by
  have hsilent : ∀ {α : Type} {p : SyncM α} {s : Repo},
      Steps (fun cmd _ _ => cmd.peerWord = none) p → call ∉ p.trace s := fun hp hmem => by
    have hnone := hp.trace _ call hmem
    rw [hword] at hnone
    cases hnone
  have hhead : Steps (fun cmd _ _ => cmd.peerWord = none) git.headSha :=
    steps_query_of (P := fun cmd => cmd.peerWord = none) rfl
  rcases mem_trace_bind.1 hcall with hcall | ⟨head, t, hrun, hcall⟩
  · exact absurd hcall (hsilent hhead.mapErr)
  obtain ⟨hfault, rfl, rfl⟩ := headSha_ok hrun
  rcases mem_trace_bind.1 hcall with hcall | ⟨⟨peerHead, bytes⟩, s, hdone, hcall⟩
  · cases hcall
  obtain ⟨hask, rfl⟩ := Prod.mk.inj hdone
  change call ∈ (receivePack git (headText t) peerHead bytes localId remoteId).trace t at hcall
  unfold receivePack at hcall
  split_ifs at hcall with hsize
  · cases hcall
  cases peerHead with
  | none => cases hcall
  | some tip =>
    simp only at hcall
    split_ifs at hcall with hold
    · cases hcall
    rcases mem_trace_bind.1 hcall with hcall | ⟨_, s₁, hingest, hcall⟩
    · exact absurd hcall (hsilent (steps_ingest_silent bytes))
    have hspeaks : Steps (Speaks tip) (do
        let issues ← auditIncoming git (headText t) tip
        if issues = [] then do
          let action ← reconcile git (headText t) tip localId remoteId
          pure (⟨action, some tip⟩ : SyncReport)
        else pure ⟨.rejectedLeak issues, some tip⟩) := by
      refine (steps_audit_speaks _ _).bind fun issues => ?_
      split_ifs
      · exact (steps_reconcile_speaks _ _ _ _).bind fun _ => steps_pure _
      · exact steps_pure _
    obtain rfl : word = tip := hspeaks.trace s₁ call hcall word hword
    rcases ingestUnlessEmpty_alone git bytes t with ⟨hpack, t₁, -, hin⟩ | ⟨-, e, hfail⟩
    · exact ⟨bytes, ⟨hfault, hpack⟩, hask, not_lt.1 hsize, t₁, hin⟩
    · rw [hfail] at hingest
      cases hingest

/-- Once the pack has been stored, the tip is on the command line of `git log`, unless it is the
local head. -/
theorem log_mem_trace (localId remoteId : Str) {tip : Str} {bytes : Bytes}
    (h : PeerDelivers git json request r tip bytes)
    (hnew : ¬ (bytes = [] ∧ headText r = some tip)) :
    ∃ call ∈ (syncWithPeer git json request localId remoteId).trace r,
      call.ev = .log (headText r) tip := by
  obtain ⟨hfetched, hask, hsize, r₁, hin⟩ := h
  have hhead : (git.headSha.mapErr SyncError.headLookup).run r = (.ok (headText r), r) := by
    rw [run_mapErr, Git.headSha, headText_def, Git.query, run_call, hfetched.1]
    rfl
  have hlog : ∃ call ∈ (auditIncoming git (headText r) tip).trace r₁,
      call.ev = .log (headText r) tip :=
    ⟨_, mem_trace_bind.2 (Or.inl (by rw [trace_mapErr]; exact List.mem_singleton_self _)), rfl⟩
  obtain ⟨call, hcall, hev⟩ := hlog
  refine ⟨call, ?_, hev⟩
  refine mem_trace_bind.2 (Or.inr ⟨_, _, hhead, ?_⟩)
  refine mem_trace_bind.2 (Or.inr ⟨(some tip, bytes), r, Prod.ext hask rfl, ?_⟩)
  change call ∈ (receivePack git (headText r) (some tip) bytes localId remoteId).trace r
  unfold receivePack
  simp only [if_neg (not_lt.2 hsize), if_neg hnew]
  refine mem_trace_bind.2 (Or.inr ⟨(), r₁, ingestUnlessEmpty_run hfetched hin, ?_⟩)
  exact mem_trace_bind.2 (Or.inl hcall)

/-- **When the peer's words are object ids**: where its tip is one, unless its pack is not
stored. -/
theorem peer_words_iff (git : Git) (json : Json F) (request : F → Except Str F)
    (localId remoteId : Str) (r : Repo) :
    (∀ call ∈ (syncWithPeer git json request localId remoteId).trace r,
        ∀ word, call.ev.peerWord = some word → IsFullHex word) ↔
      ∀ tip bytes, PeerDelivers git json request r tip bytes → IsFullHex tip := by
  constructor
  · intro hwords tip bytes h
    by_cases hold : bytes = [] ∧ headText r = some tip
    · obtain ⟨c, -, rfl⟩ := Option.map_eq_some_iff.1 hold.2
      exact isFullHex_hex c.sha
    · obtain ⟨call, hcall, hev⟩ := log_mem_trace localId remoteId h hold
      exact hwords call hcall tip (by rw [hev]; rfl)
  · intro htips call hcall word hword
    obtain ⟨bytes, h⟩ := peerWord_delivers hcall hword
    exact htips word bytes h

end Main

/-! ## A tip that is an option -/

theorem noCommits_head : ∀ c ∈ (none : Option Commit),
    c ∈ (⟨[], List.nodup_nil⟩ : Odb).commits := by simp

theorem noCommits_orig : ∀ c ∈ RepositoryState.clean.orig,
    c ∈ (⟨[], List.nodup_nil⟩ : Odb).commits := by simp [RepositoryState.orig]

/-- A repository without commits. -/
def noCommits : Repo where
  odb := ⟨[], List.nodup_nil⟩
  head := none
  head_mem := noCommits_head
  upstream := none
  index := ∅
  worktree := ∅
  state := .clean
  orig_mem := noCommits_orig

/-- The answer that the branch is at an option of `git log`, and that there is nothing to fetch. -/
def optionRequest (_ : WireMsg) : Except Str WireMsg := .ok (packMsg (some "--output=x".toList) [])

def optionSync : SyncM SyncReport :=
  syncWithPeer (plainGit []) plainJson optionRequest "A".toList "B".toList

/-- **An option of the peer is on the command line.** -/
theorem option_spoken :
    (optionSync.trace noCommits).map (fun call => call.ev.argv) =
        [[], ["log".toList, "--name-only".toList, "--pretty=format:".toList, "--output=x".toList],
          []] ∧
      ¬ ∀ call ∈ optionSync.trace noCommits, ∀ word, call.ev.peerWord = some word →
        IsFullHex word := by
  refine ⟨by decide +kernel, fun hwords => ?_⟩
  have hlog : ∃ call ∈ optionSync.trace noCommits, call.ev.peerWord = some "--output=x".toList := by
    decide +kernel
  obtain ⟨call, hcall, hword⟩ := hlog
  exact absurd (hwords call hcall _ hword) (by decide)

end Bypass
