import Bypass.Sync.Steps

/-!
# A sync run alone

What a sync does to a repository that no other process touches, outcome by outcome: `Reconciled` is
the relation between the state a reconciliation starts in and what it returns and leaves, and
`Synced` that of a whole sync. Everything about single syncs follows from these two.

* `reconcile_alone`, `syncWithPeer_alone`: a run is one of the outcomes.
-/

namespace Bypass

open Prog

variable (git : Git)

/-! ## Single calls -/

theorem query_alone {α : Type} (cmd : Command) (f : Repo → Except Str α) (r : Repo) :
    git.fault cmd r = none ∧ (git.query cmd f).run r = (f r, r) ∨
      (git.fault cmd r).isSome = true ∧ ∃ e, (git.query cmd f).run r = (.error e, r) := by
  unfold Git.query
  rw [run_call]
  cases git.fault cmd r with
  | none => exact Or.inl ⟨rfl, rfl⟩
  | some fault => cases fault <;> exact Or.inr ⟨rfl, _, rfl⟩

theorem process_alone {α : Type} (cmd : Command) (left : Repo → Repo)
    (f : Repo → Except Str α × Repo) (r : Repo) :
    git.fault cmd r = none ∧ (git.process cmd left f).run r = (.ok (f r).1, (f r).2) ∨
      (∃ e, git.fault cmd r = some (.spawn e) ∧ (git.process cmd left f).run r = (.error e, r)) ∨
      ∃ e, git.fault cmd r = some (.exit e) ∧
        (git.process cmd left f).run r = (.ok (.error e), left r) := by
  unfold Git.process
  rw [run_call]
  cases git.fault cmd r with
  | none => exact Or.inl ⟨rfl, rfl⟩
  | some fault =>
    cases fault with
    | spawn e => exact Or.inr (Or.inl ⟨e, rfl, rfl⟩)
    | exit e => exact Or.inr (Or.inr ⟨e, rfl, rfl⟩)

variable {git} {r : Repo}

theorem query_run {α : Type} {cmd : Command} {f : Repo → Except Str α}
    (hf : git.fault cmd r = none) : (git.query cmd f).run r = (f r, r) := by
  rw [Git.query, run_call, hf]

theorem process_run {α : Type} {cmd : Command} {left : Repo → Repo}
    {f : Repo → Except Str α × Repo} (hf : git.fault cmd r = none) :
    (git.process cmd left f).run r = (.ok (f r).1, (f r).2) := by
  rw [Git.process, run_call, hf]

/-! ## Reconciling -/

/-- Some command or library call fails on the repository. -/
def SomeFault (git : Git) (r : Repo) : Prop := ∃ cmd, (git.fault cmd r).isSome = true

/-- The two heads of a reconciliation are ids of commits that are there. -/
def Heads (r : Repo) (localHead tip : Str) (l p : Commit) : Prop :=
  ∃ lo po, Oid.fromStr localHead = some lo ∧ Oid.fromStr tip = some po ∧
    r.odb.lookup lo = some l ∧ r.odb.lookup po = some p

/-- Neither commit is in the history of the other. -/
def Diverged (l p : Commit) : Prop := l ∉ p.history ∧ p ∉ l.history

/-- The library calls that tell how two heads relate do not fail. -/
def Compared (git : Git) (r : Repo) (localHead tip : Str) : Prop :=
  git.fault .openRepo r = none ∧
    ∀ lo po, Oid.fromStr localHead = some lo → Oid.fromStr tip = some po →
      git.fault (.descendantOf po lo) r = none ∧ git.fault (.descendantOf lo po) r = none

/-- The repository after a reset that failed. -/
def ResetFailed (git : Git) (tip : Str) (r r' : Repo) : Prop :=
  r' = r ∨ ∃ e, git.fault (.resetHard tip) r = some (.exit e) ∧
    r' = git.broken (.resetHard tip) r

/-- The repository after a rebase that failed, and was not aborted yet. -/
def RebaseFailed (git : Git) (tip : Str) (r r' : Repo) : Prop :=
  (git.fault (.rebase tip) r = none ∧ ∃ e, git.rebaseTo tip r = (.error e, r')) ∨
    ∃ e, git.fault (.rebase tip) r = some (.exit e) ∧ r' = git.broken (.rebase tip) r

/-- How a reconciliation run alone on `r` can end. -/
inductive Reconciled (git : Git) (localHead : Option Str) (tip localId remoteId : Str) (r : Repo) :
    Except SyncError SyncAction → Repo → Prop
  /-- It failed before it moved anything: a call did, or the heads are not known. -/
  | failed {e} : SomeFault git r ∨ Oid.fromStr tip = none ∨
      (∃ h, localHead = some h ∧ ¬ ∃ l p, Heads r h tip l p) →
      Reconciled git localHead tip localId remoteId r (.error e) r
  /-- There was no local head: it took the peer's. -/
  | adopted {r'} : localHead = none → git.resetTo tip r = (.ok (), r') →
      Reconciled git localHead tip localId remoteId r (.ok (.fastForwarded [] tip)) r'
  /-- The heads are the same. -/
  | same {h o} : localHead = some h → Oid.fromStr h = some o → Oid.fromStr tip = some o →
      Reconciled git localHead tip localId remoteId r (.ok .upToDate) r
  /-- The peer is ahead. -/
  | ahead {h l p r'} : localHead = some h → Heads r h tip l p → l ≠ p → l ∈ p.history →
      git.resetTo tip r = (.ok (), r') →
      Reconciled git localHead tip localId remoteId r
        (.ok (.fastForwarded l.sha.hex p.sha.hex)) r'
  /-- The peer is behind. -/
  | behind {h l p} : localHead = some h → Heads r h tip l p → l ≠ p → l ∉ p.history →
      p ∈ l.history → Reconciled git localHead tip localId remoteId r (.ok .peerBehind) r
  /-- The heads diverged, and this side rebases. -/
  | rebased {h l p r'} : localHead = some h → Heads r h tip l p → Diverged l p →
      compare localId remoteId = .lt → git.rebaseTo tip r = (.ok (), r') →
      Reconciled git localHead tip localId remoteId r (.ok (.rebased tip)) r'
  /-- The heads diverged, and the other side rebases. -/
  | awaits {h l p} : localHead = some h → Heads r h tip l p → Diverged l p →
      compare localId remoteId ≠ .lt →
      Reconciled git localHead tip localId remoteId r (.ok .awaitingPeerRebase) r
  /-- The reset failed. -/
  | resetFailed {e r'} : (localHead = none ∨
      ∃ h l p, localHead = some h ∧ Heads r h tip l p ∧ l ≠ p ∧ l ∈ p.history) →
      SomeFault git r ∨ git.rev r tip = none → ResetFailed git tip r r' →
      Reconciled git localHead tip localId remoteId r (.error e) r'
  /-- The rebase failed, and was aborted. -/
  | rebaseFailed {h l p e r₁} : localHead = some h → Heads r h tip l p → Diverged l p →
      compare localId remoteId = .lt → Compared git r h tip → RebaseFailed git tip r r₁ →
      Reconciled git localHead tip localId remoteId r (.error e) (git.rebaseAbort.run r₁).2

theorem resetTo_ok {target : Str} {r r' : Repo} (h : git.resetTo target r = (.ok (), r')) :
    ∃ c, git.rev r target = some c ∧ r'.head = some c := by
  rw [Git.resetTo] at h
  split at h
  · next c hc =>
    obtain ⟨-, rfl⟩ := Prod.mk.inj h
    exact ⟨c, hc, rfl⟩
  · cases h

theorem resetTo_error {target e : Str} {r r' : Repo}
    (h : git.resetTo target r = (.error e, r')) : git.rev r target = none ∧ r' = r := by
  rw [Git.resetTo] at h
  split at h
  · cases h
  · next hrev =>
    cases h
    exact ⟨hrev, rfl⟩

variable (git)

/-- **A reset run alone.** -/
theorem fastForward_alone (tip : Str) (r : Repo) :
    (∃ r', (fastForward git tip).run r = (.ok (), r') ∧ git.resetTo tip r = (.ok (), r')) ∨
      ∃ e r', (fastForward git tip).run r = (.error e, r') ∧
        (SomeFault git r ∨ git.rev r tip = none) ∧ ResetFailed git tip r r' := by
  unfold fastForward Git.resetHard
  rw [run_bind, run_mapErr]
  rcases process_alone git (.resetHard tip) (git.broken (.resetHard tip)) (git.resetTo tip) r with
    ⟨-, h⟩ | ⟨e, hf, h⟩ | ⟨e, hf, h⟩
  · rw [h]
    rcases hr : git.resetTo tip r with ⟨e | u, r'⟩
    · obtain ⟨hrev, rfl⟩ := resetTo_error hr
      exact Or.inr ⟨_, _, rfl, Or.inr hrev, Or.inl rfl⟩
    · exact Or.inl ⟨r', rfl, rfl⟩
  · rw [h]
    exact Or.inr ⟨_, _, rfl, Or.inl ⟨_, by rw [hf]; rfl⟩, Or.inl rfl⟩
  · rw [h]
    exact Or.inr ⟨_, _, rfl, Or.inl ⟨_, by rw [hf]; rfl⟩, Or.inr ⟨e, hf, rfl⟩⟩

/-- **A rebase run alone.** -/
theorem rebaseOnto_alone (tip : Str) (r : Repo) :
    (∃ r', (rebaseOnto git tip).run r = (.ok (), r') ∧ git.rebaseTo tip r = (.ok (), r')) ∨
      (∃ e, (rebaseOnto git tip).run r = (.error e, r) ∧
        ∃ e', git.fault (.rebase tip) r = some (.spawn e')) ∨
      ∃ e r₁, (rebaseOnto git tip).run r = (.error e, (git.rebaseAbort.run r₁).2) ∧
        RebaseFailed git tip r r₁ := by
  unfold rebaseOnto Git.rebase
  rw [run_bind, run_mapErr]
  rcases process_alone git (.rebase tip) (git.broken (.rebase tip)) (git.rebaseTo tip) r with
    ⟨hf, h⟩ | ⟨e, hf, h⟩ | ⟨e, hf, h⟩
  · rw [h]
    rcases hr : git.rebaseTo tip r with ⟨e | u, r₁⟩
    · refine Or.inr (Or.inr ⟨.rebase tip e, r₁, ?_, Or.inl ⟨hf, e, hr⟩⟩)
      simp [Except.mapError, run_bind, run_ignore]
    · exact Or.inl ⟨r₁, rfl, rfl⟩
  · rw [h]
    exact Or.inr (Or.inl ⟨_, rfl, e, hf⟩)
  · rw [h]
    refine Or.inr (Or.inr ⟨.rebase tip e, _, ?_, Or.inr ⟨e, hf, rfl⟩⟩)
    simp [Except.mapError, run_bind, run_ignore]

theorem openRepo_alone (r : Repo) :
    git.fault .openRepo r = none ∧ git.openRepo.run r = (.ok (), r) ∨
      SomeFault git r ∧ ∃ e, git.openRepo.run r = (.error e, r) := by
  rcases query_alone git .openRepo (fun _ => .ok ()) r with h | ⟨hf, h⟩
  · exact Or.inl h
  · exact Or.inr ⟨⟨_, hf⟩, h⟩

/-- An ancestry test run alone. -/
theorem descendantOf_alone (a b : Oid) (r : Repo) :
    (git.fault (.descendantOf a b) r = none ∧
      ∃ c d, r.odb.lookup a = some c ∧ r.odb.lookup b = some d ∧
        (git.descendantOf a b).run r = (.ok (decide (d ∈ c.history ∧ d ≠ c)), r)) ∨
    (SomeFault git r ∨ r.odb.lookup a = none ∨ r.odb.lookup b = none) ∧
      ∃ e, (git.descendantOf a b).run r = (.error e, r) := by
  unfold Git.descendantOf
  rcases query_alone git (.descendantOf a b) _ r with ⟨hq, h⟩ | ⟨hf, h⟩
  · rw [h]
    cases ha : r.odb.lookup a with
    | none => exact Or.inr ⟨Or.inr (Or.inl rfl), _, rfl⟩
    | some c =>
      cases hb : r.odb.lookup b with
      | none => exact Or.inr ⟨Or.inr (Or.inr rfl), _, rfl⟩
      | some d => exact Or.inl ⟨hq, c, d, rfl, rfl, rfl⟩
  · exact Or.inr ⟨Or.inl ⟨_, hf⟩, h⟩

theorem sha_of_lookup {r : Repo} {o : Oid} {c : Commit} (h : r.odb.lookup o = some c) :
    c.sha = o := (Odb.mem_of_lookup h).2

/-- **A reconciliation run alone ends in one of the outcomes.** -/
theorem reconcile_alone (localHead : Option Str) (tip localId remoteId : Str) (r : Repo) :
    Reconciled git localHead tip localId remoteId r
      ((reconcile git localHead tip localId remoteId).run r).1
      ((reconcile git localHead tip localId remoteId).run r).2 := by
  unfold reconcile
  rw [run_bind, run_mapErr]
  rcases openRepo_alone git r with ⟨hopen, h⟩ | ⟨hf, e, h⟩
  swap
  · rw [h]
    exact .failed (Or.inl hf)
  rw [h]
  cases hpo : Oid.fromStr tip with
  | none => exact .failed (Or.inr (Or.inl hpo))
  | some po =>
    cases localHead with
    | none =>
      simp only [Except.mapError, run_bind]
      rcases fastForward_alone git tip r with ⟨r', h, hreset⟩ | ⟨e, r', h, hf, hreset⟩
      · rw [h]
        exact .adopted rfl hreset
      · rw [h]
        exact .resetFailed (Or.inl rfl) hf hreset
    | some hd =>
      cases hlo : Oid.fromStr hd with
      | none =>
        simp only [Except.mapError, hlo]
        refine .failed (Or.inr (Or.inr ⟨hd, rfl, ?_⟩))
        rintro ⟨l, p, lo, po', h, -⟩
        simp [hlo] at h
      | some lo =>
        simp only [Except.mapError, hlo]
        by_cases heq : lo = po
        · rw [if_pos heq]
          exact .same rfl hlo (heq ▸ hpo)
        rw [if_neg heq, run_bind, run_mapErr]
        rcases descendantOf_alone git po lo r with
          ⟨hq, p, l, hp, hl, h⟩ | ⟨hf, e, h⟩
        swap
        · rw [h]
          refine .failed (hf.imp id fun hnone => Or.inr ⟨hd, rfl, ?_⟩)
          rintro ⟨l, p, lo', po', hlo', hpo', hl, hp⟩
          obtain rfl : lo = lo' := by simpa [hlo] using hlo'
          obtain rfl : po = po' := by simpa [hpo] using hpo'
          rcases hnone with h | h <;> simp_all
        have hheads : Heads r hd tip l p := ⟨lo, po, hlo, hpo, hl, hp⟩
        have hne : l ≠ p := by
          rintro rfl
          exact heq ((sha_of_lookup hl).symm.trans (sha_of_lookup hp))
        rw [h]
        simp only [Except.mapError]
        by_cases hahead : l ∈ p.history
        · rw [if_pos (by simp [hahead, hne]), run_bind]
          rcases fastForward_alone git tip r with ⟨r', h, hreset⟩ | ⟨e, r', h, hf, hreset⟩
          · rw [h, ← sha_of_lookup hl, ← sha_of_lookup hp]
            exact .ahead rfl hheads hne hahead hreset
          · rw [h]
            exact .resetFailed (Or.inr ⟨hd, l, p, rfl, hheads, hne, hahead⟩) hf hreset
        rw [if_neg (by simp [hahead]), run_bind, run_mapErr]
        rcases descendantOf_alone git lo po r with
          ⟨hq', l', p', hl', hp', h⟩ | ⟨hf, e, h⟩
        swap
        · rw [h]
          refine .failed (Or.inl (hf.resolve_right ?_))
          simp [hl, hp]
        obtain rfl : l = l' := Option.some.inj (hl.symm.trans hl')
        obtain rfl : p = p' := Option.some.inj (hp.symm.trans hp')
        rw [h]
        simp only [Except.mapError]
        by_cases hbehind : p ∈ l.history
        · rw [if_pos (by simp [hbehind, hne.symm])]
          exact .behind rfl hheads hne hahead hbehind
        rw [if_neg (by simp [hbehind])]
        by_cases hlt : compare localId remoteId = .lt
        · rw [if_pos hlt, run_bind]
          rcases rebaseOnto_alone git tip r with
            ⟨r', h, hrebase⟩ | ⟨e, h, e', hf⟩ | ⟨e, r₁, h, hrebase⟩
          · rw [h]
            exact .rebased rfl hheads ⟨hahead, hbehind⟩ hlt hrebase
          · rw [h]
            exact .failed (Or.inl ⟨_, by rw [hf]; rfl⟩)
          · rw [h]
            refine .rebaseFailed rfl hheads ⟨hahead, hbehind⟩ hlt ⟨hopen, ?_⟩ hrebase
            intro lo' po' hlo' hpo'
            obtain rfl : lo = lo' := Option.some.inj (hlo.symm.trans hlo')
            obtain rfl : po = po' := Option.some.inj (hpo.symm.trans hpo')
            exact ⟨hq, hq'⟩
        · rw [if_neg hlt]
          exact .awaits rfl hheads ⟨hahead, hbehind⟩ hlt

/-! ## The whole sync -/

/-- What `head_sha` reads. -/
def headText (r : Repo) : Option Str := r.head.map fun c => c.sha.hex

theorem headText_def :
    (fun r : Repo => (.ok (r.head.map fun c => c.sha.hex) : Except Str (Option Str))) =
      fun r => .ok (headText r) := rfl

/-- The repository after the pack was stored. -/
def Ingested (git : Git) (bytes : Bytes) (r r₁ : Repo) : Prop :=
  bytes = [] ∧ r₁ = r ∨ bytes ≠ [] ∧ (git.unpack bytes).bind r.store = some r₁

/-- The calls that read the head and store the pack do not fail. -/
def Fetched (git : Git) (bytes : Bytes) (r : Repo) : Prop :=
  git.fault .headSha r = none ∧ (bytes ≠ [] → git.fault (.indexPack bytes) r = none)

/-- How a sync run alone on `r` can end. -/
inductive Synced (git : Git) {F : Type} (json : Json F) (request : F → Except Str F)
    (localId remoteId : Str) (r : Repo) : Except SyncError SyncReport → Repo → Prop
  /-- It failed before it stored anything. -/
  | failed {e} : SomeFault git r ∨ (∃ e, askPeer json request (headText r) = .error e) ∨
      (∃ peerHead bytes, askPeer json request (headText r) = .ok (peerHead, bytes) ∧
        (maxPackBytes < bytes.length ∨ bytes ≠ [] ∧ (git.unpack bytes).bind r.store = none)) →
      Synced git json request localId remoteId r (.error e) r
  /-- The peer has no commits. -/
  | nothing {bytes} : askPeer json request (headText r) = .ok (none, bytes) →
      bytes.length ≤ maxPackBytes →
      Synced git json request localId remoteId r (.ok ⟨.upToDate, none⟩) r
  /-- The peer has the local head, and sent nothing. -/
  | already {tip} : askPeer json request (headText r) = .ok (some tip, []) →
      headText r = some tip → Synced git json request localId remoteId r
        (.ok ⟨.upToDate, some tip⟩) r
  /-- The audit failed. -/
  | auditFailed {tip bytes e r₁} : askPeer json request (headText r) = .ok (some tip, bytes) →
      Ingested git bytes r r₁ → SomeFault git r₁ →
      Synced git json request localId remoteId r (.error e) r₁
  /-- The audit found something. -/
  | rejected {tip bytes issues r₁} : askPeer json request (headText r) = .ok (some tip, bytes) →
      Ingested git bytes r r₁ →
      (auditIncoming git (headText r) tip).run r₁ = (.ok issues, r₁) → issues ≠ [] →
      Synced git json request localId remoteId r (.ok ⟨.rejectedLeak issues, some tip⟩) r₁
  /-- The audit was clean, and the heads were reconciled. -/
  | reconciled {tip bytes r₁ res r'} : askPeer json request (headText r) = .ok (some tip, bytes) →
      bytes.length ≤ maxPackBytes → ¬ (bytes = [] ∧ headText r = some tip) →
      Fetched git bytes r → Ingested git bytes r r₁ →
      (auditIncoming git (headText r) tip).run r₁ = (.ok [], r₁) →
      Reconciled git (headText r) tip localId remoteId r₁ res r' →
      Synced git json request localId remoteId r (res.map fun action => ⟨action, some tip⟩) r'

/-- An action that changes nothing. -/
abbrev Reads (_ : Command) (r r' : Repo) : Prop := r' = r

theorem reads_refl (cmd : Command) (r : Repo) : Reads cmd r r := rfl

variable {git} in
theorem showAll_fault {tip : Str} {ps : List Bytes} {r : Repo} {e : SyncError}
    (h : ((showAll git tip ps).run r).1 = .error e) : SomeFault git r := by
  induction ps with
  | nil => cases h
  | cons p ps ih =>
    unfold showAll Git.showFile Git.output at h
    rw [run_bind, run_mapErr] at h
    rcases process_alone git (.show_ tip p) id (fun r => (git.showOf tip p r, r)) r with
      ⟨-, h'⟩ | ⟨e, hf, -⟩ | ⟨e, hf, -⟩
    · rw [h'] at h
      cases hs : git.showOf tip p r with
      | error e => exact ih (by simpa [Except.mapError, hs] using h)
      | ok content =>
        simp only [Except.mapError, hs, run_bind] at h
        rcases hrest : (showAll git tip ps).run r with ⟨e' | rest, r'⟩
        · exact ih (by simpa [hrest] using h)
        · simp [hrest] at h
    · exact ⟨_, by rw [hf]; rfl⟩
    · exact ⟨_, by rw [hf]; rfl⟩

/-- The audit run alone. -/
theorem auditIncoming_alone (localHead : Option Str) (tip : Str) (r : Repo) :
    (∃ issues, (auditIncoming git localHead tip).run r = (.ok issues, r)) ∨
      SomeFault git r ∧ ∃ e, (auditIncoming git localHead tip).run r = (.error e, r) := by
  have hsteps : Steps Reads (auditIncoming git localHead tip) :=
    steps_auditIncoming reads_refl localHead tip
  have hsame := hsteps.run_eq r
  rcases hrun : (auditIncoming git localHead tip).run r with ⟨e | issues, r'⟩
  · rw [hrun] at hsame
    subst hsame
    refine Or.inr ⟨?_, e, rfl⟩
    unfold auditIncoming Git.log Git.output at hrun
    rw [run_bind, run_mapErr] at hrun
    rcases process_alone git (.log localHead tip) id
      (fun r => (git.logOf localHead tip r, r)) r' with ⟨-, h'⟩ | ⟨e, hf, -⟩ | ⟨e, hf, -⟩
    · rw [h'] at hrun
      cases hl : git.logOf localHead tip r' with
      | error e => simp [Except.mapError, hl] at hrun
      | ok out =>
        simp only [Except.mapError, hl, run_bind] at hrun
        rcases hrest : (showAll git tip (sortPaths (parsePathlist out))).run r' with ⟨e' | rest, r''⟩
        · exact showAll_fault (congrArg Prod.fst hrest)
        · simp [hrest] at hrun
    · exact ⟨_, by rw [hf]; rfl⟩
    · exact ⟨_, by rw [hf]; rfl⟩
  · rw [hrun] at hsame
    subst hsame
    exact Or.inl ⟨issues, rfl⟩

/-- Storing the pack run alone. -/
theorem ingestUnlessEmpty_alone (bytes : Bytes) (r : Repo) :
    ((bytes ≠ [] → git.fault (.indexPack bytes) r = none) ∧
      ∃ r₁, (ingestUnlessEmpty git bytes).run r = (.ok (), r₁) ∧ Ingested git bytes r r₁) ∨
      (SomeFault git r ∨ bytes ≠ [] ∧ (git.unpack bytes).bind r.store = none) ∧
        ∃ e, (ingestUnlessEmpty git bytes).run r = (.error e, r) := by
  unfold ingestUnlessEmpty
  by_cases hb : bytes = []
  · rw [if_pos hb]
    exact Or.inl ⟨fun h => absurd hb h, r, rfl, Or.inl ⟨hb, rfl⟩⟩
  rw [if_neg hb]
  unfold ingestPack Git.indexPack
  rw [run_bind, run_mapErr]
  rcases process_alone git (.indexPack bytes) id _ r with
    ⟨hq, h⟩ | ⟨e, hf, h⟩ | ⟨e, hf, h⟩
  · rw [h]
    cases hstore : (git.unpack bytes).bind r.store with
    | none => exact Or.inr ⟨Or.inr ⟨hb, rfl⟩, _, rfl⟩
    | some r₁ => exact Or.inl ⟨fun _ => hq, r₁, rfl, Or.inr ⟨hb, hstore⟩⟩
  · rw [h]
    exact Or.inr ⟨Or.inl ⟨_, by rw [hf]; rfl⟩, _, rfl⟩
  · rw [h]
    exact Or.inr ⟨Or.inl ⟨_, by rw [hf]; rfl⟩, _, rfl⟩

/-- **A sync run alone ends in one of the outcomes.** -/
theorem syncWithPeer_alone {F : Type} (json : Json F) (request : F → Except Str F)
    (localId remoteId : Str) (r : Repo) :
    Synced git json request localId remoteId r
      ((syncWithPeer git json request localId remoteId).run r).1
      ((syncWithPeer git json request localId remoteId).run r).2 := by
  unfold syncWithPeer Git.headSha
  rw [run_bind, run_mapErr]
  rcases query_alone git .headSha (fun r => .ok (headText r)) r with ⟨hq, h⟩ | ⟨hf, e, h⟩
  swap
  · rw [headText_def, h]
    exact .failed (Or.inl ⟨_, hf⟩)
  rw [headText_def, h]
  simp only [Except.mapError, run_bind]
  cases hask : askPeer json request (headText r) with
  | error e => exact .failed (Or.inr (Or.inl ⟨e, hask⟩))
  | ok reply =>
    obtain ⟨peerHead, bytes⟩ := reply
    simp only [Prog.run]
    unfold receivePack
    by_cases hsize : maxPackBytes < bytes.length
    · rw [if_pos hsize]
      exact .failed (Or.inr (Or.inr ⟨_, _, hask, Or.inl hsize⟩))
    rw [if_neg hsize]
    cases peerHead with
    | none => exact .nothing hask (by omega)
    | some tip =>
      by_cases hsame : bytes = [] ∧ headText r = some tip
      · obtain ⟨rfl, htip⟩ := hsame
        simp only [htip, and_self, if_true]
        exact .already hask htip
      simp only [if_neg hsame]
      rw [run_bind]
      rcases ingestUnlessEmpty_alone git bytes r with ⟨hpack, r₁, h, hin⟩ | ⟨hf, e, h⟩
      swap
      · rw [h]
        exact .failed (hf.imp id fun hstore => Or.inr ⟨_, _, hask, Or.inr hstore⟩)
      rw [h]
      simp only [run_bind]
      rcases auditIncoming_alone git (headText r) tip r₁ with ⟨issues, h⟩ | ⟨hf, e, h⟩
      swap
      · rw [h]
        exact .auditFailed hask hin hf
      rw [h]
      simp only
      by_cases hclean : issues = []
      · rw [if_pos hclean, run_bind]
        subst hclean
        have hrec := reconcile_alone git (headText r) tip localId remoteId r₁
        have hsync := Synced.reconciled hask (by omega) hsame ⟨hq, hpack⟩ hin h hrec
        rcases hrun : (reconcile git (headText r) tip localId remoteId).run r₁ with ⟨e | a, r'⟩ <;>
          rw [hrun] at hsync <;> exact hsync
      · rw [if_neg hclean]
        exact .rejected hask hin h hclean

end Bypass
