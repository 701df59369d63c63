import Bypass.Cli.Vcs
import Bypass.Sync.Alone

/-!
# Fast-forwards beside other processes

A sync reads the local head once, at its start, and decides by it at the end. In between the
repository may change: another process may commit, and a sync with another peer may move the branch.
A fast-forward then drops what they did.

* `syncWithPeer_fastForwarded`: a sync that fast-forwards reads the head, goes through a `Window`
  in which it moves nothing itself, and resets to a descendant of the head it read.
* `fast_forward_keeps_iff`: every commit stays reachable if and only if the last move of the branch
  in the window, if any, was to an ancestor of the reset's target.
-/

namespace Bypass

open Prog

/-! ## Windows -/

/-- What other processes do to the repository: anything, but they delete no commit. -/
def Foreign (r r' : Repo) : Prop := ∀ c ∈ r.odb.commits, c ∈ r'.odb.commits

/-- A commit that is known stays so. -/
theorem Foreign.lookup {r r' : Repo} (h : Foreign r r') {o : Oid} {c : Commit}
    (hc : r.odb.lookup o = some c) : r'.odb.lookup o = some c := by
  obtain ⟨hmem, hsha⟩ := Odb.lookup_eq_some.1 hc
  exact Odb.lookup_eq_some.2 ⟨h c hmem, hsha⟩

/-- The environment of other processes. -/
abbrev Others : Env Unit Unit Repo := Env.ofRel Foreign

/-- What a sync does before it reconciles: it moves no branch and deletes no commit. -/
def KeepsHead (_ : Command) (r r' : Repo) : Prop := r'.head = r.head ∧ Foreign r r'

/-- A part of a trace in which the sync moves no branch, and the others are as they may be. -/
structure Window (s : Repo) (win : List (Step (Command ⊕ Unit) Repo)) (t : Repo) : Prop where
  path : Path s win t
  steps : ∀ x ∈ win, (∃ cmd, x.ev = .inl cmd ∧ KeepsHead cmd x.before x.after) ∨
    (∃ l, x.ev = .inr l) ∧ Foreign x.before x.after

/-- A step with which another process moved the branch. -/
def Moved (x : Step (Command ⊕ Unit) Repo) : Prop :=
  x.ev.isRight = true ∧ x.after.head ≠ x.before.head

instance (x : Step (Command ⊕ Unit) Repo) : Decidable (Moved x) :=
  inferInstanceAs (Decidable (_ ∧ _))

/-- The last such step. -/
def lastMove (win : List (Step (Command ⊕ Unit) Repo)) : Option (Step (Command ⊕ Unit) Repo) :=
  (win.filter fun x => Moved x).getLast?

namespace Window

variable {s t u : Repo} {win win' : List (Step (Command ⊕ Unit) Repo)}

theorem append (h : Window s win t) (h' : Window t win' u) : Window s (win ++ win') u where
  path := path_append.2 ⟨t, h.path, h'.path⟩
  steps x hx := (List.mem_append.1 hx).elim (h.steps x) (h'.steps x)

theorem of_idle (h : Idle Others s win t) : Window s win t where
  path := h.path
  steps x hx := by
    obtain ⟨l, _, _, hl, hforeign⟩ := h.steps x hx
    exact Or.inr ⟨⟨l, hl⟩, hforeign⟩

/-- No commit is deleted in a window. -/
theorem foreign (h : Window s win t) : Foreign s t := by
  obtain ⟨hpath, hsteps⟩ := h
  induction win generalizing s with
  | nil =>
    obtain rfl : s = t := hpath
    exact fun c hc => hc
  | cons x win ih =>
    obtain ⟨rfl, hpath⟩ := hpath
    intro c hc
    have hx : Foreign x.before x.after := by
      rcases hsteps x List.mem_cons_self with ⟨cmd, -, h⟩ | ⟨-, h⟩
      · exact h.2
      · exact h
    exact ih hpath (fun y hy => hsteps y (List.mem_cons_of_mem _ hy)) c (hx c hc)

/-- **Where the branch is after a window**: where the others last moved it, or where it was. -/
theorem head (h : Window s win t) :
    t.head = ((lastMove win).map fun x => x.after.head).getD s.head := by
  obtain ⟨hpath, hsteps⟩ := h
  induction win using List.reverseRecOn generalizing t with
  | nil =>
    obtain rfl : s = t := hpath
    rfl
  | append_singleton win x ih =>
    obtain ⟨u, hwin, rfl, rfl⟩ := path_append.1 hpath
    have hu := ih hwin fun y hy => hsteps y (List.mem_append_left _ hy)
    by_cases hx : Moved x
    · simp only [lastMove, List.filter_append, List.filter_singleton, hx, decide_true, cond_true,
        List.getLast?_concat, Option.map_some, Option.getD_some]
    · have hkeep : x.after.head = x.before.head := by
        rcases hsteps x (by simp) with ⟨cmd, -, h⟩ | ⟨⟨l, hl⟩, -⟩
        · exact h.1
        · by_contra hne
          exact hx ⟨by rw [hl]; rfl, hne⟩
      rw [hkeep, hu]
      simp [lastMove, List.filter_append, hx]

end Window

/-! ## What the stages of a sync do to the branch -/

section Stages

variable {git : Git}

theorem keepsHead_refl (cmd : Command) (r : Repo) : KeepsHead cmd r r := ⟨rfl, fun _ hc => hc⟩

/-- A sync moves no branch before it reconciles. -/
theorem stores_keepsHead : Stores git KeepsHead where
  refl := keepsHead_refl
  indexPack bytes r r' h := by
    obtain ⟨cs, -, hstore⟩ := Option.bind_eq_some_iff.1 h
    obtain ⟨hmem, hhead, -⟩ := Repo.store_eq_some hstore
    exact ⟨hhead, fun c hc => (hmem c).2 (Or.inr hc)⟩

variable {s t : Repo} {k k' : Unit} {tr : List (Step (Command ⊕ Unit) Repo)}

/-- A stage that moves no branch is a window. -/
theorem Window.of_exec {ε : Type} {p : Prog Command Repo ε α} {r : Except ε α}
    (h : Exec Others k p s tr r k' t) (hp : Steps KeepsHead p) : Window s tr t where
  path := h.path
  steps x hx := by
    rcases h.steps hp x hx with ⟨cmd, hcmd, hkeep⟩ | ⟨l, _, _, hl, hforeign⟩
    · exact Or.inl ⟨cmd, hcmd, hkeep⟩
    · exact Or.inr ⟨⟨l, hl⟩, hforeign⟩

/-- **A fast-forward ends with the reset**, which moves the branch to its target. -/
theorem fastForward_ok {target : Str}
    (h : Exec Others k (fastForward git target) s tr (.ok ()) k' t) :
    ∃ win u c, tr = win ++ [⟨.inl (.resetHard target), u, t⟩] ∧ Window s win u ∧
      git.rev u target = some c ∧ t.head = some c := by
  obtain ⟨a, tr₁, tr₂, k₁, v, rfl, hreset, hrest⟩ := h.bind_ok
  cases a with
  | error e => cases hrest.throw_inv
  | ok x =>
    obtain ⟨rfl, -, -, rfl⟩ := hrest.pure_inv
    obtain ⟨win, u, rfl, hidle, hu⟩ := Git.exec_process_ok hreset.mapErr_ok
    obtain ⟨c, hrev, hhead⟩ := resetTo_ok hu
    exact ⟨win, u, c, List.append_nil _, .of_idle hidle, hrev, hhead⟩

/-- What a sync that fast-forwards knows of the head it read: there was none, or the target
descends from it. -/
def Descends (u : Repo) (localHead : Option Str) (c : Commit) : Prop :=
  localHead = none ∨ ∃ h o d, localHead = some h ∧ Oid.fromStr h = some o ∧
    u.odb.lookup o = some d ∧ d ∈ c.history

/-- **What a reconciliation that fast-forwards has checked.** -/
theorem reconcile_fastForwarded {localHead : Option Str} {peerHead localId remoteId a b : Str}
    (h : Exec Others k (reconcile git localHead peerHead localId remoteId) s tr
      (.ok (.fastForwarded a b)) k' t) :
    ∃ win u c, tr = win ++ [⟨.inl (.resetHard peerHead), u, t⟩] ∧ Window s win u ∧
      t.head = some c ∧ Descends u localHead c := by
  obtain ⟨_, tr₁, tr₂, k₁, v, rfl, hopen, hrest⟩ := h.bind_ok
  have hwin₁ : Window s tr₁ v := .of_exec hopen (steps_query keepsHead_refl _ _).mapErr
  split at hrest
  · cases hrest.throw_inv
  next peerOid hpeer =>
  split at hrest
  · -- no local head
    obtain ⟨_, tr₃, tr₄, k₂, w, rfl, hff, hrest⟩ := hrest.bind_ok
    obtain ⟨rfl, -, -, rfl⟩ := hrest.pure_inv
    obtain ⟨win, u, c, rfl, hwin, -, hhead⟩ := fastForward_ok hff
    exact ⟨tr₁ ++ win, u, c, by simp, hwin₁.append hwin, hhead, Or.inl rfl⟩
  next hd =>
  split at hrest
  · cases hrest.throw_inv
  next localOid hlocal =>
  by_cases heq : localOid = peerOid
  · rw [if_pos heq] at hrest
    cases hrest.pure_inv.2.1
  rw [if_neg heq] at hrest
  obtain ⟨ahead, tr₃, tr₄, k₂, w, rfl, hahead, hrest⟩ := hrest.bind_ok
  have hwin₂ : Window v tr₃ w := .of_exec hahead (steps_query keepsHead_refl _ _).mapErr
  obtain ⟨-, -, -, hdesc⟩ := Git.exec_query_ok hahead.mapErr_ok
  cases ahead with
  | true =>
    obtain ⟨_, tr₅, tr₆, k₃, x, rfl, hff, hrest⟩ := hrest.bind_ok
    obtain ⟨rfl, -, -, rfl⟩ := hrest.pure_inv
    obtain ⟨win, u, c, rfl, hwin, hrev, hhead⟩ := fastForward_ok hff
    refine ⟨tr₁ ++ (tr₃ ++ win), u, c, by simp, hwin₁.append (hwin₂.append hwin), hhead,
      Or.inr ?_⟩
    -- both commits are known, and stay so until the reset
    split at hdesc
    · next p d hp hl =>
      have hup := hwin.foreign.lookup hp
      obtain rfl : p = c := Option.some.inj ((Git.rev_fromStr git hpeer hup).symm.trans hrev)
      have hhist : d ∈ p.history ∧ d ≠ p := by simpa using Except.ok.inj hdesc
      exact ⟨hd, localOid, d, rfl, hlocal, hwin.foreign.lookup hl, hhist.1⟩
    · cases hdesc
  | false =>
    obtain ⟨behind, tr₅, tr₆, k₃, x, rfl, -, hrest⟩ := hrest.bind_ok
    cases behind with
    | true => cases hrest.pure_inv.2.1
    | false =>
      by_cases hlt : compare localId remoteId = .lt
      · simp only [if_pos hlt] at hrest
        obtain ⟨_, _, _, _, _, _, _, hrest⟩ := hrest.bind_ok
        cases hrest.pure_inv.2.1
      · simp only [if_neg hlt] at hrest
        cases hrest.pure_inv.2.1

theorem receivePack_fastForwarded {localHead peerHead ph : Option Str} {bytes : Bytes}
    {localId remoteId a b : Str}
    (h : Exec Others k (receivePack git localHead peerHead bytes localId remoteId) s tr
      (.ok ⟨.fastForwarded a b, ph⟩) k' t) :
    ∃ win u c tip, tr = win ++ [⟨.inl (.resetHard tip), u, t⟩] ∧ Window s win u ∧
      t.head = some c ∧ Descends u localHead c := by
  unfold receivePack at h
  by_cases hsize : maxPackBytes < bytes.length
  · rw [if_pos hsize] at h
    cases h.throw_inv
  rw [if_neg hsize] at h
  cases peerHead with
  | none => cases h.pure_inv.2.1
  | some tip =>
    by_cases hsame : bytes = [] ∧ localHead = some tip
    · simp only [if_pos hsame] at h
      cases h.pure_inv.2.1
    simp only [if_neg hsame] at h
    obtain ⟨_, tr₁, tr₂, k₁, v, rfl, hingest, h₁⟩ := h.bind_ok
    have hwin₁ : Window s tr₁ v := .of_exec hingest (steps_ingestUnlessEmpty stores_keepsHead bytes)
    obtain ⟨issues, tr₃, tr₄, k₂, w, rfl, haudit, h₂⟩ := h₁.bind_ok
    have hwin₂ : Window v tr₃ w := .of_exec haudit (steps_auditIncoming keepsHead_refl _ _)
    by_cases hclean : issues = []
    · rw [if_pos hclean] at h₂
      obtain ⟨action, tr₅, tr₆, k₃, x, rfl, hrec, h₃⟩ := h₂.bind_ok
      obtain ⟨rfl, hr, -, rfl⟩ := h₃.pure_inv
      obtain ⟨rfl, -⟩ : SyncAction.fastForwarded a b = action ∧ ph = some tip := by
        simpa using Except.ok.inj hr
      obtain ⟨win, u, c, rfl, hwin, hhead, hdesc⟩ := reconcile_fastForwarded hrec
      exact ⟨tr₁ ++ (tr₃ ++ win), u, c, tip, by simp, hwin₁.append (hwin₂.append hwin), hhead,
        hdesc⟩
    · rw [if_neg hclean] at h₂
      cases h₂.pure_inv.2.1

variable {F : Type} {json : Json F} {request : F → Except Str F}

/-- **A sync that fast-forwards** reads the head, moves nothing in a window, and resets to a
descendant of the head it read. -/
theorem syncWithPeer_fastForwarded {localId remoteId a b : Str} {ph : Option Str}
    (h : Exec Others k (syncWithPeer git json request localId remoteId) s tr
      (.ok ⟨.fastForwarded a b, ph⟩) k' t) :
    ∃ pre r win u c tip, tr = pre ++ ⟨.inl .headSha, r, r⟩ ::
        (win ++ [⟨.inl (.resetHard tip), u, t⟩]) ∧
      Window r win u ∧ t.head = some c ∧ ∀ d ∈ r.head, d ∈ c.history := by
  obtain ⟨localHead, tr₁, tr₂, k₁, v, rfl, hhead, h₁⟩ := h.bind_ok
  obtain ⟨pre, rfl, -, hlocal⟩ := Git.exec_query_ok hhead.mapErr_ok
  obtain ⟨⟨peerHead, bytes⟩, tr₃, tr₄, k₂, w, rfl, hask, h₂⟩ := h₁.bind_ok
  obtain ⟨rfl, -, -, rfl⟩ := hask.done_inv
  obtain ⟨win, u, c, tip, rfl, hwin, htarget, hdesc⟩ := receivePack_fastForwarded h₂
  refine ⟨pre, w, win, u, c, tip, by simp, hwin, htarget, fun d hd => ?_⟩
  obtain rfl : w.head.map (fun c => c.sha.hex) = localHead := Except.ok.inj hlocal
  rw [Option.mem_def] at hd
  -- the head that was read is the commit its digits name
  rcases hdesc with hnone | ⟨h, o, e, hh, ho, hlookup, he⟩
  · simp [hd] at hnone
  · obtain rfl : d.sha.hex = h := by simpa [hd] using hh
    obtain rfl : d.sha = o := Option.some.inj ((Oid.fromStr_hex d.sha).symm.trans ho)
    have hknown := hwin.foreign.lookup (Odb.lookup_eq_some.2 ⟨w.head_mem d hd, rfl⟩)
    rwa [Option.some.inj (hknown.symm.trans hlookup)]

end Stages

/-- **When a fast-forward loses no commit.** A sync that ends in a fast-forward has read the head
and, after a window, reset the branch to a commit `target`. All that was reachable just before the
reset is reachable just after it, if and only if the last move of the branch by another process in
that window, if there was one, was to a commit of the history of `target`. -/
theorem fast_forward_keeps_iff {git : Git} {F : Type} {json : Json F}
    {request : F → Except Str F} {localId remoteId from_ to_ : Str} {ph : Option Str}
    {s t : Repo} {tr : List (Step (Command ⊕ Unit) Repo)}
    (h : Exec Others () (syncWithPeer git json request localId remoteId) s tr
      (.ok ⟨.fastForwarded from_ to_, ph⟩) () t) :
    ∃ pre read win reset tip target, tr = pre ++ read :: (win ++ [reset]) ∧
      read.ev = .inl .headSha ∧ reset.ev = .inl (.resetHard tip) ∧
      reset.after.head = some target ∧
      ((∀ c ∈ reachable reset.before.head, c ∈ reachable reset.after.head) ↔
        ∀ x ∈ lastMove win, ∀ c ∈ x.after.head, c ∈ target.history) := by
  obtain ⟨pre, r, win, u, c, tip, htr, hwin, htarget, hread⟩ := syncWithPeer_fastForwarded h
  refine ⟨pre, ⟨.inl .headSha, r, r⟩, win, ⟨.inl (.resetHard tip), u, t⟩, tip, c, htr, rfl, rfl,
    htarget, ?_⟩
  have hhead := hwin.head
  -- the branch before the reset is where it was moved last, or where it was read
  have hreach : (∀ d ∈ reachable u.head, d ∈ reachable t.head) ↔
      ∀ d ∈ u.head, d ∈ c.history := by
    rw [htarget, reachable_some]
    cases hu : u.head with
    | none => simp
    | some d =>
      rw [reachable_some]
      constructor
      · rintro hall e he
        cases he
        exact hall d (Merkle.mem_history_self d)
      · intro hd e he
        exact Merkle.history_trans he (hd d rfl)
  rw [hreach, hhead]
  cases hlast : lastMove win with
  | none => simpa using hread
  | some x => simp

/-! ## A commit in the window -/

/-- The peer's commit, on that of the local repository. -/
def lagBase : Commit := commitOf 1 [(".gpg-id".toList, "ALICE\n".toList)] []

def lagPeer : Commit :=
  commitOf 9 [(".gpg-id".toList, "ALICE\n".toList), ("mail.gpg".toList, "é".toList)] [lagBase]

def lagRepo : Repo := repoAt lagBase [lagBase] (by decide +kernel) (by simp)

def lagGit : Git := plainGit [([1], [lagPeer])]

def lagRequest : WireMsg → Except Str WireMsg := fun _ => .ok (packMsg (some lagPeer.sha.hex) [1])

/-- Another process writes the blob of a new entry, and commits it. -/
def lagInsert (r : Repo) : Repo :=
  (Git2Vcs.commitFn lagGit [⟨"bank.gpg".toList, by decide⟩] "bypass: Add password for bank".toList
    { r with worktree := r.worktree.insert (utf8Encode "bank.gpg".toList) [0xc1] }).2

theorem lagInsert_foreign (r : Repo) : Foreign r (lagInsert r) :=
  (commitFn_keeps lagGit _ _
    { r with worktree := r.worktree.insert (utf8Encode "bank.gpg".toList) [0xc1] }).2

/-- The sync, with that insertion after it read the head. -/
def lagRun : List (Step (Command ⊕ Unit) Repo) × Except SyncError SyncReport × Unit × Repo :=
  (syncWithPeer lagGit plainJson lagRequest "A".toList "B".toList).runUnder
    (fun _ r => some ((), (), lagInsert r)) [0, 1] () lagRepo

def lagReport : SyncReport :=
  ⟨.fastForwarded lagBase.sha.hex lagPeer.sha.hex, some lagPeer.sha.hex⟩

theorem lagRun_exec : Exec Others () (syncWithPeer lagGit plainJson lagRequest "A".toList "B".toList)
    lagRepo lagRun.1 (.ok lagReport) () lagRun.2.2.2 := by
  have hrun := exec_runUnder (E := Others) (fun _ r => some ((), (), lagInsert r))
    (fun _ r _ _ r' h => by
      obtain rfl : lagInsert r = r' := by simpa using h
      exact lagInsert_foreign r)
    (syncWithPeer lagGit plainJson lagRequest "A".toList "B".toList) [0, 1] () lagRepo
  have hres : lagRun.2.1 = .ok lagReport := by decide +kernel
  rw [← hres]
  exact hrun

theorem lagRun_ends : lagRun.1.getLast?.isSome = true := by decide +kernel

/-- **A fast-forward can lose a commit**: the one that another process made after the head was
read. -/
theorem fast_forward_can_lose :
    ∃ tr t, Exec Others () (syncWithPeer lagGit plainJson lagRequest "A".toList "B".toList)
        lagRepo tr (.ok lagReport) () t ∧
      ∃ reset, tr.getLast? = some reset ∧
        reset.ev = .inl (.resetHard lagPeer.sha.hex) ∧
        ∃ c ∈ reachable reset.before.head, c ∉ reachable reset.after.head := by
  refine ⟨lagRun.1, lagRun.2.2.2, lagRun_exec, lagRun.1.getLast?.get lagRun_ends,
    (Option.some_get lagRun_ends).symm, by decide +kernel,
    (lagInsert lagRepo).head.get (by decide +kernel), by decide +kernel, by decide +kernel⟩

theorem fast_forward_keeps_iff_lag :
    ∃ pre read win reset tip target, lagRun.1 = pre ++ read :: (win ++ [reset]) ∧
      read.ev = .inl .headSha ∧ reset.ev = .inl (.resetHard tip) ∧
      reset.after.head = some target ∧
      ((∀ c ∈ reachable reset.before.head, c ∈ reachable reset.after.head) ↔
        ∀ x ∈ lastMove win, ∀ c ∈ x.after.head, c ∈ target.history) :=
  fast_forward_keeps_iff lagRun_exec

end Bypass
