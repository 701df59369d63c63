import Bypass.Git.Plain
import Bypass.Sync.Alone

/-!
# Answering a peer

The responder of a sync (`syncing.rs`): it reads the local head, walks from there, hides what the
peer says it has, and sends the rest as a pack. Nothing on this path looks into the files.

* `serve_pack`: what an answer with a pack holds.
* `serve_pack_accepted_iff`: all that is sent passes the audit exactly when all files pass that are
  in a commit which the head reaches and the peer's claim does not.
-/

namespace Bypass

open Prog

section Serve

variable (git : Git) {F : Type} (json : Json F)

/-- `build_pack`. -/
def buildPack (localHead peerHeadSeen : Option Str) : Prog Command Repo Str Bytes :=
  match localHead with
  | none => pure []
  | some head => do
    git.openRepo.mapErr fun _ => "open repo for packing".toList
    match Oid.fromStr head with
    | none => throw "parse local HEAD oid".toList
    | some _ => git.packObjects head peerHeadSeen

/-- `serve_want_pack_from_capped`. -/
def serveWantPackFromCapped (localHead peerHeadSeen : Option Str) (cap : ℕ) :
    Prog Command Repo Empty F := do
  match ← (buildPack git localHead peerHeadSeen).attempt with
  | .ok bytes =>
    if cap < bytes.length then
      pure (json.encode (errMsg ("pack of ".toList ++ Nat.toDigits 10 bytes.length ++
        " bytes exceeds ".toList ++ Nat.toDigits 10 cap ++
        "-byte cap (ADR-0016); bootstrap via a git remote first, then resume peer sync".toList)))
    else pure (json.encode (packMsg localHead bytes))
  | .error e => pure (json.encode (errMsg ("build pack: ".toList ++ e)))

/-- `serve_want_pack_from`. -/
def serveWantPackFrom (localHead peerHeadSeen : Option Str) : Prog Command Repo Empty F :=
  serveWantPackFromCapped git json localHead peerHeadSeen maxPackBytes

/-- `serve`. -/
def serve (frame : F) : Prog Command Repo Empty F :=
  match json.decode frame with
  | .error _ => pure (json.encode (errMsg "bad wire frame".toList))
  | .ok msg =>
    match msg.body with
    | .wantPackFrom _ peerHeadSeen => do
      match ← git.headSha.attempt with
      | .error e => pure (json.encode (errMsg ("read HEAD: ".toList ++ e)))
      | .ok ourHead => serveWantPackFrom git json ourHead peerHeadSeen
    | .pack _ _ | .err _ =>
      pure (json.encode (errMsg "only WantPackFrom is a valid inbound request".toList))

end Serve

/-! ## What is sent -/

variable {git : Git} {F : Type} {json : Json F}

/-- The commits that the head reaches and the peer does not claim to have. -/
def served (r : Repo) (seen : Option Str) : List Commit :=
  r.head.elim [] fun h => Git.walk r h seen

/-- The bytes of the pack of some commits, as `build_pack` makes it. -/
def Git.packOf (git : Git) (cs : List Commit) : Bytes := if cs = [] then [] else git.pack cs

theorem findCommit_head {r : Repo} {c : Commit} (h : r.head = some c) :
    Git.findCommit r c.sha.hex = some c := by
  rw [Git.findCommit, Oid.fromStr_hex, Option.bind_some, Odb.lookup_eq_some]
  exact ⟨r.head_mem c h, rfl⟩

variable (git) in
/-- **A pack that was built** is that of the commits to serve. -/
theorem buildPack_alone (seen : Option Str) (r : Repo) :
    (buildPack git (headText r) seen).run r = (.ok (git.packOf (served r seen)), r) ∨
      SomeFault git r ∧ ∃ e, (buildPack git (headText r) seen).run r = (.error e, r) := by
  cases hc : r.head with
  | none =>
    refine Or.inl ?_
    simp only [headText, served, hc]
    rfl
  | some c =>
    simp only [headText, served, hc, Option.map_some, Option.elim_some]
    unfold buildPack
    rw [run_bind, run_mapErr]
    rcases openRepo_alone git r with ⟨-, h⟩ | ⟨hf, e, h⟩
    swap
    · rw [h]
      exact Or.inr ⟨hf, _, rfl⟩
    rw [h]
    simp only [Except.mapError, Oid.fromStr_hex]
    unfold Git.packObjects
    rcases query_alone git (.packObjects c.sha.hex seen) _ r with ⟨-, h⟩ | ⟨hf, e, h⟩
    · rw [h, findCommit_head hc]
      exact Or.inl rfl
    · exact Or.inr ⟨⟨_, hf⟩, e, h⟩

/-- What an answer says. -/
def Answers (json : Json F) (frame : F) (body : WireBody) : Prop :=
  json.decode frame = .ok ⟨wireMagic, body⟩

variable (git) in
/-- **The answer to a request, without faults**: the pack, unless it is too large. -/
theorem serve_alone {request : F} {head seen : Option Str}
    (hreq : json.decode request = .ok ⟨wireMagic, .wantPackFrom head seen⟩) (r : Repo) :
    ∃ frame body, (serve git json request).run r = (.ok frame, r) ∧ Answers json frame body ∧
      (SomeFault git r ∧ (∃ e, body = .err e) ∨
        maxPackBytes < (git.packOf (served r seen)).length ∧ (∃ e, body = .err e) ∨
        (git.packOf (served r seen)).length ≤ maxPackBytes ∧
          body = .pack (headText r) (git.packOf (served r seen))) := by
  unfold serve
  simp only [hreq]
  unfold Git.headSha
  rw [headText_def, run_bind, run_attempt]
  rcases query_alone git .headSha (fun r => .ok (headText r)) r with
    ⟨-, h⟩ | ⟨hf, e, h⟩
  swap
  · rw [h]
    exact ⟨_, _, rfl, json.decode_encode _, Or.inl ⟨⟨_, hf⟩, _, rfl⟩⟩
  rw [h]
  unfold serveWantPackFrom serveWantPackFromCapped
  simp only [run_bind, run_attempt]
  rcases buildPack_alone git seen r with h | ⟨hf, e, h⟩
  swap
  · rw [h]
    exact ⟨_, _, rfl, json.decode_encode _, Or.inl ⟨hf, _, rfl⟩⟩
  rw [h]
  simp only
  by_cases hcap : maxPackBytes < (git.packOf (served r seen)).length
  · rw [if_pos hcap]
    exact ⟨_, _, rfl, json.decode_encode _, Or.inr (Or.inl ⟨hcap, _, rfl⟩)⟩
  · rw [if_neg hcap]
    exact ⟨_, _, rfl, json.decode_encode _, Or.inr (Or.inr ⟨by omega, rfl⟩)⟩

/-- **What an answer with a pack holds**: the local head, and the pack of the commits to serve. -/
theorem serve_pack {request frame : F} {head seen h : Option Str} {bytes : Bytes} {r : Repo}
    (hreq : json.decode request = .ok ⟨wireMagic, .wantPackFrom head seen⟩)
    (hrun : ((serve git json request).run r).1 = .ok frame)
    (hpack : Answers json frame (.pack h bytes)) :
    h = headText r ∧ bytes = git.packOf (served r seen) := by
  obtain ⟨frame', body, hrun', hbody, hcases⟩ := serve_alone git hreq r
  rw [hrun'] at hrun
  obtain rfl : frame' = frame := Except.ok.inj hrun
  obtain rfl : body = .pack h bytes :=
    congrArg WireMsg.body (Except.ok.inj (hbody.symm.trans hpack))
  rcases hcases with ⟨-, e, he⟩ | ⟨-, e, he⟩ | ⟨-, he⟩
  · cases he
  · cases he
  · exact WireBody.pack.inj he

/-- The commits of a pack; of an empty one, none. -/
def Git.packed (git : Git) (bytes : Bytes) : List Commit :=
  if bytes = [] then [] else (git.unpack bytes).getD []

/-- Every file of these commits passes the audit. -/
def AllAccepted (cs : List Commit) : Prop :=
  ∀ c ∈ cs, ∀ path content, c.tree[path]? = some content → checkFile path content = none

/-- **When all that is sent passes the audit.** The answer to a request is a pack, of commits that
unpack again. All of its files pass if and only if all those pass that are in a commit which the
head reaches, and which is not in the history of the commit that the peer says it has seen. -/
theorem serve_pack_accepted_iff {git : Git} {F : Type} {json : Json F} {request frame : F}
    {head seen h : Option Str} {bytes : Bytes} {r : Repo}
    (hreq : json.decode request = .ok ⟨wireMagic, .wantPackFrom head seen⟩)
    (hrun : ((serve git json request).run r).1 = .ok frame)
    (hpack : Answers json frame (.pack h bytes))
    (hunpack : served r seen ≠ [] → git.pack (served r seen) ≠ [] ∧
      git.unpack (git.pack (served r seen)) = some (served r seen)) :
    AllAccepted (git.packed bytes) ↔
      ∀ c ∈ reachable r.head, c ∉ reachable (seen.bind (Git.findCommit r)) →
        ∀ path content, c.tree[path]? = some content → checkFile path content = none := by
  obtain ⟨-, rfl⟩ := serve_pack hreq hrun hpack
  have hcommits : git.packed (git.packOf (served r seen)) = served r seen := by
    unfold Git.packed Git.packOf
    by_cases hs : served r seen = []
    · simp [hs]
    · obtain ⟨hne, hun⟩ := hunpack hs
      rw [if_neg hs, if_neg hne, hun, Option.getD_some]
  have hmem : ∀ c, c ∈ served r seen ↔
      c ∈ reachable r.head ∧ c ∉ reachable (seen.bind (Git.findCommit r)) := by
    intro c
    unfold served
    cases hh : r.head with
    | none => simp
    | some d => exact Merkle.mem_range
  rw [hcommits]
  constructor
  · intro hall c hc hseen
    exact hall c ((hmem c).2 ⟨hc, hseen⟩)
  · intro hall c hc
    exact hall c ((hmem c).1 hc).1 ((hmem c).1 hc).2

/-! ## A text file that is sent -/

def leakHead : Commit := commitOf 1 [("notes.txt".toList, "hi".toList)] []

def leakRepo : Repo := repoAt leakHead [leakHead] (by decide +kernel) (by simp)

def leakGit : Git := plainGit [([1], [leakHead])]

def leakAnswer : WireMsg := packMsg (some leakHead.sha.hex) [1]

theorem leakAnswer_run :
    ((serve leakGit plainJson (wantPackFrom none none)).run leakRepo).1 = .ok leakAnswer := by
  decide +kernel

/-- **A pack with a text file is sent.** -/
theorem serve_can_leak :
    ((serve leakGit plainJson (wantPackFrom none none)).run leakRepo).1 = .ok leakAnswer ∧
      Answers plainJson leakAnswer (.pack (some leakHead.sha.hex) [1]) ∧
      ¬ AllAccepted (leakGit.packed [1]) := by
  refine ⟨leakAnswer_run, rfl, fun hall => ?_⟩
  have hcheck := hall leakHead (by decide +kernel) (utf8Encode "notes.txt".toList)
    (utf8Encode "hi".toList) (by decide +kernel)
  revert hcheck
  decide +kernel

theorem serve_pack_accepted_iff_leak :
    AllAccepted (leakGit.packed [1]) ↔
      ∀ c ∈ reachable leakRepo.head, c ∉ reachable ((none : Option Str).bind
          (Git.findCommit leakRepo)) →
        ∀ path content, c.tree[path]? = some content → checkFile path content = none :=
  serve_pack_accepted_iff (show plainJson.decode (wantPackFrom none none) = .ok _ from rfl)
    leakAnswer_run rfl fun _ => ⟨by decide +kernel, by decide +kernel⟩

end Bypass
