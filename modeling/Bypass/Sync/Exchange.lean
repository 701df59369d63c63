import Bypass.Sync.Decision
import Bypass.Sync.Rebase
import Bypass.Sync.Serve

/-!
# Two repositories in exchange

A sync of one repository with another, whose side of it is `serve`. In two rounds, first by the
side of the lower id and then by the other, the branches come together: the first round brings the
lower side to the head of the other or above it, and the second one takes the other side there.

* `exchange_reconciled`: an exchange where nothing fails comes down to a reconciliation.
* `two_rounds_converge`: two rounds end with one head, above the head of the higher side.
-/

namespace Bypass

open Prog

/-! ## An exchange -/

section Exchange

variable (gitA gitB : Git) {F : Type} (json : Json F)

/-- The transport between two repositories: a request is answered by `serve` on the other one. -/
def requestTo (rB : Repo) (frame : F) : Except Str F :=
  match ((serve gitB json frame).run rB).1 with
  | .ok reply => .ok reply
  | .error e => e.elim

/-- The result of a sync of `rA` with `rB`, and what it leaves of both. -/
def exchange (idA idB : Str) (rA rB : Repo) : Except SyncError SyncReport × Repo × Repo :=
  let sync := (syncWithPeer gitA json (requestTo gitB json rB) idA idB).run rA
  let answer := (serve gitB json (json.encode (wantPackFrom (headText rA) none))).run rB
  (sync.1, sync.2, answer.2)

end Exchange

variable {gitA gitB : Git} {F : Type} {json : Json F} {idA idB : Str} {rA rB : Repo}

variable (gitA gitB json idA idB rA rB) in
/-- **Answering changes nothing** in the repository that answers. -/
theorem exchange_served : (exchange gitA gitB json idA idB rA rB).2.2 = rB := by
  obtain ⟨frame, body, hrun, -⟩ := serve_alone gitB
    (json.decode_encode (.wantPackFrom (headText rA) none)) rB
  exact congrArg Prod.snd hrun

/-- What the two sides need not to fail: git and the library fail for no reasons of their own, the
pack of `rB` is within the limit and unpacks, and no two commits have one id. -/
structure Unhindered (gitA gitB : Git) (rA rB : Repo) : Prop where
  faultless : ∀ cmd r, gitA.fault cmd r = none
  answers : ∀ cmd r, gitB.fault cmd r = none
  capped : (gitB.packOf (served rB none)).length ≤ maxPackBytes
  packs : served rB none ≠ [] → gitB.pack (served rB none) ≠ [] ∧
    gitA.unpack (gitB.pack (served rB none)) = some (served rB none)
  ids : ∀ c ∈ rA.odb.commits ++ reachable rB.head, ∀ d ∈ rA.odb.commits ++ reachable rB.head,
    c.sha = d.sha → c = d

theorem addAll_isSome {odb : Odb} {cs : List Commit}
    (hids : ∀ c ∈ cs, ∀ d ∈ odb.commits, c.sha = d.sha → c = d)
    (hcs : ∀ c ∈ cs, ∀ d ∈ cs, c.sha = d.sha → c = d) : (odb.addAll cs).isSome = true := by
  induction cs generalizing odb with
  | nil => rfl
  | cons c cs ih =>
    obtain ⟨odb', hodb'⟩ : ∃ odb', odb.add c = some odb' := by
      rw [Odb.add]
      split_ifs with hmem hsha
      · exact ⟨_, rfl⟩
      · -- another commit of this id would be this one
        obtain ⟨d, hd, hdc⟩ := List.mem_map.1 hsha
        have heq := hids c List.mem_cons_self d hd hdc.symm
        exact absurd (heq ▸ hd) hmem
      · exact ⟨_, rfl⟩
    rw [Odb.addAll, hodb', Option.bind_some]
    apply ih
    · intro e he d hd hsha
      rcases (Odb.mem_add hodb').1 hd with rfl | hd
      · exact hcs e (List.mem_cons_of_mem _ he) d List.mem_cons_self hsha
      · exact hids e (List.mem_cons_of_mem _ he) d hd hsha
    · intro e he d hd
      exact hcs e (List.mem_cons_of_mem _ he) d (List.mem_cons_of_mem _ hd)

theorem store_isSome {r : Repo} {cs : List Commit}
    (hids : ∀ c ∈ cs, ∀ d ∈ r.odb.commits, c.sha = d.sha → c = d)
    (hcs : ∀ c ∈ cs, ∀ d ∈ cs, c.sha = d.sha → c = d) : ∃ r', r.store cs = some r' := by
  obtain ⟨odb', hodb'⟩ := Option.isSome_iff_exists.1 (addAll_isSome hids hcs)
  unfold Repo.store
  split
  · next hnone => rw [hodb'] at hnone; cases hnone
  · exact ⟨_, rfl⟩

theorem mem_served_none {r : Repo} {c : Commit} : c ∈ served r none ↔ c ∈ reachable r.head := by
  unfold served
  cases r.head with
  | none => simp
  | some h =>
    rw [Option.elim_some, Git.walk, Merkle.mem_range]
    simp

variable (json) in
/-- **The peer's answer**, where nothing fails: its head, and the pack of its history. -/
theorem askPeer_requestTo (h : Unhindered gitA gitB rA rB) :
    askPeer json (requestTo gitB json rB) (headText rA) =
      .ok (headText rB, gitB.packOf (served rB none)) := by
  obtain ⟨frame, body, hrun, hbody, hcases⟩ := serve_alone gitB
    (json.decode_encode (.wantPackFrom (headText rA) none)) rB
  have hpack : body = .pack (headText rB) (gitB.packOf (served rB none)) := by
    rcases hcases with ⟨⟨cmd, hcmd⟩, -⟩ | ⟨hcap, -⟩ | ⟨-, hpack⟩
    · rw [h.answers] at hcmd
      cases hcmd
    · have := h.capped
      omega
    · exact hpack
  have hreq : requestTo gitB json rB (json.encode (wantPackFrom (headText rA) none)) =
      .ok frame := by
    unfold requestTo
    rw [show wantPackFrom (headText rA) none = ⟨wireMagic, .wantPackFrom (headText rA) none⟩
      from rfl, hrun]
  unfold askPeer
  rw [hreq]
  simp only
  rw [hbody, hpack]

variable (json) in
/-- **An exchange where nothing fails** comes down to a reconciliation with the peer's head, in a
repository that has it; or what came was refused. -/
theorem exchange_reconciled (h : Unhindered gitA gitB rA rB) {b : Commit} (hb : rB.head = some b)
    (hclean : ∀ issues ph, (exchange gitA gitB json idA idB rA rB).1 ≠
      .ok ⟨.rejectedLeak issues, ph⟩) :
    ∃ r₁ res, r₁.head = rA.head ∧ b ∈ r₁.odb.commits ∧ (∀ c ∈ rA.odb.commits, c ∈ r₁.odb.commits) ∧
      Ingested gitA (gitB.packOf (served rB none)) rA r₁ ∧
      Reconciled gitA (headText rA) b.sha.hex idA idB r₁ res
        (exchange gitA gitB json idA idB rA rB).2.1 ∧
      (exchange gitA gitB json idA idB rA rB).1 = res.map fun action => ⟨action, some b.sha.hex⟩ := by
  have hask := askPeer_requestTo json h
  have htext : headText rB = some b.sha.hex := by rw [headText, hb, Option.map_some]
  rw [htext] at hask
  have hserved : b ∈ served rB none := by
    rw [mem_served_none, hb]
    exact Merkle.mem_history_self b
  have hne : served rB none ≠ [] := List.ne_nil_of_mem hserved
  obtain ⟨hpne, hunpack⟩ := h.packs hne
  have hbytes : gitB.packOf (served rB none) ≠ [] := by rwa [Git.packOf, if_neg hne]
  have hsync := syncWithPeer_alone gitA json (requestTo gitB json rB) idA idB rA
  unfold exchange at hclean ⊢
  simp only at hclean ⊢
  generalize (syncWithPeer gitA json (requestTo gitB json rB) idA idB).run rA = out at hsync hclean ⊢
  obtain ⟨res, r'⟩ := out
  simp only at hsync hclean ⊢
  cases hsync with
  | failed hf =>
    exfalso
    rcases hf with ⟨cmd, hcmd⟩ | ⟨e, he⟩ | ⟨ph, bytes, hok, hbad⟩
    · rw [h.faultless] at hcmd
      cases hcmd
    · rw [hask] at he
      cases he
    · rw [hask] at hok
      obtain ⟨-, rfl⟩ := Prod.mk.inj (Except.ok.inj hok)
      rcases hbad with hcap | ⟨-, hstore⟩
      · have := h.capped
        omega
      · have hsent : ∀ c ∈ served rB none, c ∈ rA.odb.commits ++ reachable rB.head := fun c hc =>
          List.mem_append_right _ (mem_served_none.1 hc)
        obtain ⟨r', hr'⟩ := store_isSome (r := rA)
          (fun c hc d hd => h.ids c (hsent c hc) d (List.mem_append_left _ hd))
          (fun c hc d hd => h.ids c (hsent c hc) d (hsent d hd))
        rw [Git.packOf, if_neg hne, hunpack, Option.bind_some, hr'] at hstore
        cases hstore
  | nothing hok _ =>
    rw [hask] at hok
    cases hok
  | already hok _ =>
    rw [hask] at hok
    exact absurd (Prod.mk.inj (Except.ok.inj hok)).2 hbytes
  | auditFailed _ _ hf =>
    obtain ⟨cmd, hcmd⟩ := hf
    rw [h.faultless] at hcmd
    cases hcmd
  | rejected _ _ _ _ => exact absurd rfl (hclean _ _)
  | @reconciled tip bytes r₁ res _ hok _ _ _ hin _ hrec =>
    rw [hask] at hok
    obtain ⟨htip, rfl⟩ := Prod.mk.inj (Except.ok.inj hok)
    obtain rfl : b.sha.hex = tip := Option.some.inj htip
    have hin' := hin
    rcases hin with ⟨hnil, -⟩ | ⟨-, hstore⟩
    · exact absurd hnil hbytes
    · obtain ⟨cs, hcs, hstore⟩ := Option.bind_eq_some_iff.1 hstore
      rw [Git.packOf, if_neg hne, hunpack] at hcs
      obtain rfl : served rB none = cs := Option.some.inj hcs
      obtain ⟨hmem, hhead, -⟩ := Repo.store_eq_some hstore
      exact ⟨_, res, hhead, (hmem b).2 (Or.inl hserved), fun c hc => (hmem c).2 (Or.inr hc), hin',
        hrec, rfl⟩

/-! ## Where a reconciliation takes the branch -/

section Settled

variable {git : Git} {r r' : Repo} {tip localId remoteId : Str} {a b : Commit}

/-- A local head that was read is the commit of the branch. -/
theorem Heads.local {h : Str} {l p : Commit} (hh : headText r = some h) (hheads : Heads r h tip l p) :
    r.head = some l := by
  obtain ⟨lo, po, hlo, -, hl, -⟩ := hheads
  cases hc : r.head with
  | none => simp [headText, hc] at hh
  | some c =>
    obtain rfl : c.sha.hex = h := by simpa [headText, hc] using hh
    obtain rfl : c.sha = lo := Option.some.inj ((Oid.fromStr_hex c.sha).symm.trans hlo)
    have hmem := Odb.lookup_eq_some.2 ⟨r.head_mem c hc, rfl⟩
    rw [Option.some.inj (hmem.symm.trans hl)]

/-- A peer's head that is known is the commit of its id. -/
theorem Heads.peer {h : Str} {l p : Commit} (hb : b ∈ r.odb.commits)
    (hheads : Heads r h b.sha.hex l p) : p = b := by
  obtain ⟨lo, po, -, hpo, -, hp⟩ := hheads
  obtain rfl : b.sha = po := Option.some.inj ((Oid.fromStr_hex b.sha).symm.trans hpo)
  exact Option.some.inj (hp.symm.trans (Odb.lookup_eq_some.2 ⟨hb, rfl⟩))

/-- How a reconciliation that succeeds leaves the branch: at the peer's head, which is above it;
where it was, above the peer's; rebased on it; or diverged, on the side that waits. -/
inductive Settled (localId remoteId : Str) (b : Commit) (head head' : Option Commit) : Prop
  | peer : head' = some b → (∀ a ∈ head, a ∈ b.history) → Settled localId remoteId b head head'
  | above (a : Commit) : head = some a → head' = head → b ∈ a.history →
      Settled localId remoteId b head head'
  | rebased (t : Commit) : compare localId remoteId = .lt → head' = some t → b ∈ t.history →
      Settled localId remoteId b head head'
  | waits (a : Commit) : compare localId remoteId ≠ .lt → head = some a → head' = head →
      Diverged a b → Settled localId remoteId b head head'

/-- **A reconciliation where nothing fails** settles the branch. -/
theorem Reconciled.settled {res : Except SyncError SyncAction}
    (hrec : Reconciled git (headText r) b.sha.hex localId remoteId r res r')
    (hfaultless : ∀ cmd r, git.fault cmd r = none) (hb : b ∈ r.odb.commits)
    (hrebase : ∀ a, r.head = some a → Diverged a b → (git.rebaseTo b.sha.hex r).1 = .ok ()) :
    (∃ action, res = .ok action) ∧ Settled localId remoteId b r.head r'.head := by
  have hnofault : ¬ SomeFault git r := by
    rintro ⟨cmd, hcmd⟩
    rw [hfaultless] at hcmd
    cases hcmd
  have hreset : ∀ r', git.resetTo b.sha.hex r = (.ok (), r') → r'.head = some b := by
    intro r' h
    obtain ⟨c, hc, hhead⟩ := resetTo_ok h
    rw [hhead, ← hc, git.rev_mem_sha hb]
  cases hrec with
  | failed h =>
    exfalso
    rcases h with h | h | ⟨hd, hh, h⟩
    · exact hnofault h
    · rw [Oid.fromStr_hex] at h
      cases h
    · cases hc : r.head with
      | none => simp [headText, hc] at hh
      | some c =>
        obtain rfl : c.sha.hex = hd := by simpa [headText, hc] using hh
        exact h ⟨c, b, heads_of_mem (r.head_mem c hc) hb⟩
  | adopted hh h =>
    have hnone : r.head = none := by simpa [headText] using hh
    exact ⟨⟨_, rfl⟩, .peer (hreset _ h) (by simp [hnone])⟩
  | @same hd o hh ho hpo =>
    refine ⟨⟨_, rfl⟩, ?_⟩
    obtain rfl : b.sha = o := Option.some.inj ((Oid.fromStr_hex b.sha).symm.trans hpo)
    have hlookup := Odb.lookup_eq_some.2 ⟨hb, rfl⟩
    have hhead : r.head = some b :=
      Heads.local hh ⟨b.sha, b.sha, ho, Oid.fromStr_hex b.sha, hlookup, hlookup⟩
    exact .peer hhead (by simp [hhead])
  | ahead hh hheads _ hahead h =>
    refine ⟨⟨_, rfl⟩, .peer (hreset _ h) ?_⟩
    intro a ha
    rw [hheads.local hh] at ha
    obtain rfl := Option.some.inj ha
    exact (hheads.peer hb) ▸ hahead
  | behind hh hheads _ _ hbehind =>
    exact ⟨⟨_, rfl⟩, .above _ (hheads.local hh) rfl ((hheads.peer hb) ▸ hbehind)⟩
  | rebased hh hheads _ hlt h =>
    obtain ⟨base, head, t, hrev, -, -, hreplay, hhead⟩ := rebaseTo_ok h
    rw [git.rev_mem_sha hb] at hrev
    obtain rfl : b = base := Option.some.inj hrev
    exact ⟨⟨_, rfl⟩, .rebased t hlt hhead (replay_history hreplay)⟩
  | awaits hh hheads hdiv hlt =>
    exact ⟨⟨_, rfl⟩, .waits _ hlt (hheads.local hh) rfl ((hheads.peer hb) ▸ hdiv)⟩
  | resetFailed _ h _ =>
    exfalso
    rcases h with h | h
    · exact hnofault h
    · rw [git.rev_mem_sha hb] at h
      cases h
  | rebaseFailed hh hheads hdiv _ _ hrf =>
    exfalso
    have hok := hrebase _ (hheads.local hh) ((hheads.peer hb) ▸ hdiv)
    rcases hrf with ⟨-, e, h⟩ | ⟨e, h, -⟩
    · rw [h] at hok
      cases hok
    · rw [hfaultless] at h
      cases h

end Settled

/-! ## Two rounds -/

variable (json idA idB) in
/-- **An exchange settles the branch** of the side that asks; one with a side that has no commits
changes nothing. -/
theorem exchange_settled (h : Unhindered gitA gitB rA rB)
    (hclean : ∀ issues ph, (exchange gitA gitB json idA idB rA rB).1 ≠
      .ok ⟨.rejectedLeak issues, ph⟩)
    (hrebase : ∀ r₁ a b, Ingested gitA (gitB.packOf (served rB none)) rA r₁ → rA.head = some a →
      rB.head = some b → Diverged a b → (gitA.rebaseTo b.sha.hex r₁).1 = .ok ()) :
    (∃ report, (exchange gitA gitB json idA idB rA rB).1 = .ok report) ∧
      match rB.head with
      | none => (exchange gitA gitB json idA idB rA rB).2.1.head = rA.head
      | some b => Settled idA idB b rA.head (exchange gitA gitB json idA idB rA rB).2.1.head := by
  cases hb : rB.head with
  | none =>
    have hask := askPeer_requestTo json h
    have hserved : gitB.packOf (served rB none) = [] := by
      rw [Git.packOf, served, hb]
      rfl
    have hpeer : headText rB = none := by rw [headText, hb, Option.map_none]
    rw [hserved, hpeer] at hask
    have hrun : (syncWithPeer gitA json (requestTo gitB json rB) idA idB).run rA =
        (.ok ⟨.upToDate, none⟩, rA) := by
      unfold syncWithPeer Git.headSha
      rw [run_bind, run_mapErr, headText_def, query_run (h.faultless _ _)]
      simp only [Except.mapError, run_bind, hask, Prog.run]
      rfl
    refine ⟨⟨⟨.upToDate, none⟩, congrArg Prod.fst hrun⟩, ?_⟩
    show ((syncWithPeer gitA json (requestTo gitB json rB) idA idB).run rA).2.head = rA.head
    rw [hrun]
  | some b =>
    obtain ⟨r₁, res, hhead, hmem, -, hin, hrec, hres⟩ :=
      exchange_reconciled json h hb hclean
    have htext : headText rA = headText r₁ := by rw [headText, headText, hhead]
    rw [htext] at hrec
    obtain ⟨⟨action, rfl⟩, hsettled⟩ := hrec.settled h.faultless hmem
      fun a ha hdiv => hrebase r₁ a b hin (hhead ▸ ha) hb hdiv
    rw [hhead] at hsettled
    exact ⟨⟨_, hres⟩, hsettled⟩

/-- **Two rounds converge.** First the side of the lower id syncs with the other, and then the
other with the first. Nothing hinders the two exchanges, the audits are clean, and a rebase of the
lower side succeeds. Both syncs succeed, the heads are the same, and every commit that the higher
side had on its branch is still below the head. -/
theorem two_rounds_converge {gitA gitB : Git} {F : Type} {json : Json F} {idA idB : Str}
    {rA rB rA₁ rB₁ rA₂ rB₂ : Repo} {resA resB : Except SyncError SyncReport}
    (hid : compare idA idB = .lt)
    (hfirst : exchange gitA gitB json idA idB rA rB = (resA, rA₁, rB₁))
    (hsecond : exchange gitB gitA json idB idA rB₁ rA₁ = (resB, rB₂, rA₂))
    (hA : Unhindered gitA gitB rA rB) (hB : Unhindered gitB gitA rB₁ rA₁)
    (hcleanA : ∀ issues ph, resA ≠ .ok ⟨.rejectedLeak issues, ph⟩)
    (hcleanB : ∀ issues ph, resB ≠ .ok ⟨.rejectedLeak issues, ph⟩)
    (hrebase : ∀ r₁ a b, Ingested gitA (gitB.packOf (served rB none)) rA r₁ → rA.head = some a →
      rB.head = some b → Diverged a b → (gitA.rebaseTo b.sha.hex r₁).1 = .ok ()) :
    (∃ report, resA = .ok report) ∧ (∃ report, resB = .ok report) ∧ rA₂.head = rB₂.head ∧
      ∀ c ∈ reachable rB.head, c ∈ reachable rA₂.head := by
  -- answering leaves both repositories as they were
  obtain rfl : rB₁ = rB := by
    have hserved := exchange_served gitA gitB json idA idB rA rB
    rwa [hfirst] at hserved
  obtain rfl : rA₂ = rA₁ := by
    have hserved := exchange_served gitB gitA json idB idA rB₁ rA₁
    rwa [hsecond] at hserved
  have hfirst' := exchange_settled json idA idB hA
    (by rw [hfirst]; exact hcleanA) hrebase
  rw [hfirst] at hfirst'
  obtain ⟨hokA, hmoved⟩ := hfirst'
  -- after the first round, the lower side is at the head of the higher one, or above it
  have habove : ∀ b, rB₁.head = some b → ∃ t, rA₂.head = some t ∧ b ∈ t.history := by
    intro b hb
    rw [hb] at hmoved
    cases hmoved with
    | peer h _ => exact ⟨b, h, Merkle.mem_history_self b⟩
    | above a ha h hba => exact ⟨a, h.trans ha, hba⟩
    | rebased t _ h hbt => exact ⟨t, h, hbt⟩
    | waits _ hlt _ _ _ => exact absurd hid hlt
  have hsecond' := exchange_settled json idB idA hB
    (by rw [hsecond]; exact hcleanB) (by
      intro r₁ b t _ hb ht hdiv
      obtain ⟨t', ht', hbt⟩ := habove b hb
      obtain rfl : t = t' := Option.some.inj (ht.symm.trans ht')
      exact absurd hbt hdiv.1)
  rw [hsecond] at hsecond'
  obtain ⟨hokB, hmoved'⟩ := hsecond'
  refine ⟨hokA, hokB, ?_, ?_⟩
  · cases ht : rA₂.head with
    | none =>
      rw [ht] at hmoved'
      cases hb : rB₁.head with
      | none => exact (hmoved'.trans hb).symm
      | some b =>
        obtain ⟨t, ht', -⟩ := habove b hb
        rw [ht] at ht'
        cases ht'
    | some t =>
      rw [ht] at hmoved'
      cases hmoved' with
      | peer h _ => exact h.symm
      | above b hb h htb =>
        obtain ⟨t', ht', hbt⟩ := habove b hb
        obtain rfl : t = t' := Option.some.inj (ht.symm.trans ht')
        have hsame : t = b := Merkle.history_antisymm htb hbt
        exact (h.trans (hb.trans (congrArg some hsame.symm))).symm
      | rebased _ hlt _ _ =>
        have hswap : compare idB idA = (compare idA idB).swap := Std.OrientedCmp.eq_swap
        rw [hswap, hid] at hlt
        cases hlt
      | waits b _ hb _ hdiv =>
        obtain ⟨t', ht', hbt⟩ := habove b hb
        obtain rfl : t = t' := Option.some.inj (ht.symm.trans ht')
        exact absurd hbt hdiv.1
  · intro c hc
    cases hb : rB₁.head with
    | none =>
      rw [hb] at hc
      cases hc
    | some b =>
      obtain ⟨t, ht, hbt⟩ := habove b hb
      rw [hb, reachable_some] at hc
      rw [ht, reachable_some]
      exact Merkle.history_trans hc hbt

/-! ## Two sides that diverged -/

/-- The commit of the lower side, on that of the higher one. -/
def meetTop : Commit := commitOf 5 [("a.gpg".toList, "é".toList), ("b.gpg".toList, "é".toList)] [sideB]

def meetGit : Git := plainGit [([1], [sideB, sideBase]), ([2], [meetTop, sideB, sideBase])]

def meetA : Repo := repoAt sideA [sideA, sideBase] (by decide +kernel) (by simp)

def meetB : Repo := repoAt sideB [sideB, sideBase] (by decide +kernel) (by simp)

/-- The repository of the lower side with the objects of the higher one in its store. -/
def meetIngested : Repo :=
  ((meetGit.unpack (meetGit.packOf (served meetB none))).bind meetA.store).get (by decide +kernel)

def meetFirst : Except SyncError SyncReport × Repo × Repo :=
  exchange meetGit meetGit plainJson "A".toList "B".toList meetA meetB

def meetSecond : Except SyncError SyncReport × Repo × Repo :=
  exchange meetGit meetGit plainJson "B".toList "A".toList meetFirst.2.2 meetFirst.2.1

theorem meetFirst_ok :
    meetFirst.1 = .ok ⟨.rebased sideB.sha.hex, some sideB.sha.hex⟩ := by decide +kernel

theorem meetSecond_ok : meetSecond.1 =
    .ok ⟨.fastForwarded sideB.sha.hex meetTop.sha.hex, some meetTop.sha.hex⟩ := by
  decide +kernel

theorem meet_rebaseTo : (meetGit.rebaseTo sideB.sha.hex meetIngested).1 = .ok () := by
  decide +kernel

theorem meet_rebase (r₁ : Repo) (a b : Commit)
    (hin : Ingested meetGit (meetGit.packOf (served meetB none)) meetA r₁)
    (_ : meetA.head = some a) (hb : meetB.head = some b) (_ : Diverged a b) :
    (meetGit.rebaseTo b.sha.hex r₁).1 = .ok () := by
  obtain rfl : sideB = b := Option.some.inj hb
  rcases hin with ⟨hnil, -⟩ | ⟨-, hstore⟩
  · exact absurd hnil (by decide +kernel)
  · obtain rfl : meetIngested = r₁ := Option.some.inj ((Option.some_get _).trans hstore)
    exact meet_rebaseTo

theorem meet_unhindered_first : Unhindered meetGit meetGit meetA meetB :=
  ⟨fun _ _ => rfl, fun _ _ => rfl, by decide +kernel,
    fun _ => ⟨by decide +kernel, by decide +kernel⟩, by decide +kernel⟩

theorem meet_unhindered_second :
    Unhindered meetGit meetGit meetFirst.2.2 meetFirst.2.1 :=
  ⟨fun _ _ => rfl, fun _ _ => rfl, by decide +kernel,
    fun _ => ⟨by decide +kernel, by decide +kernel⟩, by decide +kernel⟩

theorem two_rounds_converge_meet :
    (∃ report, meetFirst.1 = .ok report) ∧ (∃ report, meetSecond.1 = .ok report) ∧
      meetSecond.2.2.head = meetSecond.2.1.head ∧
      ∀ c ∈ reachable meetB.head, c ∈ reachable meetSecond.2.2.head := by
  have hfirst : exchange meetGit meetGit plainJson "A".toList "B".toList meetA meetB =
      (meetFirst.1, meetFirst.2.1, meetFirst.2.2) := by rw [Prod.mk.eta, meetFirst]
  have hsecond : exchange meetGit meetGit plainJson "B".toList "A".toList meetFirst.2.2
      meetFirst.2.1 = (meetSecond.1, meetSecond.2.1, meetSecond.2.2) := by
    rw [Prod.mk.eta, meetSecond]
  refine two_rounds_converge (by decide) hfirst hsecond meet_unhindered_first
    meet_unhindered_second (fun issues ph h => ?_) (fun issues ph h => ?_) meet_rebase
  · cases meetFirst_ok.symm.trans h
  · cases meetSecond_ok.symm.trans h

end Bypass
