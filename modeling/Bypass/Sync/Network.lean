import Bypass.Sync.Exchange
import Bypass.Foundations.Runs

/-!
# A network of devices

Any number of devices, each with its repository and its peer id. At each event one of them syncs with
another, or the user of one lets its branch grow.

* `network_keeps_history`: a commit leaves the branch of a device only when the device syncs with one
  of a greater id; the branch of the device with the greatest id keeps all that was ever on it.
* `network_converges`: when that device is the hub of the network, two sweeps over the others bring
  all branches to one head.
-/

namespace Bypass

/-! ## The machine -/

/-- What git is on each device, and the peer id of the device. -/
structure Devices (ι : Type) where
  git : ι → Git
  id : ι → Str

/-- A device syncs with another; or its repository becomes one whose branch has grown. -/
inductive NetEvent (ι : Type) where
  | sync (i j : ι)
  | work (i : ι) (r : Repo)

variable {ι : Type} [DecidableEq ι] {F : Type} (devices : Devices ι) (json : Json F)

/-- **The devices of a network**, and their repositories. -/
def network : Machine (ι → Repo) (NetEvent ι) (Except SyncError SyncReport) := fun repos event =>
  match event with
  | .sync i j =>
    if i = j then none
    else
      let out := exchange (devices.git i) (devices.git j) json (devices.id i) (devices.id j)
        (repos i) (repos j)
      some (Function.update (Function.update repos i out.2.1) j out.2.2, [out.1])
  | .work i r =>
    if ∀ c ∈ reachable (repos i).head, c ∈ reachable r.head then
      some (Function.update repos i r, [])
    else none

/-! ## Heads above heads -/

/-- The head is in the history of the other. -/
def Below (a b : Option Commit) : Prop := ∀ c ∈ a, c ∈ reachable b

theorem below_refl (a : Option Commit) : Below a a := by
  rintro c rfl
  exact Merkle.mem_history_self c

theorem below_none (b : Option Commit) : Below none b :=
  fun c hc => absurd hc (Option.not_mem_none c)

theorem Below.reachable {a b : Option Commit} (h : Below a b) {c : Commit}
    (hc : c ∈ Bypass.reachable a) : c ∈ Bypass.reachable b := by
  cases a with
  | none => cases hc
  | some x =>
    have hx := h x rfl
    cases b with
    | none => cases hx
    | some y => exact Merkle.history_trans hc hx

theorem below_iff {a b : Option Commit} : Below a b ↔ ∀ c ∈ reachable a, c ∈ reachable b := by
  constructor
  · exact fun h c hc => h.reachable hc
  · rintro h c rfl
    exact h c (Merkle.mem_history_self c)

theorem Below.trans {a b c : Option Commit} (h : Below a b) (h' : Below b c) : Below a c :=
  fun x hx => h'.reachable (h x hx)

/-- Two heads that are below each other are one. -/
theorem Below.antisymm {a b : Option Commit} (h : Below a b) (h' : Below b a) : a = b := by
  cases a with
  | none =>
    cases b with
    | none => rfl
    | some y => cases h' y rfl
  | some x =>
    cases b with
    | none => cases h x rfl
    | some y => exact congrArg some (Merkle.history_antisymm (h x rfl) (h' y rfl))

/-! ## History is kept -/

/-- A reset that fails does not move the branch. -/
def ResetsWhole (git : Git) : Prop :=
  ∀ target r e, git.fault (.resetHard target) r = some (.exit e) →
    (git.broken (.resetHard target) r).head = r.head

section Kept

variable {git : Git} {r r' : Repo} {tip localId remoteId : Str}

/-- A reconciliation in which the local side has not the lower id keeps what is on the branch. -/
theorem Reconciled.keeps {res : Except SyncError SyncAction} (hwhole : ResetsWhole git)
    (hid : compare localId remoteId ≠ .lt)
    (h : Reconciled git (headText r) tip localId remoteId r res r') : Below r.head r'.head := by
  cases h with
  | failed _ => exact below_refl _
  | adopted hnone _ =>
    have hhead : r.head = none := by simpa [headText] using hnone
    rw [hhead]
    exact below_none _
  | same _ _ _ => exact below_refl _
  | @ahead h l p r' hlocal hheads hne hahead hreset =>
    obtain ⟨lo, po, -, hpo, -, hp⟩ := id hheads
    obtain ⟨c, hc, hhead⟩ := resetTo_ok hreset
    obtain rfl : p = c := Option.some.inj ((git.rev_fromStr hpo hp).symm.trans hc)
    rw [hheads.local hlocal, hhead]
    exact fun c hc => Option.some.inj hc ▸ hahead
  | behind _ _ _ _ _ => exact below_refl _
  | rebased _ _ _ hlt _ => exact absurd hlt hid
  | awaits _ _ _ _ => exact below_refl _
  | resetFailed _ _ hfailed =>
    rcases hfailed with rfl | ⟨e, hfault, rfl⟩
    · exact below_refl _
    · rw [hwhole _ _ _ hfault]
      exact below_refl _
  | rebaseFailed _ _ _ hlt _ _ => exact absurd hlt hid

theorem Ingested.head {bytes : Bytes} (h : Ingested git bytes r r') : r'.head = r.head := by
  rcases h with ⟨-, rfl⟩ | ⟨-, hstore⟩
  · rfl
  · obtain ⟨cs, -, hstore⟩ := Option.bind_eq_some_iff.1 hstore
    exact (Repo.store_eq_some hstore).2.1

/-- So does a whole sync, whatever the peer answers. -/
theorem Synced.keeps {json : Json F} {request : F → Except Str F}
    {res : Except SyncError SyncReport} (hwhole : ResetsWhole git)
    (hid : compare localId remoteId ≠ .lt)
    (h : Synced git json request localId remoteId r res r') : Below r.head r'.head := by
  cases h with
  | failed _ => exact below_refl _
  | nothing _ _ => exact below_refl _
  | already _ _ => exact below_refl _
  | auditFailed _ hin _ =>
    rw [hin.head]
    exact below_refl _
  | rejected _ hin _ _ =>
    rw [hin.head]
    exact below_refl _
  | @reconciled _ _ r₁ _ _ _ _ _ _ hin _ hrec =>
    have htext : headText r = headText r₁ := by rw [headText, headText, hin.head]
    rw [htext] at hrec
    have hkeeps := hrec.keeps hwhole hid
    rwa [hin.head] at hkeeps

end Kept

variable {devices json}

open Machine

variable {s t u : ι → Repo} {run run₁ run₂ : List (Move (ι → Repo) (NetEvent ι) (Except SyncError SyncReport))}
  {x : Move (ι → Repo) (NetEvent ι) (Except SyncError SyncReport)}

/-- What a sync of the network does: the repository of the device that asks is the one after the
exchange, and no other one changes. -/
theorem network_sync {i j : ι} (h : (network devices json).Makes x) (hevent : x.event = .sync i j) :
    i ≠ j ∧ x.after i = (exchange (devices.git i) (devices.git j) json (devices.id i)
        (devices.id j) (x.before i) (x.before j)).2.1 ∧
      (∀ k, k ≠ i → x.after k = x.before k) ∧
      x.outputs = [(exchange (devices.git i) (devices.git j) json (devices.id i)
        (devices.id j) (x.before i) (x.before j)).1] := by
  unfold Makes network at h
  rw [hevent] at h
  dsimp only at h
  split_ifs at h with heq
  obtain ⟨hafter, houtputs⟩ := Prod.mk.inj (Option.some.inj h)
  rw [exchange_served] at hafter
  refine ⟨heq, ?_, fun k hk => ?_, houtputs.symm⟩
  · rw [← hafter, Function.update_of_ne heq, Function.update_self]
  · rw [← hafter]
    by_cases hkj : k = j
    · rw [hkj, Function.update_self]
    · rw [Function.update_of_ne hkj, Function.update_of_ne hk]

/-- One event keeps what is on the branch of a device, unless the device syncs with one of a greater
id. -/
theorem network_move_keeps (hwhole : ∀ i, ResetsWhole (devices.git i))
    (h : (network devices json).Makes x) (i : ι)
    (hid : ∀ j, x.event = .sync i j → compare (devices.id i) (devices.id j) ≠ .lt) :
    Below (x.before i).head (x.after i).head := by
  cases hevent : x.event with
  | sync k j =>
    obtain ⟨-, hself, hothers, -⟩ := network_sync h hevent
    by_cases hk : i = k
    · subst hk
      have hsynced := syncWithPeer_alone (devices.git i) json
        (requestTo (devices.git j) json (x.before j)) (devices.id i) (devices.id j) (x.before i)
      rw [hself]
      exact hsynced.keeps (hwhole i) (hid j hevent)
    · rw [hothers i hk]
      exact below_refl _
  | work k r =>
    unfold Makes network at h
    rw [hevent] at h
    dsimp only at h
    split_ifs at h with hgrown
    obtain ⟨hafter, -⟩ := Prod.mk.inj (Option.some.inj h)
    rw [← hafter]
    by_cases hk : i = k
    · subst hk
      rw [Function.update_self]
      exact below_iff.2 hgrown
    · rw [Function.update_of_ne hk]
      exact below_refl _

/-- **A network keeps its history.** In every run, with any syncs and any work in between: what is
on the branch of a device stays there at every event that is not a sync of this device with one of a
greater id; and if the device has the greatest id, nothing that was ever on its branch leaves it. -/
theorem network_keeps_history (hwhole : ∀ i, ResetsWhole (devices.git i))
    (h : Runs (network devices json) s run t) :
    (∀ x ∈ run, ∀ i, (∀ j, x.event = .sync i j → compare (devices.id i) (devices.id j) ≠ .lt) →
      ∀ c ∈ reachable (x.before i).head, c ∈ reachable (x.after i).head) ∧
    ∀ top, (∀ i, compare (devices.id top) (devices.id i) ≠ .lt) →
      ∀ x ∈ run, ∀ c ∈ reachable (x.before top).head, c ∈ reachable (t top).head := by
  refine ⟨fun x hx i hid => below_iff.1 (network_move_keeps hwhole (h.makes x hx) i hid), ?_⟩
  intro top htop x hx
  obtain ⟨rest, -, hrest⟩ := h.rest x hx
  have hmove := network_move_keeps hwhole (h.makes x hx) top fun j _ => htop j
  have hstep (y : Move (ι → Repo) (NetEvent ι) (Except SyncError SyncReport))
      (hy : (network devices json).Makes y) (_ : True)
      (hbelow : Below (x.before top).head (y.before top).head) :
      Below (x.before top).head (y.after top).head :=
    hbelow.trans (network_move_keeps hwhole hy top fun j _ => htop j)
  exact below_iff.1 (hrest.invariant (I := fun repos => Below (x.before top).head (repos top).head)
    hstep (fun _ _ => trivial) hmove)

/-! ## Two sweeps of a hub -/

/-- Nothing hinders the sync: the exchange finds no fault, what came is clean, and a rebase that is
called for succeeds. -/
structure Smooth (devices : Devices ι) (json : Json F)
    (x : Move (ι → Repo) (NetEvent ι) (Except SyncError SyncReport)) : Prop where
  unhindered : ∀ i j, x.event = .sync i j →
    Unhindered (devices.git i) (devices.git j) (x.before i) (x.before j)
  clean : ∀ issues ph, .ok ⟨.rejectedLeak issues, ph⟩ ∉ x.outputs
  rebases : ∀ i j, x.event = .sync i j → ∀ r₁ a b, Ingested (devices.git i)
    ((devices.git j).packOf (served (x.before j) none)) (x.before i) r₁ →
    (x.before i).head = some a → (x.before j).head = some b → Diverged a b →
    ((devices.git i).rebaseTo b.sha.hex r₁).1 = .ok ()

/-- A reconciliation that succeeds with a local head in the peer's history takes the peer's. -/
theorem Reconciled.caught_up {git : Git} {r r' : Repo} {b : Commit} {localId remoteId : Str}
    {action : SyncAction} (hb : b ∈ r.odb.commits) (hbelow : Below r.head (some b))
    (h : Reconciled git (headText r) b.sha.hex localId remoteId r (.ok action) r') :
    r'.head = some b := by
  have hreset : ∀ r', git.resetTo b.sha.hex r = (.ok (), r') → r'.head = some b := by
    intro r' hto
    obtain ⟨c, hc, hhead⟩ := resetTo_ok hto
    rw [hhead, ← hc, git.rev_mem_sha hb]
  -- the heads are those of the two branches, and the local one is in the history of the other
  have hahead : ∀ {hd l p}, headText r = some hd → Heads r hd b.sha.hex l p → l ∈ p.history := by
    intro hd l p hlocal hheads
    rw [hheads.peer hb]
    exact hbelow l (hheads.local hlocal)
  cases h with
  | adopted _ hto => exact hreset _ hto
  | same hlocal ho hpo =>
    obtain rfl := Option.some.inj ((Oid.fromStr_hex b.sha).symm.trans hpo)
    have hlookup := Odb.lookup_eq_some.2 ⟨hb, rfl⟩
    exact Heads.local hlocal ⟨b.sha, b.sha, ho, Oid.fromStr_hex b.sha, hlookup, hlookup⟩
  | ahead _ _ _ _ hto => exact hreset _ hto
  | behind hlocal hheads _ hnot _ => exact absurd (hahead hlocal hheads) hnot
  | rebased hlocal hheads hdiv _ _ => exact absurd (hahead hlocal hheads) hdiv.1
  | awaits hlocal hheads hdiv _ => exact absurd (hahead hlocal hheads) hdiv.1

/-- **A sync of the network where nothing hinders it**: it succeeds and settles the branch of the
device that asks; and if that was behind, it comes to the head of the other. -/
theorem network_settled {i j : ι} (h : (network devices json).Makes x) (hsmooth : Smooth devices json x)
    (hevent : x.event = .sync i j) :
    (∃ report, x.outputs = [.ok report]) ∧
      (match (x.before j).head with
        | none => (x.after i).head = (x.before i).head
        | some b => Settled (devices.id i) (devices.id j) b (x.before i).head (x.after i).head) ∧
      (Below (x.before i).head (x.before j).head → (x.after i).head = (x.before j).head) := by
  obtain ⟨-, hself, -, houtputs⟩ := network_sync h hevent
  have hunhindered := hsmooth.unhindered i j hevent
  have hclean : ∀ issues ph, (exchange (devices.git i) (devices.git j) json (devices.id i)
      (devices.id j) (x.before i) (x.before j)).1 ≠ .ok ⟨.rejectedLeak issues, ph⟩ := by
    intro issues ph heq
    refine hsmooth.clean issues ph ?_
    rw [houtputs, heq]
    exact List.mem_singleton_self _
  obtain ⟨⟨report, hreport⟩, hsettled⟩ := exchange_settled json (devices.id i) (devices.id j)
    hunhindered hclean (hsmooth.rebases i j hevent)
  rw [← hself] at hsettled
  refine ⟨⟨report, by rw [houtputs, hreport]⟩, hsettled, fun hbelow => ?_⟩
  cases hb : (x.before j).head with
  | none =>
    rw [hb] at hsettled hbelow
    exact hsettled.trans (hbelow.antisymm (below_none _))
  | some b =>
    obtain ⟨r₁, res, hhead, hmem, -, -, hrec, hres⟩ : ∃ r₁ res, _ ∧ _ ∧ _ ∧ _ ∧
        Reconciled (devices.git i) (headText (x.before i)) b.sha.hex (devices.id i) (devices.id j) r₁
          res _ ∧ _ :=
      exchange_reconciled json hunhindered hb hclean
    rw [hreport] at hres
    cases res with
    | error e => cases hres
    | ok action =>
      have htext : headText (x.before i) = headText r₁ := by rw [headText, headText, hhead]
      rw [htext] at hrec
      rw [hself]
      refine hrec.caught_up hmem ?_
      rwa [hhead, ← hb]

section Hub

variable {hub : ι} (hid : ∀ i, i ≠ hub → compare (devices.id i) (devices.id hub) = .lt)

/-- The events of a hub: another device syncs with it, or it syncs with another one. -/
def HubEvent (hub : ι) (event : NetEvent ι) : Prop :=
  ∃ i, i ≠ hub ∧ (event = .sync i hub ∨ event = .sync hub i)

include hid

/-- A device that asks the hub is then above it. -/
theorem pull_above {i : ι} (h : (network devices json).Makes x) (hsmooth : Smooth devices json x)
    (hi : i ≠ hub) (hevent : x.event = .sync i hub) :
    Below (x.before hub).head (x.after i).head := by
  obtain ⟨-, hsettled, -⟩ := network_settled h hsmooth hevent
  cases hb : (x.before hub).head with
  | none => exact below_none _
  | some b =>
    rw [hb] at hsettled
    rintro c ⟨⟩
    cases hsettled with
    | peer hhead _ =>
      rw [hhead]
      exact Merkle.mem_history_self b
    | above a ha hhead hba =>
      rw [hhead, ha]
      exact hba
    | rebased t _ hhead hbt =>
      rw [hhead]
      exact hbt
    | waits _ hlt _ _ _ => exact absurd (hid i hi) hlt

/-- A hub that asks comes to the head of a device that is above it, or stays where it is. -/
theorem hub_asks {i : ι} (h : (network devices json).Makes x) (hsmooth : Smooth devices json x)
    (hi : i ≠ hub) (hevent : x.event = .sync hub i) :
    Below (x.before hub).head (x.before i).head ∧ (x.after hub).head = (x.before i).head ∨
      (x.after hub).head = (x.before hub).head := by
  obtain ⟨-, hsettled, -⟩ := network_settled h hsmooth hevent
  cases hb : (x.before i).head with
  | none =>
    rw [hb] at hsettled
    exact Or.inr hsettled
  | some b =>
    rw [hb] at hsettled
    cases hsettled with
    | peer hhead hold => exact Or.inl ⟨hold, hhead⟩
    | above _ _ hhead _ => exact Or.inr hhead
    | rebased _ hlt _ _ =>
      have hswap : compare (devices.id hub) (devices.id i) =
          (compare (devices.id i) (devices.id hub)).swap := Std.OrientedCmp.eq_swap
      rw [hswap, hid i hi] at hlt
      cases hlt
    | waits _ _ _ hhead _ => exact Or.inr hhead

/-- The hub never leaves what it has. -/
theorem hub_grows (h : (network devices json).Makes x) (hsmooth : Smooth devices json x)
    (hevent : HubEvent hub x.event) : Below (x.before hub).head (x.after hub).head := by
  obtain ⟨i, hi, hevent | hevent⟩ := hevent
  · obtain ⟨-, -, hothers, -⟩ := network_sync h hevent
    rw [hothers hub (Ne.symm hi)]
    exact below_refl _
  · rcases hub_asks hid h hsmooth hi hevent with ⟨hbelow, hhead⟩ | hhead
    · rwa [hhead]
    · rw [hhead]
      exact below_refl _

/-- A device whose head is below the hub's stays below it. -/
theorem below_hub_kept {i : ι} (h : (network devices json).Makes x)
    (hsmooth : Smooth devices json x) (hevent : HubEvent hub x.event)
    (hbelow : Below (x.before i).head (x.before hub).head) :
    Below (x.after i).head (x.after hub).head := by
  have hgrows := hub_grows hid h hsmooth hevent
  obtain ⟨k, hk, hsync | hsync⟩ := hevent
  · by_cases hik : i = k
    · -- the device that asks comes to the head of the hub
      subst hik
      obtain ⟨-, -, hcaught⟩ := network_settled h hsmooth hsync
      rw [hcaught hbelow]
      exact hgrows
    · obtain ⟨-, -, hothers, -⟩ := network_sync h hsync
      rw [hothers i hik]
      exact hbelow.trans hgrows
  · by_cases hih : i = hub
    · rw [hih]
      exact below_refl _
    · obtain ⟨-, -, hothers, -⟩ := network_sync h hsync
      rw [hothers i hih]
      exact hbelow.trans hgrows

/-- A hub above all others stays where it is. -/
theorem hub_stays (h : (network devices json).Makes x) (hsmooth : Smooth devices json x)
    (hevent : HubEvent hub x.event) (hbelow : ∀ i, Below (x.before i).head (x.before hub).head) :
    (x.after hub).head = (x.before hub).head := by
  obtain ⟨i, hi, hevent | hevent⟩ := hevent
  · obtain ⟨-, -, hothers, -⟩ := network_sync h hevent
    rw [hothers hub (Ne.symm hi)]
  · rcases hub_asks hid h hsmooth hi hevent with ⟨habove, hhead⟩ | hhead
    · rw [hhead]
      exact (hbelow i).antisymm habove
    · exact hhead

/-! ### Sweeps -/

variable (hmeets : ∀ x ∈ run, HubEvent hub x.event ∧ Smooth devices json x)
include hmeets

theorem sweep_grows (h : Runs (network devices json) s run t) :
    Below (s hub).head (t hub).head :=
  h.invariant (I := fun repos => Below (s hub).head (repos hub).head)
    (fun _ hx hm hbelow => hbelow.trans (hub_grows hid hx hm.2 hm.1)) hmeets (below_refl _)

theorem sweep_below {i : ι} (h : Runs (network devices json) s run t)
    (hbelow : Below (s i).head (s hub).head) : Below (t i).head (t hub).head :=
  h.invariant (I := fun repos => Below (repos i).head (repos hub).head)
    (fun _ hx hm hbelow => below_hub_kept hid hx hm.2 hm.1 hbelow) hmeets hbelow

/-- A device that asked the hub, and was then asked by it, is below the hub from there on. -/
theorem sweep_merges {i : ι} (h : Runs (network devices json) s run t) (hi : i ≠ hub)
    (hpair : [.sync i hub, .sync hub i] <:+: run.map Move.event) :
    Below (t i).head (t hub).head := by
  obtain ⟨pre, post, hevents⟩ := hpair
  obtain ⟨run', post', rfl, hrun', -⟩ := List.map_eq_append_iff.1 hevents.symm
  obtain ⟨pre', pair, rfl, -, hpair⟩ := List.map_eq_append_iff.1 hrun'
  obtain ⟨x, rest, rfl, hx, hrest⟩ := List.map_eq_cons_iff.1 hpair
  obtain ⟨y, rest', rfl, hy, hnil⟩ := List.map_eq_cons_iff.1 hrest
  obtain rfl := List.map_eq_nil_iff.1 hnil
  simp only [List.append_assoc, List.cons_append, List.nil_append] at h hmeets
  obtain ⟨-, hxmakes, hafter⟩ := h.split
  have hxmeets := hmeets x (by simp)
  have hymeets := hmeets y (by simp)
  have habove := pull_above hid hxmakes hxmeets.2 hi hx
  obtain ⟨-, -, hothers, -⟩ := network_sync hxmakes hx
  rw [← hothers hub (Ne.symm hi)] at habove
  generalize x.after = v at hafter habove
  cases hafter with
  | cons hymakes hlast =>
    obtain ⟨-, -, hcaught⟩ := network_settled hymakes hymeets.2 hy
    obtain ⟨-, -, hothers', -⟩ := network_sync hymakes hy
    refine sweep_below hid (fun z hz => hmeets z (by simp [hz])) hlast ?_
    rw [hothers' i hi, hcaught habove]
    exact below_refl _

/-- Where all are below the hub, each device that asks it comes to its head, which stays. -/
theorem sweep_meets (h : Runs (network devices json) s run t)
    (hbelow : ∀ i, Below (s i).head (s hub).head) :
    (t hub).head = (s hub).head ∧
      ∀ i, i ≠ hub → .sync i hub ∈ run.map Move.event → (t i).head = (s hub).head := by
  have hmove (y : Move (ι → Repo) (NetEvent ι) (Except SyncError SyncReport))
      (hy : (network devices json).Makes y)
      (hm : HubEvent hub y.event ∧ Smooth devices json y)
      (hI : (y.before hub).head = (s hub).head ∧ ∀ i, Below (y.before i).head (y.before hub).head) :
      ((y.after hub).head = (s hub).head ∧ ∀ i, Below (y.after i).head (y.after hub).head) ∧
        ∀ i, (y.before i).head = (s hub).head ∨ y.event = .sync i hub →
          (y.after i).head = (s hub).head := by
    obtain ⟨hstay, hall⟩ := hI
    have hstays := (hub_stays hid hy hm.2 hm.1 hall).trans hstay
    refine ⟨⟨hstays, fun i => below_hub_kept hid hy hm.2 hm.1 (hall i)⟩, fun i hcase => ?_⟩
    by_cases hevent : y.event = .sync i hub
    · obtain ⟨-, -, hcaught⟩ := network_settled hy hm.2 hevent
      exact (hcaught (hall i)).trans hstay
    · have hhead := hcase.resolve_right hevent
      by_cases hih : i = hub
      · rw [hih]
        exact hstays
      · obtain ⟨k, hk, hsync | hsync⟩ := hm.1
        · obtain ⟨-, -, hothers, -⟩ := network_sync hy hsync
          rw [hothers i fun heq => hevent (heq ▸ hsync)]
          exact hhead
        · obtain ⟨-, -, hothers, -⟩ := network_sync hy hsync
          rw [hothers i hih]
          exact hhead
  obtain ⟨⟨hstays, -⟩, hmoves⟩ := h.induct
    (I := fun repos => (repos hub).head = (s hub).head ∧
      ∀ i, Below (repos i).head (repos hub).head) hmove hmeets ⟨rfl, hbelow⟩
  refine ⟨hstays, fun i hi hasked => ?_⟩
  obtain ⟨x, hx, hevent⟩ := List.mem_map.1 hasked
  obtain ⟨-, ⟨hhub, hall⟩, hP⟩ := hmoves x hx
  obtain ⟨rest, hmem, hrest⟩ := h.rest x hx
  -- from the event on, the device stays at the head of the hub
  have hend := hrest.invariant
    (I := fun repos => ((repos hub).head = (s hub).head ∧
      ∀ i, Below (repos i).head (repos hub).head) ∧ (repos i).head = (s hub).head)
    (fun y hy hm hI => by
      obtain ⟨hkept, hat⟩ := hmove y hy hm hI.1
      exact ⟨hkept, hat i (Or.inl hI.2)⟩)
    (fun y hy => hmeets y (hmem y hy)) ⟨⟨hhub, hall⟩, hP i (Or.inr hevent)⟩
  exact hend.2

end Hub

/-- **A network converges on its hub.** The hub has the greatest id, and every event is a sync of
the hub with another device, one way or the other; nothing hinders them. In the first sweep each
other device at some point asks the hub and is then asked by it, and in the second one each asks the
hub; else they come in any order, and as often as they like. At the end all devices have one head,
every sync has succeeded, and what the hub had on its branch is still there. -/
theorem network_converges {hub : ι}
    (hid : ∀ i, i ≠ hub → compare (devices.id i) (devices.id hub) = .lt)
    (h₁ : Runs (network devices json) s run₁ t) (h₂ : Runs (network devices json) t run₂ u)
    (hhub : ∀ x ∈ run₁ ++ run₂, HubEvent hub x.event)
    (hsmooth : ∀ x ∈ run₁ ++ run₂, Smooth devices json x)
    (hfirst : ∀ i, i ≠ hub → [.sync i hub, .sync hub i] <:+: run₁.map Move.event)
    (hsecond : ∀ i, i ≠ hub → .sync i hub ∈ run₂.map Move.event) :
    (∀ i, (u i).head = (u hub).head) ∧ (∀ x ∈ run₁ ++ run₂, ∃ report, x.outputs = [.ok report]) ∧
      ∀ c ∈ reachable (s hub).head, c ∈ reachable (u hub).head := by
  have hmeets₁ : ∀ x ∈ run₁, HubEvent hub x.event ∧ Smooth devices json x := fun x hx =>
    ⟨hhub x (List.mem_append_left _ hx), hsmooth x (List.mem_append_left _ hx)⟩
  have hmeets₂ : ∀ x ∈ run₂, HubEvent hub x.event ∧ Smooth devices json x := fun x hx =>
    ⟨hhub x (List.mem_append_right _ hx), hsmooth x (List.mem_append_right _ hx)⟩
  have hmerged : ∀ i, Below (t i).head (t hub).head := by
    intro i
    by_cases hi : i = hub
    · rw [hi]
      exact below_refl _
    · exact sweep_merges hid hmeets₁ h₁ hi (hfirst i hi)
  obtain ⟨hstays, hmet⟩ := sweep_meets hid hmeets₂ h₂ hmerged
  refine ⟨fun i => ?_, fun x hx => ?_, ?_⟩
  · by_cases hi : i = hub
    · rw [hi]
    · rw [hmet i hi (hsecond i hi), hstays]
  · obtain ⟨i, -, hevent | hevent⟩ := hhub x hx <;>
      exact (network_settled ((h₁.append h₂).makes x hx) (hsmooth x hx) hevent).1
  · exact below_iff.1 ((sweep_grows hid hmeets₁ h₁).trans (sweep_grows hid hmeets₂ h₂))

/-! ## Three devices -/

/-- A tablet, a laptop and a server, which is the hub. -/
inductive Office where
  | tablet
  | laptop
  | server
  deriving DecidableEq

def officeId : Office → Str
  | .tablet => "A".toList
  | .laptop => "B".toList
  | .server => "C".toList

def office : Devices Office := ⟨fun _ => meetGit, officeId⟩

/-- The tablet is a copy of the server, and the laptop has a commit of its own. -/
def officeStart : Office → Repo
  | .tablet => meetB
  | .laptop => meetA
  | .server => meetB

/-- The move that a sync makes. -/
def syncMove (repos : Office → Repo) (i j : Office) :
    Move (Office → Repo) (NetEvent Office) (Except SyncError SyncReport) :=
  let out := exchange meetGit meetGit plainJson (officeId i) (officeId j) (repos i) (repos j)
  ⟨repos, .sync i j, Function.update (Function.update repos i out.2.1) j out.2.2, [out.1]⟩

theorem makes_syncMove {repos : Office → Repo} {i j : Office} (h : i ≠ j) :
    (network office plainJson).Makes (syncMove repos i j) := if_neg h

/-- The audit found something in what came. -/
def rejects : Except SyncError SyncReport → Bool
  | .ok ⟨.rejectedLeak _, _⟩ => true
  | _ => false

/-- What a sync needs to be smooth, where git has no faults. -/
def SmoothAt (repos : Office → Repo) (i j : Office) : Prop :=
  (meetGit.packOf (served (repos j) none)).length ≤ maxPackBytes ∧
    meetGit.packOf (served (repos j) none) ≠ [] ∧
    meetGit.pack (served (repos j) none) ≠ [] ∧
    meetGit.unpack (meetGit.pack (served (repos j) none)) = some (served (repos j) none) ∧
    (∀ c ∈ (repos i).odb.commits ++ reachable (repos j).head,
      ∀ d ∈ (repos i).odb.commits ++ reachable (repos j).head, c.sha = d.sha → c = d) ∧
    (∀ a ∈ (repos i).head, ∀ b ∈ (repos j).head, a ∉ b.history → b ∉ a.history →
      ∀ r₁ ∈ (meetGit.unpack (meetGit.packOf (served (repos j) none))).bind (repos i).store,
        (meetGit.rebaseTo b.sha.hex r₁).1 = .ok ()) ∧
    ∀ r ∈ (syncMove repos i j).outputs, rejects r = false

instance (repos : Office → Repo) (i j : Office) : Decidable (SmoothAt repos i j) := by
  unfold SmoothAt
  infer_instance

theorem SmoothAt.smooth {repos : Office → Repo} {i j : Office} (h : SmoothAt repos i j) :
    Smooth office plainJson (syncMove repos i j) := by
  obtain ⟨hcap, hbytes, hpack, hunpack, hids, hrebase, hclean⟩ := h
  refine ⟨?_, fun issues ph hmem => ?_, ?_⟩
  · rintro i' j' ⟨⟩
    exact ⟨fun _ _ => rfl, fun _ _ => rfl, hcap, fun _ => ⟨hpack, hunpack⟩, hids⟩
  · cases hclean _ hmem
  · rintro i' j' ⟨⟩ r₁ a b hin ha hb hdiv
    rcases hin with ⟨hnil, -⟩ | ⟨-, hstore⟩
    · exact absurd hnil hbytes
    · exact hrebase a ha b hb hdiv.1 hdiv.2 r₁ hstore

/-- The repositories after the syncs of a list. -/
def afterSyncs (repos : Office → Repo) : List (Office × Office) → Office → Repo
  | [] => repos
  | (i, j) :: rest => afterSyncs (syncMove repos i j).after rest

/-- The moves of a list of syncs. -/
def syncMoves (repos : Office → Repo) : List (Office × Office) →
    List (Move (Office → Repo) (NetEvent Office) (Except SyncError SyncReport))
  | [] => []
  | (i, j) :: rest => syncMove repos i j :: syncMoves (syncMove repos i j).after rest

/-- Every sync of the list is smooth. -/
def AllSmooth (repos : Office → Repo) : List (Office × Office) → Prop
  | [] => True
  | (i, j) :: rest => i ≠ j ∧ SmoothAt repos i j ∧ AllSmooth (syncMove repos i j).after rest

instance decidableAllSmooth (repos : Office → Repo) :
    (syncs : List (Office × Office)) → Decidable (AllSmooth repos syncs)
  | [] => inferInstanceAs (Decidable True)
  | (i, j) :: rest =>
    have := decidableAllSmooth (syncMove repos i j).after rest
    inferInstanceAs (Decidable (i ≠ j ∧ SmoothAt repos i j ∧
      AllSmooth (syncMove repos i j).after rest))

theorem AllSmooth.runs {repos : Office → Repo} {syncs : List (Office × Office)}
    (h : AllSmooth repos syncs) : Runs (network office plainJson) repos (syncMoves repos syncs)
      (afterSyncs repos syncs) ∧ ∀ x ∈ syncMoves repos syncs, Smooth office plainJson x := by
  induction syncs generalizing repos with
  | nil => exact ⟨.nil _, fun x hx => absurd hx List.not_mem_nil⟩
  | cons sync rest ih =>
    obtain ⟨hne, hsmooth, hrest⟩ := h
    obtain ⟨hruns, hall⟩ := ih hrest
    exact ⟨.cons (makes_syncMove hne) hruns, List.forall_mem_cons.2 ⟨hsmooth.smooth, hall⟩⟩

theorem map_syncMoves (repos : Office → Repo) (syncs : List (Office × Office)) :
    (syncMoves repos syncs).map Move.event = syncs.map fun p => .sync p.1 p.2 := by
  induction syncs generalizing repos with
  | nil => rfl
  | cons sync rest ih => exact congrArg _ (ih _)

def firstSweep : List (Office × Office) :=
  [(.tablet, .server), (.server, .tablet), (.laptop, .server), (.server, .laptop)]

def secondSweep : List (Office × Office) := [(.laptop, .server), (.tablet, .server)]

theorem firstSweep_smooth : AllSmooth officeStart firstSweep := by decide +kernel

theorem secondSweep_smooth : AllSmooth (afterSyncs officeStart firstSweep) secondSweep := by
  decide +kernel

theorem office_below_server (i : Office) (hi : i ≠ .server) :
    compare (office.id i) (office.id .server) = .lt := by
  cases i with
  | tablet => decide
  | laptop => decide
  | server => exact absurd rfl hi

theorem network_keeps_history_office :
    (∀ x ∈ syncMoves officeStart firstSweep, ∀ i,
      (∀ j, x.event = .sync i j → compare (office.id i) (office.id j) ≠ .lt) →
        ∀ c ∈ reachable (x.before i).head, c ∈ reachable (x.after i).head) ∧
      ∀ top, (∀ i, compare (office.id top) (office.id i) ≠ .lt) →
        ∀ x ∈ syncMoves officeStart firstSweep, ∀ c ∈ reachable (x.before top).head,
          c ∈ reachable (afterSyncs officeStart firstSweep top).head :=
  network_keeps_history (fun _ _ _ _ h => nomatch h) firstSweep_smooth.runs.1

/-- The events of the two sweeps. -/
theorem sweeps_hub {x : Move (Office → Repo) (NetEvent Office) (Except SyncError SyncReport)}
    {repos repos' : Office → Repo}
    (hx : x ∈ syncMoves repos firstSweep ++ syncMoves repos' secondSweep) :
    HubEvent .server x.event := by
  have hevent := List.mem_map_of_mem (f := Move.event) hx
  rw [List.map_append, map_syncMoves, map_syncMoves] at hevent
  simp only [firstSweep, secondSweep, List.map_cons, List.map_nil, List.cons_append,
    List.nil_append, List.mem_cons, List.not_mem_nil, or_false] at hevent
  rcases hevent with h | h | h | h | h | h <;> rw [h] <;> simp [HubEvent]

theorem network_converges_office :
    (∀ i, (afterSyncs (afterSyncs officeStart firstSweep) secondSweep i).head =
        (afterSyncs (afterSyncs officeStart firstSweep) secondSweep .server).head) ∧
      (∀ x ∈ syncMoves officeStart firstSweep ++
          syncMoves (afterSyncs officeStart firstSweep) secondSweep,
        ∃ report, x.outputs = [.ok report]) ∧
      ∀ c ∈ reachable (officeStart .server).head,
        c ∈ reachable (afterSyncs (afterSyncs officeStart firstSweep) secondSweep .server).head := by
  have hpairs (i : Office) (hi : i ≠ .server) : [NetEvent.sync i .server, .sync .server i] <:+:
      (syncMoves officeStart firstSweep).map Move.event := by
    rw [map_syncMoves]
    cases i with
    | tablet => exact ⟨[], [.sync .laptop .server, .sync .server .laptop], rfl⟩
    | laptop => exact ⟨[.sync .tablet .server, .sync .server .tablet], [], rfl⟩
    | server => exact absurd rfl hi
  have hlast (i : Office) (hi : i ≠ .server) : NetEvent.sync i .server ∈
      (syncMoves (afterSyncs officeStart firstSweep) secondSweep).map Move.event := by
    rw [map_syncMoves]
    cases i with
    | tablet => simp [secondSweep]
    | laptop => simp [secondSweep]
    | server => exact absurd rfl hi
  exact network_converges office_below_server firstSweep_smooth.runs.1 secondSweep_smooth.runs.1
    (fun x hx => sweeps_hub hx) (fun x hx => (List.mem_append.1 hx).elim
      (firstSweep_smooth.runs.2 x) (secondSweep_smooth.runs.2 x)) hpairs hlast

end Bypass
