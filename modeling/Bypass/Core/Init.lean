import Bypass.Core.Recipients

/-!
# Initialising a store

`Store::init` writes the recipients of the root, adds the rule for ciphertexts to `.gitattributes`,
and commits. It looks at no entry: it can be called on a store that has some, and then changes the
recipients in force for those that take them from the root.

* `init_wrote`: the only files that it changes, however it ends.
* `recipientsIn_update_root`: who is concerned by a new recipients file at the root.
* `RecipientsHeld.init`: when it keeps every entry encrypted to its recipients.
-/

namespace Bypass

/-! ## Attributes -/

/-- `GITATTRIBUTES_RULE`. -/
def gitattributesRule : Str := "*.gpg binary merge=bypass-take-theirs\n".toList

/-- `str::split_whitespace`. -/
def splitWhitespace (s : Str) : List Str := (s.splitOnP isWhitespace).filter (· ≠ [])

/-- One line of `has_gpg_binary_rule`. -/
def isGpgBinaryRule (line : Str) : Bool :=
  let line := trim line
  if line = [] ∨ line.head? = some '#' then false
  else match splitWhitespace line with
    | [] => false
    | pattern :: parts => pattern = "*.gpg".toList && parts.any (· = "binary".toList)

/-- `has_gpg_binary_rule`. -/
def hasGpgBinaryRule (body : Bytes) : Bool :=
  match utf8Decode? body with
  | none => false
  | some text => (lines text).any isGpgBinaryRule

/-- The content that `install_gitattributes` writes over `existing`. -/
def withGpgRule (existing : Bytes) : Bytes :=
  let newBody := match existing.getLast? with
    | some last => if last = 0x0A then existing else existing ++ [0x0A]
    | none => existing
  newBody ++ utf8Encode gitattributesRule

/-- The content of `.gpg-id`: one recipient a line, as given. -/
def gpgIdBody (recipients : List KeyId) : Bytes :=
  utf8Encode (recipients.flatMap fun r => r.str ++ ['\n'])

namespace Store

variable {W CE SE VE : Type} (store : Store W CE SE VE)

/-- `Store::install_gitattributes`. -/
def installGitattributes : StoreM W CE SE VE Bool := do
  let existing := (← (store.storage.read gitattributesPath).mapErr .storage).getD []
  if hasGpgBinaryRule existing then pure false
  else
    (store.storage.write gitattributesPath (withGpgRule existing)).mapErr .storage
    pure true

/-- `Store::init`; `vcsInit` is `VersionControl::init`. -/
def init (vcsInit : Prog (Event CE SE VE) W VE Unit) (recipients : List KeyId) :
    StoreM W CE SE VE Unit := do
  if recipients = [] then throw (.gpgIdMalformed "no recipients".toList)
  else
    (store.storage.write gpgIdPath (gpgIdBody recipients)).mapErr .storage
    let attrsChanged ← store.installGitattributes
    vcsInit.mapErr .vcs
    let paths := if attrsChanged then [gpgIdPath, gitattributesPath] else [gpgIdPath]
    (store.vcs.commit paths "bypass: initialise store".toList).mapErr .vcs

end Store

/-! ## What it changes -/

/-- From `f` to `g`, no file has changed but the recipients of the root, to those given, and the
attributes. -/
structure InitWrote (recipients : List KeyId) (f g : Files) : Prop where
  frame : ∀ q, q ≠ gpgIdPath → q ≠ gitattributesPath → g q = f q
  root : g gpgIdPath = f gpgIdPath ∨
    recipients ≠ [] ∧ g gpgIdPath = some (gpgIdBody recipients)

theorem gpgIdIn_ne_gitattributesPath (d : Option RelPath) : gpgIdIn d ≠ gitattributesPath := by
  intro h
  have hlast : (gpgIdIn d).str.getLast? = some 'd' := by
    cases d with
    | none => decide
    | some p => simp [gpgIdIn]
  rw [h] at hlast
  exact absurd hlast (by decide)

theorem gpgIdIn_some_ne_gpgIdPath (d : RelPath) : gpgIdIn (some d) ≠ gpgIdPath := by
  intro h
  have hlen : (gpgIdIn (some d)).str.length = gpgIdPath.str.length := by rw [h]
  have hroot : gpgIdPath.str.length = 7 := by decide
  simp [gpgIdIn, hroot] at hlen

section Spec

variable {W CE SE VE : Type} {store : Store W CE SE VE} {files : W → Files}

theorem installGitattributes_frame (h : OnMap store files) (s : W) :
    store.installGitattributes.wp
      (fun _ _ t => ∀ q, q ≠ gitattributesPath → files t q = files s q) s := by
  have hread : Asks files ((store.storage.read gitattributesPath : Prog (Event CE SE VE) W SE _).mapErr
      (.storage : SE → StoreError CE SE VE)) s (fun _ => True) fun v _ => v = files s _ :=
    (asks_read h).mapErr
  refine Prog.wp_bind.2 (Prog.wp_mono hread fun r tr t ⟨_, ht, _⟩ => ?_)
  cases r with
  | error e => exact fun q _ => congrFun ht q
  | ok v =>
    dsimp only
    split_ifs with hrule
    · exact fun q _ => congrFun ht q
    · refine Prog.wp_bind.2 (Prog.wp_mono
        (change_spec h (.write gitattributesPath (withGpgRule (v.getD []))) t) ?_)
      rintro r _ u ⟨call, rfl, -, -, hframe, -⟩
      have hq : ∀ q, q ≠ gitattributesPath → files u q = files s q := fun q hq =>
        (hframe q hq).trans (congrFun ht q)
      cases r <;> exact hq

/-- **What initialising changes**: if it succeeds, the recipients of the root are those given. -/
theorem init_wrote (h : OnMap store files) {vcsInit : Prog (Event CE SE VE) W VE Unit}
    (hvcs : ∀ s, vcsInit.wp (fun _ _ t => files t = files s) s) (recipients : List KeyId) (s : W) :
    (store.init vcsInit recipients).wp (fun r tr t =>
      (FaultsHarmless files tr → InitWrote recipients (files s) (files t)) ∧
        (r = .ok () → files t gpgIdPath = some (gpgIdBody recipients))) s := by
  unfold Store.init
  split_ifs with hnil
  · exact ⟨fun _ => ⟨fun _ _ _ => rfl, Or.inl rfl⟩, by simp⟩
  refine Prog.wp_bind.2 (Prog.wp_mono
    (change_spec h (.write gpgIdPath (gpgIdBody recipients)) s) ?_)
  rintro r _ u ⟨call, rfl, rfl, rfl, hframe, hfail, hok⟩
  cases r with
  | error e =>
    refine ⟨fun hf => ?_, by simp⟩
    rw [hf call (by simp) (hfail.2 ⟨e, rfl⟩)]
    exact ⟨fun _ _ _ => rfl, Or.inl rfl⟩
  | ok _ =>
    have hroot : files call.after gpgIdPath = some (gpgIdBody recipients) := by
      rw [hok rfl, Change.apply]
      exact Function.update_self ..
    -- nothing that follows changes a file but the attributes
    have hrest : ∀ t, (∀ q, q ≠ gitattributesPath → files t q = files call.after q) →
        InitWrote recipients (files call.before) (files t) ∧
          files t gpgIdPath = some (gpgIdBody recipients) := fun t ht =>
      have hbody := (ht _ (gpgIdIn_ne_gitattributesPath none)).trans hroot
      ⟨⟨fun q hq hq' => by rw [ht q hq', hframe q hq], Or.inr ⟨hnil, hbody⟩⟩, hbody⟩
    refine Prog.wp_bind.2 (Prog.wp_mono (installGitattributes_frame h call.after) ?_)
    intro r tr t ht
    cases r with
    | error e => exact ⟨fun _ => (hrest t ht).1, by simp⟩
    | ok attrsChanged =>
      refine Prog.wp_bind.2 (Prog.wp_mapErr.2 (Prog.wp_mono (hvcs t) fun r tr' t' ht' => ?_))
      cases r with
      | error e => exact ⟨fun _ => (hrest t' (by rwa [ht'])).1, by simp⟩
      | ok _ =>
        have hend := hrest (store.vcs.commitFn (if attrsChanged then [gpgIdPath, gitattributesPath]
          else [gpgIdPath]) "bypass: initialise store".toList t').2 (by rwa [h.commit_files, ht'])
        exact Prog.wp_mapErr.2 (Prog.wp_call.2 ⟨fun _ => hend.1, fun _ => hend.2⟩)

/-- **A store that has just been initialised**: a recipients file that names someone, attributes,
and nothing else. -/
structure FreshlyInitialised (SE : Type) (f : Files) : Prop where
  root : ∃ recipients rs, f gpgIdPath = some (gpgIdBody recipients) ∧
    parseGpgId (gpgIdBody recipients) = (.ok rs : Except (GpgIdError SE) _)
  only : ∀ q, q ≠ gpgIdPath → q ≠ gitattributesPath → f q = none

/-- So is what `init` leaves of a storage without files, if the recipients read back. -/
theorem freshlyInitialised_of_init (h : OnMap store files)
    {vcsInit : Prog (Event CE SE VE) W VE Unit}
    (hvcs : ∀ s, vcsInit.wp (fun _ _ t => files t = files s) s) {recipients rs : List KeyId}
    {s t : W} (hs : ∀ q, files s q = none) (hrun : (store.init vcsInit recipients).run s = (.ok (), t))
    (hf : FaultsHarmless files ((store.init vcsInit recipients).trace s))
    (hparse : parseGpgId (gpgIdBody recipients) = (.ok rs : Except (GpgIdError SE) _)) :
    FreshlyInitialised SE (files t) := by
  obtain ⟨hwrote, hroot⟩ := init_wrote h hvcs recipients s
  rw [hrun] at hwrote hroot
  exact ⟨⟨recipients, rs, hroot rfl, hparse⟩, fun q hq hq' => by rw [(hwrote hf).frame q hq hq', hs]⟩

end Spec

/-! ## Whom it concerns -/

/-- What lies in a directory lies in its parent, or in what that lies in. -/
theorem RelPath.below_iff_parent {d p : RelPath} :
    d.Below p ↔ ∃ q, p.parent = some q ∧ (d = q ∨ d.Below q) := by
  constructor
  · rintro ⟨w, hw⟩
    cases hs : rsplitOnce '/' w with
    | none =>
      refine ⟨d, RelPath.parent_eq_some.2 ⟨w, ?_, rsplitOnce_eq_none.1 hs⟩, Or.inl rfl⟩
      rw [← hw, List.append_assoc, List.singleton_append]
    | some split =>
      obtain ⟨x, y⟩ := split
      obtain ⟨rfl, hy⟩ := rsplitOnce_eq_some.1 hs
      have hp : p.str = (d.str ++ '/' :: x) ++ '/' :: y := by
        rw [← hw]
        simp
      cases hq : p.parent with
      | none => exact absurd (by rw [hp]; simp) (RelPath.parent_eq_none.1 hq)
      | some q =>
        obtain ⟨t, ht, htslash⟩ := RelPath.parent_eq_some.1 hq
        refine ⟨q, rfl, Or.inr ?_⟩
        -- the last separator of `p` is the one before `y`
        have hqs := rsplitOnce_eq_some.2 ⟨ht, htslash⟩
        rw [rsplitOnce_eq_some.2 ⟨hp, hy⟩] at hqs
        obtain ⟨hqs, -⟩ := Prod.mk.inj (Option.some.inj hqs)
        rw [RelPath.Below, ← hqs]
        exact ⟨x, by simp⟩
  · rintro ⟨q, hq, hd⟩
    obtain ⟨t, ht, -⟩ := RelPath.parent_eq_some.1 hq
    have hqp : q.Below p := ⟨t, by simp [ht]⟩
    rcases hd with rfl | hd
    · exact hqp
    · exact hd.trans ((List.prefix_append _ _).trans hqp)

/-- No directory that the entry lies in has recipients of its own. -/
def FromRoot (f : Files) (e : RelPath) : Prop := ∀ d : RelPath, d.Below e → f (gpgIdIn (some d)) = none

variable {SE : Type}

open Classical in
/-- **A new recipients file at the root** concerns what takes its recipients from there. -/
theorem recipientsFor_update_root (f : Files) (v : Option Bytes) (e : RelPath) :
    (recipientsFor (Function.update f gpgIdPath v) e : Except (GpgIdError SE) _) =
      if FromRoot f e then v.elim (.error .missing) parseGpgId else recipientsFor f e := by
  induction hn : e.str.length using Nat.strong_induction_on generalizing e with
  | _ n ih =>
    rw [recipientsFor, recipientsFor, recipientsIn.eq_def, recipientsIn.eq_def f]
    cases hp : e.parent with
    | none =>
      have hroot : FromRoot f e := fun d hd => by
        obtain ⟨q, hq, -⟩ := RelPath.below_iff_parent.1 hd
        rw [hp] at hq
        cases hq
      rw [if_pos hroot]
      simp only [gpgIdIn, Function.update_self]
      cases v <;> rfl
    | some d =>
      simp only [Function.update_of_ne (gpgIdIn_some_ne_gpgIdPath d)]
      cases hfile : f (gpgIdIn (some d)) with
      | some bytes =>
        have hroot : ¬ FromRoot f e := fun hr => by
          rw [hr d (RelPath.below_iff_parent.2 ⟨d, hp, Or.inl rfl⟩)] at hfile
          cases hfile
        rw [if_neg hroot]
      | none =>
        have hroot : FromRoot f e ↔ FromRoot f d := by
          refine ⟨fun hr q hq => hr q (RelPath.below_iff_parent.2 ⟨d, hp, Or.inr hq⟩), ?_⟩
          intro hr q hq
          obtain ⟨d', hd', hq⟩ := RelPath.below_iff_parent.1 hq
          obtain rfl := Option.some.inj (hp.symm.trans hd')
          rcases hq with rfl | hq
          · exact hfile
          · exact hr q hq
        have hstep := ih _ (hn ▸ RelPath.length_parent_lt hp) d rfl
        rw [recipientsFor, recipientsFor] at hstep
        simpa only [hroot] using hstep

/-- What an entry without recipients of its own directories takes from the root. -/
theorem FromRoot.recipientsFor {f : Files} {e : RelPath} (h : FromRoot f e) :
    (recipientsFor f e : Except (GpgIdError SE) _) =
      (f gpgIdPath).elim (.error .missing) parseGpgId := by
  have hself : (Bypass.recipientsFor (Function.update f gpgIdPath (f gpgIdPath)) e :
      Except (GpgIdError SE) _) = _ := recipientsFor_update_root f (f gpgIdPath) e
  rwa [Function.update_eq_self, if_pos h] at hself

/-! ## Entries that are there already -/

/-- These recipients can be given to a store with these files: there are none, which is refused, or
they read back as those that the root has, up to order and repetition, unless no entry takes its
recipients from the root. -/
def InitKeeps (SE : Type) (f : Files) (recipients : List KeyId) : Prop :=
  recipients ≠ [] → ∀ e c b rs, f (entryToBlob e) = some c → FromRoot f e →
    f gpgIdPath = some b → parseGpgId b = (.ok rs : Except (GpgIdError SE) _) →
      ∃ rs', parseGpgId (gpgIdBody recipients) = (.ok rs' : Except (GpgIdError SE) _) ∧
        ∀ k, k ∈ rs' ↔ k ∈ rs

/-- Any can be given to a store without a recipients file at its root. -/
theorem initKeeps_of_missing {f : Files} (h : f gpgIdPath = none) (recipients : List KeyId) :
    InitKeeps SE f recipients := by
  intro _ e c b rs _ _ hb
  rw [h] at hb
  cases hb

/-- **Such recipients keep every entry encrypted to its own.** -/
theorem RecipientsHeld.init {W CE VE : Type} {log : Trace W CE SE VE} {f g : Files}
    {recipients : List KeyId} (hinv : RecipientsHeld log f) (hwrote : InitWrote recipients f g)
    (hkeeps : InitKeeps SE f recipients) : RecipientsHeld log g := by
  intro e c hc
  rw [hwrote.frame _ (gpgIdIn_ne_entryToBlob none e).symm
    (gitattributesPath_ne_entryToBlob e).symm] at hc
  obtain ⟨rs, rs₁, hrs, hprod, hset⟩ := hinv e c hc
  -- of the recipients files, that of the root alone has changed
  have hfor : (Bypass.recipientsFor g e : Except (GpgIdError SE) _) =
      Bypass.recipientsFor (Function.update f gpgIdPath (g gpgIdPath)) e :=
    recipientsIn_congr (fun d => by
      by_cases hd : gpgIdIn d = gpgIdPath
      · rw [hd, Function.update_self]
      · rw [Function.update_of_ne hd, hwrote.frame _ hd (gpgIdIn_ne_gitattributesPath d)]) e.parent
  rw [recipientsFor_update_root] at hfor
  by_cases hroot : FromRoot f e
  · rw [if_pos hroot] at hfor
    rcases hwrote.root with hsame | ⟨hnil, hbody⟩
    · rw [hsame, ← hroot.recipientsFor, hrs] at hfor
      exact ⟨rs, rs₁, hfor, hprod, hset⟩
    · rw [Resolves, hroot.recipientsFor] at hrs
      cases hb : f gpgIdPath with
      | none =>
        rw [hb] at hrs
        cases hrs
      | some b =>
        rw [hb] at hrs
        obtain ⟨rs', hparse, hset'⟩ := hkeeps hnil e c b rs hc hroot hb hrs
        rw [hbody] at hfor
        exact ⟨rs', rs₁, hfor.trans hparse, hprod, fun k => (hset k).trans (hset' k).symm⟩
  · rw [if_neg hroot, hrs] at hfor
    exact ⟨rs, rs₁, hfor, hprod, hset⟩

end Bypass
