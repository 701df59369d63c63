import Bypass.Cli.Checkout

/-!
# History of a path

`Store::log` with a path shows the commits that touched the entry of that path or anything below it.
It hands the path of the entry's blob, `p.gpg`, to `Git2Vcs::log`, which takes for "below" the names
that start with `p.gpg/`. The entries below `p` are blobs below `p/`.

* `touchesPath_iff`: which commits the version control takes for touching a path.
* `logged_of_blob`: it finds every commit that touches the entry itself.
* `log_complete_iff`: **when the history of a path is complete**.
-/

namespace Bypass

/-! ## The log -/

/-- `Commit` of `vcs.rs`, as a log shows it. -/
structure LogCommit where
  id : Str
  summary : Str
  author : Option Str
  timeUnix : ℤ
  deriving DecidableEq

/-- What the object of a commit says beside its tree and its parents; a name or a message that is
not UTF-8 is none. -/
structure CommitText where
  summary : Option Str
  author : Option Str
  timeUnix : ℤ

/-- `Revwalk`, sorted by time: each commit that is reachable, once. -/
structure Revwalk where
  order : Commit → List Commit
  mem_order : ∀ head c, c ∈ order head ↔ c ∈ head.history
  nodup : ∀ head, (order head).Nodup

/-- The name differs between a commit and its first parent, or the empty tree. -/
def DiffersAt (c : Commit) (name : Bytes) : Prop := c.parentTree[name]? ≠ c.tree[name]?

instance (c : Commit) (name : Bytes) : Decidable (DiffersAt c name) :=
  inferInstanceAs (Decidable (_ ≠ _))

/-- The names of `diff_tree_to_tree`; without a search for renames, a delta has one name. -/
def diffNames (c : Commit) : List Bytes := (c.parentTree ∪ c.tree).keys.filter fun b => DiffersAt c b

/-- `touches_path`. -/
def touchesPath (c : Commit) (needle : Str) : Bool :=
  (diffNames c).any fun name => match utf8Decode? name with
    | some s => s = needle || decide ((needle ++ ['/']) <+: s)
    | none => false

/-- The commits that the loop of `Git2Vcs::log` keeps; on an unborn branch there is none. -/
def Checkout.logged (walk : Revwalk) (path : Option RelPath) (c : Checkout) : List Commit :=
  if c.initialized = false then []
  else
    match c.repo.head with
    | none => []
    | some head => (walk.order head).filter fun d => path.all fun p => touchesPath d p.str

/-- The record that the loop makes of a commit. -/
def describe (text : Commit → CommitText) (c : Commit) : LogCommit where
  id := c.sha.hex
  summary := (text c).summary.getD []
  author := (text c).author
  timeUnix := (text c).timeUnix

/-- `Git2Vcs::log`; any call of libgit2 may fail. -/
def Git2Vcs.log (walk : Revwalk) (text : Commit → CommitText) (fault : Checkout → Option Git2Error)
    (path : Option RelPath) (c : Checkout) : Except Git2Error (List LogCommit) :=
  if c.initialized = false then .ok []
  else
    match fault c with
    | some e => .error e
    | none => .ok ((c.logged walk path).map (describe text))

/-- `Store::log`. -/
def Store.log {W CE SE VE : Type} (_ : Store W CE SE VE)
    (vcsLog : Option RelPath → W → Except VE (List LogCommit)) (entry : Option RelPath) (w : W) :
    Except (StoreError CE SE VE) (List LogCommit) :=
  (vcsLog (entry.map entryToBlob) w).mapError .vcs

/-! ## What it finds -/

theorem mem_diffNames {c : Commit} {name : Bytes} : name ∈ diffNames c ↔ DiffersAt c name := by
  rw [diffNames, List.mem_filter, decide_eq_true_iff, and_iff_right_iff_imp]
  intro hdiff
  rw [Std.ExtTreeMap.mem_keys, Std.ExtTreeMap.mem_union_iff, Std.ExtTreeMap.mem_iff_isSome_getElem?,
    Std.ExtTreeMap.mem_iff_isSome_getElem?]
  by_contra hnone
  simp only [not_or, Option.not_isSome_iff_eq_none] at hnone
  exact hdiff (hnone.1.trans hnone.2.symm)

/-- **Which commits touch a path**, for the version control. -/
theorem touchesPath_iff {c : Commit} {needle : Str} :
    touchesPath c needle = true ↔ DiffersAt c (utf8Encode needle) ∨
      ∃ s, (needle ++ ['/']) <+: s ∧ DiffersAt c (utf8Encode s) := by
  rw [touchesPath, List.any_eq_true]
  constructor
  · rintro ⟨name, hname, hmatch⟩
    cases hs : utf8Decode? name with
    | none => simp [hs] at hmatch
    | some s =>
      obtain rfl := utf8Decode?_eq_some.1 hs
      have hdiff := mem_diffNames.1 hname
      simp only [hs, Bool.or_eq_true, decide_eq_true_eq] at hmatch
      rcases hmatch with rfl | hbelow
      · exact Or.inl hdiff
      · exact Or.inr ⟨s, hbelow, hdiff⟩
  · rintro (hdiff | ⟨s, hbelow, hdiff⟩)
    · exact ⟨_, mem_diffNames.2 hdiff, by simp [utf8Decode?_encode]⟩
    · exact ⟨_, mem_diffNames.2 hdiff, by simp [utf8Decode?_encode, hbelow]⟩

/-- The commits of a checkout: those reachable from `HEAD`. -/
def Checkout.history (c : Checkout) : List Commit :=
  if c.initialized = false then [] else reachable c.repo.head

/-- The commits that are kept: each once. -/
theorem mem_logged {walk : Revwalk} {path : Option RelPath} {c : Checkout} :
    (c.logged walk path).Nodup ∧ ∀ d, d ∈ c.logged walk path ↔
      d ∈ c.history ∧ ∀ p ∈ path, touchesPath d p.str = true := by
  rw [Checkout.logged, Checkout.history]
  split_ifs
  · exact ⟨List.nodup_nil, by simp⟩
  cases c.repo.head with
  | none => exact ⟨List.nodup_nil, by simp⟩
  | some head =>
    refine ⟨(walk.nodup head).filter _, fun d => ?_⟩
    rw [List.mem_filter, walk.mem_order, reachable_some]
    apply and_congr_right
    intro _
    cases path <;> simp

/-- A log that succeeds shows these. -/
theorem log_ok {W CE SE : Type} {store : Store W CE SE Git2Error} {walk : Revwalk}
    {text : Commit → CommitText} {fault : Checkout → Option Git2Error} {checkout : W → Checkout}
    {entry : Option RelPath} {w : W} {l : List LogCommit}
    (h : store.log (fun path w => Git2Vcs.log walk text fault path (checkout w)) entry w = .ok l) :
    l = ((checkout w).logged walk (entry.map entryToBlob)).map (describe text) := by
  rw [Store.log, Git2Vcs.log] at h
  split_ifs at h with hinit
  · rw [Checkout.logged, if_pos hinit]
    exact (Except.ok.inj h).symm
  · split at h
    · cases h
    · exact (Except.ok.inj h).symm

/-! ## The history of an entry and of those below it -/

/-- The commit touches the entry `p`, or one below it. -/
def TouchesEntry (p : RelPath) (c : Commit) : Prop :=
  ∃ e, (e = p ∨ p.Below e) ∧ DiffersAt c (entryToBlob e).bytes

/-- A commit that touches the entry itself is found. -/
theorem logged_of_blob {p : RelPath} {c : Commit} (h : DiffersAt c (entryToBlob p).bytes) :
    touchesPath c (entryToBlob p).str = true ∧ TouchesEntry p c :=
  ⟨touchesPath_iff.2 (Or.inl h), p, Or.inl rfl, h⟩

/-- **When the history of a path is complete**: of the commits that do not touch the entry itself,
those that touch something in a directory `p.gpg` must be those that touch an entry below `p`. -/
theorem log_complete_iff {W CE SE : Type} {store : Store W CE SE Git2Error} {walk : Revwalk}
    {text : Commit → CommitText} {fault : Checkout → Option Git2Error} {checkout : W → Checkout}
    {p : RelPath} {w : W} {l : List LogCommit}
    (h : store.log (fun path w => Git2Vcs.log walk text fault path (checkout w)) (some p) w =
      .ok l) :
    let shown := (checkout w).logged walk (some (entryToBlob p))
    l = shown.map (describe text) ∧ shown.Nodup ∧
      ((∀ c, c ∈ shown ↔ c ∈ (checkout w).history ∧ TouchesEntry p c) ↔
        ∀ c ∈ (checkout w).history, ¬ DiffersAt c (entryToBlob p).bytes →
          ((∃ s, ((entryToBlob p).str ++ ['/']) <+: s ∧ DiffersAt c (utf8Encode s)) ↔
            ∃ e, p.Below e ∧ DiffersAt c (entryToBlob e).bytes)) := by
  obtain ⟨hnodup, hmem⟩ := @mem_logged walk (some (entryToBlob p)) (checkout w)
  refine ⟨log_ok h, hnodup, ?_⟩
  have hcommit : ∀ c, (c ∈ (checkout w).logged walk (some (entryToBlob p)) ↔
        c ∈ (checkout w).history ∧ TouchesEntry p c) ↔
      (c ∈ (checkout w).history → (touchesPath c (entryToBlob p).str = true ↔ TouchesEntry p c)) := by
    intro c
    rw [hmem c, and_congr_right_iff]
    simp
  rw [forall_congr' hcommit]
  refine forall₂_congr fun c _ => ?_
  by_cases hblob : DiffersAt c (entryToBlob p).bytes
  · obtain ⟨htouches, hentry⟩ := logged_of_blob hblob
    exact iff_of_true (iff_of_true htouches hentry) fun hnot => absurd hblob hnot
  · have hself : DiffersAt c (utf8Encode (entryToBlob p).str) ↔ False := iff_of_false hblob id
    have hbelow : TouchesEntry p c ↔ ∃ e, p.Below e ∧ DiffersAt c (entryToBlob e).bytes := by
      constructor
      · rintro ⟨e, rfl | hbelow, hdiff⟩
        · exact absurd hdiff hblob
        · exact ⟨e, hbelow, hdiff⟩
      · rintro ⟨e, hbelow, hdiff⟩
        exact ⟨e, Or.inr hbelow, hdiff⟩
    rw [touchesPath_iff, hself, false_or, hbelow]
    exact (imp_iff_right hblob).symm

/-! ## A commit that is missed -/

/-- The entry `a/b`. -/
def nestedEntry : RelPath := ⟨"a/b".toList, validate_a_b⟩

/-- A history of one commit, in which that entry was added. -/
def nestedCommit : Commit := commitOf 1 [("a/b.gpg".toList, "x".toList)] []

def nestedCheckout : Checkout where
  initialized := true
  repo := repoAt nestedCommit [nestedCommit] (List.nodup_singleton _) (List.mem_singleton_self _)

/-- A walk in the order of the history. -/
def plainWalk : Revwalk where
  order head := head.history.dedup
  mem_order _ _ := List.mem_dedup
  nodup _ := List.nodup_dedup _

/-- The log of that history for the entries below `p`. -/
def nestedLog (p : RelPath) : Except (StoreError TaggedError InTheWay Git2Error) (List LogCommit) :=
  (checkoutStore taggedCrypto (plainGit [])).log (fun path => Git2Vcs.log plainWalk
    (fun _ => ⟨none, none, 0⟩) (fun _ => none) path) (some p) nestedCheckout

theorem nestedLog_eq : (nestedLog ⟨"a".toList, by decide⟩, (nestedLog nestedEntry).isOk) =
    (.ok [], true) := by
  decide +kernel

theorem nestedCommit_touches : DiffersAt nestedCommit (entryToBlob nestedEntry).bytes := by
  decide +kernel

/-- The history of `a` does not show the commit that added `a/b`. -/
theorem commit_below_missed :
    nestedLog ⟨"a".toList, by decide⟩ = .ok [] ∧ nestedCommit ∈ nestedCheckout.history ∧
      TouchesEntry ⟨"a".toList, by decide⟩ nestedCommit :=
  ⟨(Prod.mk.inj nestedLog_eq).1, Merkle.mem_history_self _, nestedEntry, Or.inr (by decide),
    nestedCommit_touches⟩

theorem nestedLog_complete :
    let shown := nestedCheckout.logged plainWalk (some (entryToBlob nestedEntry))
    nestedLog nestedEntry = .ok (shown.map (describe fun _ => ⟨none, none, 0⟩)) ∧
      ((∀ c, c ∈ shown ↔ c ∈ nestedCheckout.history ∧ TouchesEntry nestedEntry c) ↔
        ∀ c ∈ nestedCheckout.history, ¬ DiffersAt c (entryToBlob nestedEntry).bytes →
          ((∃ s, ((entryToBlob nestedEntry).str ++ ['/']) <+: s ∧ DiffersAt c (utf8Encode s)) ↔
            ∃ e, nestedEntry.Below e ∧ DiffersAt c (entryToBlob e).bytes)) := by
  have hok := (Prod.mk.inj nestedLog_eq).2
  cases h : nestedLog nestedEntry with
  | error e =>
    rw [h] at hok
    cases hok
  | ok l =>
    obtain ⟨hl, -, hiff⟩ := log_complete_iff h
    exact ⟨congrArg _ hl, hiff⟩

end Bypass
