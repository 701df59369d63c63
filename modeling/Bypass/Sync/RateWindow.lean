import Bypass.Foundations.Runs
import Bypass.Sync.RateLimit

/-!
# The attempt window over runs

A log of attempts over the attempts of any peers, at times that do not decrease. Entries that have
left the window are dropped at each attempt. Before a whole window has passed on the clock, all
entries are dropped that are older than the attempt itself.

* `checkAndRecord_cases`: what an attempt does to the books of its peer.
* `rate_limit_holds`: **the budget holds in every window**, if no entry is dropped too early.
* `retry_after_never_honest`: **an attempt after `retry_after` is refused again**.
-/

namespace Bypass

namespace AttemptLog

variable {κ : Type} [Ord κ] [Std.TransOrd κ]

/-- The attempts of a peer that are on the books. -/
def bucket (log : AttemptLog κ) (peer : κ) : List ℕ := log.buckets[peer]?.getD []

/-- The attempts on a log, one after the other; a panic is no move. -/
def machine : Machine (AttemptLog κ) (κ × ℕ) (Except RateLimited Unit) := fun log attempt =>
  (log.checkAndRecord attempt.1 attempt.2).map fun r => (r.2, [r.1])

/-- A move of such a run. -/
abbrev Attempt (κ : Type) [Ord κ] := Move (AttemptLog κ) (κ × ℕ) (Except RateLimited Unit)

variable {log log' : AttemptLog κ} {peer other : κ} {now t : ℕ}
  {verdict : Except RateLimited Unit}

/-! ## One attempt -/

theorem live_eq : log.live peer now = (log.bucket peer).dropWhile (· < log.cutoff now) := rfl

/-- At the origin of the clock nothing is dropped. -/
theorem live_zero : log.live peer 0 = log.bucket peer := by
  have hcut : log.cutoff 0 = 0 := by
    rw [cutoff, Nat.zero_sub, ite_self]
  rw [live_eq, hcut, List.dropWhile_eq_self_iff]
  intro hlen
  simp

/-- What is on the books of a log with another bucket. -/
theorem bucket_insert [Std.LawfulEqOrd κ] [DecidableEq κ] (b : List ℕ) :
    ({ log with buckets := log.buckets.insert peer b } : AttemptLog κ).bucket other =
      if other = peer then b else log.bucket other := by
  rw [bucket, Std.ExtTreeMap.getElem?_insert]
  simp only [Std.LawfulEqOrd.compare_eq_iff_eq, @eq_comm _ peer other]
  split_ifs
  · rfl
  · rfl

/-- What an attempt does to the books of its peer, and of the others. -/
theorem checkAndRecord_cases [Std.LawfulEqOrd κ] [DecidableEq κ]
    (h : log.checkAndRecord peer now = some (verdict, log')) :
    log'.max_attempts = log.max_attempts ∧ log'.window = log.window ∧
      (∀ other, other ≠ peer → log'.bucket other = log.bucket other) ∧
      (verdict = .ok () ∧ (log.live peer now).length < log.max_attempts ∧
          log'.bucket peer = log.live peer now ++ [now] ∨
        ∃ oldest rest, log.live peer now = oldest :: rest ∧
          log.max_attempts ≤ (log.live peer now).length ∧ oldest + log.window ≤ Instant.max ∧
          verdict = .error ⟨oldest + log.window - now⟩ ∧ log'.bucket peer = log.live peer now) := by
  rcases checkAndRecord_eq_some h with
    ⟨hok, hfits, rfl⟩ | ⟨oldest, rest, hlive, hfull, hmax, herr, rfl⟩
  · refine ⟨rfl, rfl, fun other hne => by rw [bucket_insert, if_neg hne], Or.inl ?_⟩
    exact ⟨hok, hfits, by rw [bucket_insert, if_pos rfl]⟩
  · refine ⟨rfl, rfl, fun other hne => by rw [bucket_insert, if_neg hne], Or.inr ?_⟩
    exact ⟨oldest, rest, hlive, hfull, hmax, herr, by rw [bucket_insert, if_pos rfl]⟩

/-- No entry of the peer is dropped that is still in the window. -/
def KeepsWindow (log : AttemptLog κ) (peer : κ) (now : ℕ) : Prop :=
  log.window ≤ now ∨ ∀ a ∈ log.bucket peer, now ≤ a

/-- What is dropped then has left the window. -/
theorem KeepsWindow.dropped (h : log.KeepsWindow peer now) :
    ∃ gone, log.bucket peer = gone ++ log.live peer now ∧ ∀ a ∈ gone, a + log.window < now := by
  refine ⟨(log.bucket peer).takeWhile (· < log.cutoff now), ?_, fun a ha => ?_⟩
  · rw [live_eq, List.takeWhile_append_dropWhile]
  · have hcut : a < log.cutoff now := by simpa using List.mem_takeWhile_imp ha
    have hmem : a ∈ log.bucket peer := (List.takeWhile_prefix _).subset ha
    rw [cutoff] at hcut
    rcases h with hle | hnew
    · rw [if_pos hle] at hcut
      omega
    · have hge := hnew a hmem
      split_ifs at hcut <;> omega

/-! ## The window -/

/-- The times in the closed window that starts at `start`. -/
def inWindow (start window : ℕ) (times : List ℕ) : List ℕ :=
  times.filter fun a => start ≤ a ∧ a ≤ start + window

/-- What the books of a peer say of the attempts that were accepted before `now`: those that are not
on them have left the window, and no window has more than the budget. -/
structure Windowed (log : AttemptLog κ) (peer : κ) (past : List ℕ) (now : ℕ) : Prop where
  kept : ∃ gone, past = gone ++ log.bucket peer ∧ ∀ a ∈ gone, a + log.window < now
  few : ∀ start, (inWindow start log.window past).length ≤ log.max_attempts

variable {past : List ℕ}

theorem Windowed.later (h : log.Windowed peer past t) (hle : t ≤ now) : log.Windowed peer past now := by
  obtain ⟨⟨gone, hpast, hgone⟩, hfew⟩ := h
  exact ⟨⟨gone, hpast, fun a ha => (hgone a ha).trans_le hle⟩, hfew⟩

/-- The times at which attempts of a peer were accepted. -/
def acceptedAt [DecidableEq κ] (peer : κ) (x : Attempt κ) : Option ℕ :=
  match x.outputs with
  | [.ok ()] => if x.event.1 = peer then some x.event.2 else none
  | _ => none

/-- Those of a run. -/
def acceptedTimes [DecidableEq κ] (peer : κ) (run : List (Attempt κ)) : List ℕ :=
  run.filterMap (acceptedAt peer)

variable {x : Attempt κ} {run : List (Attempt κ)}

/-- The attempt of a move. -/
theorem makes_cases (h : machine.Makes x) : ∃ verdict, x.outputs = [verdict] ∧
    x.before.checkAndRecord x.event.1 x.event.2 = some (verdict, x.after) := by
  obtain ⟨⟨verdict, log'⟩, hcheck, hmove⟩ := Option.map_eq_some_iff.1 h
  obtain ⟨hlog, hout⟩ := Prod.mk.inj hmove
  exact ⟨verdict, hout.symm, by rw [hcheck, ← hlog]⟩

variable [Std.LawfulEqOrd κ] [DecidableEq κ]

/-- **An attempt keeps the window**, whoever makes it. -/
theorem Windowed.step (h : x.before.Windowed peer past x.event.2) (hmove : machine.Makes x)
    (hkeeps : x.before.KeepsWindow x.event.1 x.event.2) :
    x.after.Windowed peer (past ++ (acceptedAt peer x).toList) x.event.2 := by
  obtain ⟨verdict, hout, hcheck⟩ := makes_cases hmove
  obtain ⟨hmax, hwindow, hother, hcases⟩ := checkAndRecord_cases hcheck
  obtain ⟨⟨gone, hpast, hgone⟩, hfew⟩ := h
  by_cases hpeer : x.event.1 = peer
  swap
  · have hnone : acceptedAt peer x = none := by
      rw [acceptedAt]
      split
      · exact if_neg hpeer
      · rfl
    rw [hnone, Option.toList_none, List.append_nil]
    refine ⟨⟨gone, ?_, ?_⟩, ?_⟩
    · rw [hother peer (Ne.symm hpeer), hpast]
    · rwa [hwindow]
    · rwa [hwindow, hmax]
  obtain ⟨dropped, hbucket, hdropped⟩ := hkeeps.dropped
  rw [hpeer] at hbucket hcases
  -- all that is not live any more has left the window
  have hold : past = gone ++ dropped ++ x.before.live peer x.event.2 := by
    rw [hpast, hbucket, List.append_assoc]
  have hleft : ∀ a ∈ gone ++ dropped, a + x.before.window < x.event.2 := by
    intro a ha
    rcases List.mem_append.1 ha with ha | ha
    · exact hgone a ha
    · exact hdropped a ha
  rcases hcases with ⟨rfl, hlen, hbooks⟩ | ⟨oldest, rest, -, -, -, rfl, hbooks⟩
  · have hsome : acceptedAt peer x = some x.event.2 := by
      rw [acceptedAt, hout]
      exact if_pos hpeer
    rw [hsome, Option.toList_some]
    refine ⟨⟨gone ++ dropped, ?_, by rwa [hwindow]⟩, fun start => ?_⟩
    · rw [hbooks, hold, List.append_assoc]
    rw [hwindow, hmax]
    by_cases hin : start ≤ x.event.2 ∧ x.event.2 ≤ start + x.before.window
    · -- the window holds at most what is live, and the new attempt
      have hgone : inWindow start x.before.window (gone ++ dropped) = [] := by
        refine List.filter_eq_nil_iff.2 fun a ha => ?_
        have hlt := hleft a ha
        simp only [decide_eq_true_eq, not_and, not_le]
        omega
      rw [hold, inWindow, List.filter_append, List.filter_append]
      rw [inWindow] at hgone
      rw [hgone, List.nil_append, List.length_append]
      have hlive := List.length_filter_le
        (fun a => decide (start ≤ a ∧ a ≤ start + x.before.window)) (x.before.live peer x.event.2)
      have hone := List.length_filter_le
        (fun a => decide (start ≤ a ∧ a ≤ start + x.before.window)) [x.event.2]
      rw [List.length_singleton] at hone
      omega
    · have hskip : inWindow start x.before.window [x.event.2] = [] :=
        List.filter_eq_nil_iff.2 fun a ha => by simpa [List.mem_singleton.1 ha] using hin
      rw [inWindow, List.filter_append]
      rw [inWindow] at hskip
      rw [hskip, List.append_nil]
      exact hfew start
  · have hnone : acceptedAt peer x = none := by
      rw [acceptedAt, hout]
    rw [hnone, Option.toList_none, List.append_nil]
    exact ⟨⟨gone ++ dropped, by rw [hbooks, hold], by rwa [hwindow]⟩, by rwa [hwindow, hmax]⟩

/-- A run keeps it. -/
theorem Windowed.runs (h : log.Windowed peer past now) (hrun : machine.Runs log run log')
    (hle : ∀ x ∈ run, now ≤ x.event.2) (hsorted : (run.map fun x => x.event.2).Pairwise (· ≤ ·))
    (hkeeps : ∀ x ∈ run, x.before.KeepsWindow x.event.1 x.event.2) :
    ∀ start, (inWindow start log.window (past ++ acceptedTimes peer run)).length ≤ log.max_attempts := by
  induction hrun generalizing past now with
  | nil => simpa [acceptedTimes] using h.few
  | @cons x rest u hmove hrest ih =>
    rw [List.map_cons, List.pairwise_cons] at hsorted
    have hfirst := (h.later (hle x List.mem_cons_self)).step hmove (hkeeps x List.mem_cons_self)
    obtain ⟨verdict, -, hcheck⟩ := makes_cases hmove
    obtain ⟨hmax, hwindow, -⟩ := checkAndRecord_cases hcheck
    have hrest := ih hfirst (fun y hy => hsorted.1 _ (List.mem_map_of_mem hy)) hsorted.2
      fun y hy => hkeeps y (List.mem_cons_of_mem _ hy)
    rw [hmax, hwindow] at hrest
    have hcons : past ++ acceptedTimes peer (x :: rest) =
        past ++ (acceptedAt peer x).toList ++ acceptedTimes peer rest := by
      rw [acceptedTimes, acceptedTimes, List.filterMap_cons, List.append_assoc]
      cases acceptedAt peer x <;> rfl
    rwa [hcons]

/-! ## One peer among others -/

/-- The attempts of a peer. -/
def ownAttempts (peer : κ) (run : List (Attempt κ)) : List (Attempt κ) :=
  run.filter fun x => x.event.1 = peer

/-- Two logs with the same limits and the same books of a peer. -/
structure SameBooks (peer : κ) (log log' : AttemptLog κ) : Prop where
  max_attempts : log.max_attempts = log'.max_attempts
  window : log.window = log'.window
  bucket : log.bucket peer = log'.bucket peer

/-- **The verdict is a matter of the peer's own books.** -/
theorem SameBooks.check {alone : AttemptLog κ} (h : SameBooks peer log alone)
    (hcheck : log.checkAndRecord peer now = some (verdict, log')) :
    ∃ alone', alone.checkAndRecord peer now = some (verdict, alone') ∧ SameBooks peer log' alone' := by
  have hlive : alone.live peer now = log.live peer now := by
    rw [live_eq, live_eq, ← h.bucket, cutoff, cutoff, h.window]
  obtain ⟨hmax, hwindow, -, hcases⟩ := checkAndRecord_cases hcheck
  unfold checkAndRecord
  dsimp only
  rcases hcases with ⟨rfl, hfits, hbooks⟩ | ⟨oldest, rest, hbucket, hfull, hmax', rfl, hbooks⟩
  · have hfits' : ¬alone.max_attempts ≤ (alone.live peer now).length := by
      rw [hlive, ← h.max_attempts]
      exact not_le.2 hfits
    rw [if_neg hfits']
    refine ⟨_, rfl, hmax.trans h.max_attempts, hwindow.trans h.window, ?_⟩
    rw [bucket_insert, if_pos rfl, hbooks, hlive]
  · have hfull' : alone.max_attempts ≤ (alone.live peer now).length := by
      rw [hlive, ← h.max_attempts]
      exact hfull
    have hlive' : alone.live peer now = oldest :: rest := hlive.trans hbucket
    have hsum : ¬Instant.max < oldest + alone.window := by
      rw [← h.window]
      exact not_lt.2 hmax'
    rw [if_pos hfull', hlive']
    dsimp only
    have hverdict :
        (⟨oldest + alone.window - now⟩ : RateLimited) = ⟨oldest + log.window - now⟩ := by
      rw [h.window]
    rw [if_neg hsum, hverdict]
    refine ⟨_, rfl, hmax.trans h.max_attempts, hwindow.trans h.window, ?_⟩
    rw [bucket_insert, if_pos rfl, hbooks, hbucket]

/-- **A peer's verdicts are what they are without the other peers.** -/
theorem SameBooks.runs {alone : AttemptLog κ} (h : SameBooks peer log alone)
    (hrun : machine.Runs log run log') : ∃ run' alone', machine.Runs alone run' alone' ∧
      run'.map Move.event = (ownAttempts peer run).map Move.event ∧
      run'.map Move.outputs = (ownAttempts peer run).map Move.outputs := by
  induction hrun generalizing alone with
  | nil => exact ⟨[], alone, .nil _, rfl, rfl⟩
  | @cons x rest u hmove hrest ih =>
    obtain ⟨verdict, hout, hcheck⟩ := makes_cases hmove
    by_cases hpeer : x.event.1 = peer
    · have hown : ownAttempts peer (x :: rest) = x :: ownAttempts peer rest := by
        rw [ownAttempts, List.filter_cons_of_pos (by simpa using hpeer)]
        rfl
      rw [hpeer] at hcheck
      obtain ⟨alone₁, hcheck₁, hsame⟩ := h.check hcheck
      obtain ⟨run', alone', hruns, hevents, houts⟩ := ih hsame
      have hmove' : machine.Makes ⟨alone, (peer, x.event.2), alone₁, [verdict]⟩ := by
        show Option.map _ (alone.checkAndRecord peer x.event.2) = _
        rw [hcheck₁]
        rfl
      refine ⟨_, alone', .cons hmove' hruns, ?_, ?_⟩
      · rw [hown, List.map_cons, List.map_cons, hevents, ← hpeer]
      · rw [hown, List.map_cons, List.map_cons, houts, hout]
    · have hother : ownAttempts peer (x :: rest) = ownAttempts peer rest := by
        rw [ownAttempts, List.filter_cons_of_neg (by simpa using hpeer)]
        rfl
      obtain ⟨hmax, hwindow, hbooks, -⟩ := checkAndRecord_cases hcheck
      rw [hother]
      refine ih ⟨hmax.trans h.max_attempts, hwindow.trans h.window, ?_⟩
      rw [hbooks peer (Ne.symm hpeer), h.bucket]

/-- Attempts of two peers, when the clock has run for a window. -/
def lateAttempts : List (ℕ × ℕ) := [(1, 60 * 10 ^ 9), (2, 61 * 10 ^ 9), (1, 90 * 10 ^ 9)]

/-- Attempts of one peer in the first seconds of the clock. -/
def earlyAttempts : List (ℕ × ℕ) := [(1, 0), (1, 10 ^ 9), (1, 2 * 10 ^ 9), (1, 3 * 10 ^ 9)]

theorem lateAttempts_exec :
    (machine.exec ((new : AttemptLog ℕ).withLimits 3 (60 * 10 ^ 9)) lateAttempts).isSome = true := by
  decide +kernel

theorem earlyAttempts_exec :
    (machine.exec ((new : AttemptLog ℕ).withLimits 3 (60 * 10 ^ 9)) earlyAttempts).isSome = true := by
  decide +kernel

/-- **No attempt panics**, whatever was attempted before. -/
def NeverPanics (κ : Type) [Ord κ] [Std.TransOrd κ] (max_attempts window : ℕ) : Prop :=
  ∀ (run : List (Attempt κ)) (log : AttemptLog κ),
    machine.Runs ((new : AttemptLog κ).withLimits max_attempts window) run log →
    (run.map fun x => x.event.2).Pairwise (· ≤ ·) → ∀ peer now, (∀ x ∈ run, x.event.2 ≤ now) →
    (log.checkAndRecord peer now).isSome = true

/-- **An attempt is accepted after `retry_after`**, if none of the peer is in between. -/
def HonestRetry (κ : Type) [Ord κ] [Std.TransOrd κ] [DecidableEq κ] (max_attempts window : ℕ) :
    Prop :=
  ∀ (run : List (Attempt κ)) (log : AttemptLog κ),
    machine.Runs ((new : AttemptLog κ).withLimits max_attempts window) run log →
    (run.map fun x => x.event.2).Pairwise (· ≤ ·) → ∀ peer now, (∀ x ∈ run, x.event.2 ≤ now) →
    ∀ d refused, log.checkAndRecord peer now = some (.error ⟨d⟩, refused) →
    ∀ (run' : List (Attempt κ)) (log' : AttemptLog κ), machine.Runs refused run' log' →
    (run'.map fun x => x.event.2).Pairwise (· ≤ ·) →
    (∀ x ∈ run', now ≤ x.event.2 ∧ x.event.2 ≤ now + d) → acceptedTimes peer run' = [] →
    ∃ log'', log'.checkAndRecord peer (now + d) = some (.ok (), log'')

/-- The books of a peer are in order. -/
def Ordered (log : AttemptLog κ) (peer : κ) (now : ℕ) : Prop :=
  (log.bucket peer).Pairwise (· ≤ ·) ∧ ∀ a ∈ log.bucket peer, a ≤ now

omit [Std.LawfulEqOrd κ] [DecidableEq κ] in
theorem Ordered.live (h : log.Ordered peer now) :
    (log.live peer t).Pairwise (· ≤ ·) ∧ ∀ a ∈ log.live peer t, a ≤ now := by
  have hsub : (log.live peer t).Sublist (log.bucket peer) := List.dropWhile_sublist _
  exact ⟨h.1.sublist hsub, fun a ha => h.2 a (hsub.subset ha)⟩

/-- An attempt keeps them in order. -/
theorem Ordered.step (h : x.before.Ordered peer now) (hmove : machine.Makes x) (hle : now ≤ x.event.2) :
    x.after.Ordered peer x.event.2 := by
  obtain ⟨verdict, -, hcheck⟩ := makes_cases hmove
  obtain ⟨-, -, hother, hcases⟩ := checkAndRecord_cases hcheck
  have hlater : x.before.Ordered peer x.event.2 := ⟨h.1, fun a ha => (h.2 a ha).trans hle⟩
  by_cases hpeer : x.event.1 = peer
  · rw [hpeer] at hcases
    obtain ⟨hsorted, hbound⟩ := hlater.live (t := x.event.2)
    rcases hcases with ⟨-, -, hbooks⟩ | ⟨oldest, rest, -, -, -, -, hbooks⟩
    · rw [Ordered, hbooks]
      refine ⟨List.pairwise_append.2 ⟨hsorted, List.pairwise_singleton _ _, ?_⟩, ?_⟩
      · intro a ha b hb
        rw [List.mem_singleton.1 hb]
        exact hbound a ha
      · intro a ha
        rcases List.mem_append.1 ha with ha | ha
        · exact hbound a ha
        · rw [List.mem_singleton.1 ha]
    · rw [Ordered, hbooks]
      exact ⟨hsorted, hbound⟩
  · rw [Ordered, hother peer (Ne.symm hpeer)]
    exact hlater

theorem Ordered.runs (h : log.Ordered peer t) (hrun : machine.Runs log run log')
    (hle : ∀ x ∈ run, t ≤ x.event.2) (hsorted : (run.map fun x => x.event.2).Pairwise (· ≤ ·))
    (hnow : ∀ x ∈ run, x.event.2 ≤ now) (ht : t ≤ now) : log'.Ordered peer now := by
  induction hrun generalizing t with
  | nil => exact ⟨h.1, fun a ha => (h.2 a ha).trans ht⟩
  | @cons x rest u hmove hrest ih =>
    rw [List.map_cons, List.pairwise_cons] at hsorted
    exact ih (h.step hmove (hle x List.mem_cons_self))
      (fun y hy => hsorted.1 _ (List.mem_map_of_mem hy)) hsorted.2
      (fun y hy => hnow y (List.mem_cons_of_mem _ hy)) (hnow x List.mem_cons_self)

/-- The budget of a peer is used up by entries that are in the window until `oldest` leaves it. -/
def Full (log : AttemptLog κ) (peer : κ) (oldest : ℕ) : Prop :=
  log.max_attempts ≤ (log.bucket peer).length ∧ ∀ a ∈ log.bucket peer, oldest ≤ a

/-- While no attempt of the peer is accepted, it stays used up. -/
theorem Full.runs {oldest : ℕ} (h : log.Full peer oldest) (hrun : machine.Runs log run log')
    (hnone : acceptedTimes peer run = []) :
    log'.Full peer oldest ∧ log'.window = log.window := by
  induction hrun with
  | nil => exact ⟨h, rfl⟩
  | @cons x rest u hmove hrest ih =>
    obtain ⟨verdict, hout, hcheck⟩ := makes_cases hmove
    obtain ⟨hmax, hwindow, hother, hcases⟩ := checkAndRecord_cases hcheck
    have hfirst : acceptedAt peer x = none ∧ acceptedTimes peer rest = [] := by
      rw [acceptedTimes, List.filterMap_cons] at hnone
      cases hx : acceptedAt peer x with
      | none =>
        rw [hx] at hnone
        exact ⟨rfl, hnone⟩
      | some a =>
        rw [hx] at hnone
        cases hnone
    rw [← hwindow]
    refine ih ?_ hfirst.2
    by_cases hpeer : x.event.1 = peer
    · rw [hpeer] at hcases
      rcases hcases with ⟨rfl, -, -⟩ | ⟨oldest', rest', -, hfull, -, rfl, hbooks⟩
      · have hsome : acceptedAt peer x = some x.event.2 := by
          rw [acceptedAt, hout]
          exact if_pos hpeer
        rw [hfirst.1] at hsome
        cases hsome
      · rw [Full, hbooks, hmax]
        refine ⟨hfull, fun a ha => h.2 a ?_⟩
        exact (List.dropWhile_sublist _).subset ha
    · rw [Full, hother peer (Ne.symm hpeer), hmax]
      exact h

omit [Std.LawfulEqOrd κ] [DecidableEq κ] in
/-- Then an attempt is refused, until after the window of the oldest entry. -/
theorem Full.not_accepts {oldest : ℕ} (h : log.Full peer oldest) (hle : log.window ≤ now)
    (hnow : now ≤ oldest + log.window) : ¬log.Accepts peer now := by
  have hlive : log.live peer now = log.bucket peer := by
    rw [live_eq, List.dropWhile_eq_self_iff]
    intro hlen
    have hge := h.2 _ (List.getElem_mem hlen)
    have hcut : now - log.window ≤ oldest := by omega
    rw [cutoff, if_pos hle, decide_eq_true_eq, not_lt]
    exact hcut.trans hge
  rw [Accepts, hlive]
  exact not_lt.2 h.1

/-- **An attempt after `retry_after` is refused again.** -/
theorem retry_refused {d : ℕ} {refused : AttemptLog κ} (hordered : log.Ordered peer now)
    (hcheck : log.checkAndRecord peer now = some (.error ⟨d⟩, refused))
    (hrun : machine.Runs refused run log') (hnone : acceptedTimes peer run = []) :
    ¬log'.Accepts peer (now + d) := by
  obtain ⟨hmax, hwindow, -, hcases⟩ := checkAndRecord_cases hcheck
  rcases hcases with ⟨hok, -⟩ | ⟨oldest, rest, hlive, hfull, -, hd, hbooks⟩
  · cases hok
  have hd' : d = oldest + log.window - now := congrArg RateLimited.retry_after (Except.error.inj hd)
  obtain ⟨hsorted, -⟩ := hordered.live (t := now)
  rw [hlive] at hsorted
  have hfull' : refused.Full peer oldest := by
    rw [Full, hbooks, hmax]
    refine ⟨hfull, fun a ha => ?_⟩
    rw [hlive] at ha
    rcases List.mem_cons.1 ha with rfl | ha
    · exact le_rfl
    · exact (List.pairwise_cons.1 hsorted).1 a ha
  obtain ⟨hend, hwindow'⟩ := hfull'.runs hrun hnone
  -- the oldest entry has not left the window yet
  have hkept : now ≤ oldest + log.window := by
    have hcut : log.cutoff now ≤ oldest := by
      have hne : (log.bucket peer).dropWhile (· < log.cutoff now) ≠ [] := by
        rw [← live_eq, hlive]
        exact List.cons_ne_nil _ _
      have hhead := List.head_dropWhile_not (· < log.cutoff now) hne
      simp only [← live_eq, hlive, List.head_cons, decide_eq_false_iff_not, not_lt] at hhead
      exact hhead
    rw [cutoff] at hcut
    have hcases : now - log.window ≤ oldest ∨ now ≤ oldest := by
      split_ifs at hcut with hle
      · exact Or.inl hcut
      · exact Or.inr hcut
    omega
  refine hend.not_accepts ?_ ?_
  · rw [hwindow', hwindow]
    omega
  · rw [hwindow', hwindow]
    omega

/-- Attempts at one time, until the budget is used up. -/
theorem exists_full (max_attempts window : ℕ) (peer : κ) {n : ℕ} (hn : n ≤ max_attempts) :
    ∃ run log, machine.Runs ((new : AttemptLog κ).withLimits max_attempts window) run log ∧
      (∀ x ∈ run, x.event.2 = 0) ∧ log.bucket peer = List.replicate n 0 ∧
      log.max_attempts = max_attempts ∧ log.window = window := by
  induction n with
  | zero =>
    refine ⟨[], _, .nil _, nofun, ?_, rfl, rfl⟩
    have hnone : (∅ : Std.ExtTreeMap κ (List ℕ))[peer]? = none := Std.ExtTreeMap.getElem?_empty
    exact congrArg (Option.getD · []) hnone
  | succ n ih =>
    obtain ⟨run, log, hrun, hzero, hbooks, hmax, hwindow⟩ := ih (by omega)
    have hlive : log.live peer 0 = List.replicate n 0 := by
      rw [live_zero, hbooks]
    have hfits : ¬log.max_attempts ≤ (log.live peer 0).length := by
      rw [hlive, hmax, List.length_replicate]
      omega
    have hmove : machine.Makes ⟨log, (peer, 0),
        { log with buckets := log.buckets.insert peer (log.live peer 0 ++ [0]) }, [.ok ()]⟩ := by
      show Option.map _ (log.checkAndRecord peer 0) = _
      unfold checkAndRecord
      dsimp only
      rw [if_neg hfits]
      rfl
    refine ⟨_, _, hrun.append (.cons hmove (.nil _)), ?_, ?_, hmax, hwindow⟩
    · intro x hx
      rcases List.mem_append.1 hx with hx | hx
      · exact hzero x hx
      · rw [List.mem_singleton.1 hx]
    · rw [bucket_insert, if_pos rfl, hlive, List.replicate_succ']

/-- **`retry_after` is never honest**: with any limits, some attempt panics, or it is refused
although its peer has waited as long as it was told. -/
theorem retry_after_never_honest (max_attempts window : ℕ) (peer : κ) :
    ¬(NeverPanics κ max_attempts window ∧ HonestRetry κ max_attempts window) := by
  rintro ⟨hpanic, hhonest⟩
  obtain ⟨run, log, hrun, hzero, hbooks, hmax, hwindow⟩ :=
    exists_full max_attempts window peer (le_refl max_attempts)
  have hsorted : (run.map fun x => x.event.2).Pairwise (· ≤ ·) := by
    refine List.pairwise_map.2 (List.pairwise_of_forall_mem_list fun x hx y hy => ?_)
    rw [hzero x hx]
    exact Nat.zero_le _
  have hnow : ∀ x ∈ run, x.event.2 ≤ 0 := fun x hx => (hzero x hx).le
  obtain ⟨⟨verdict, refused⟩, hcheck⟩ :=
    Option.isSome_iff_exists.1 (hpanic run log hrun hsorted peer 0 hnow)
  have hordered : log.Ordered peer 0 := by
    rw [Ordered, hbooks]
    refine ⟨List.pairwise_replicate.2 (Or.inr le_rfl), fun a ha => ?_⟩
    rw [List.eq_of_mem_replicate ha]
  obtain ⟨-, -, -, ⟨-, hfits, -⟩ | ⟨oldest, rest, -, -, -, rfl, -⟩⟩ := checkAndRecord_cases hcheck
  · have hlive : log.live peer 0 = List.replicate max_attempts 0 := by
      rw [live_zero, hbooks]
    rw [hlive, hmax, List.length_replicate] at hfits
    exact lt_irrefl _ hfits
  · obtain ⟨log'', hretry⟩ := hhonest run log hrun hsorted peer 0 hnow _ _ hcheck [] refused (.nil _)
      List.Pairwise.nil nofun rfl
    exact retry_refused hordered hcheck (.nil _) rfl (accepts_of_ok hretry)

theorem retry_after_never_honest_default :
    ¬(NeverPanics ℕ maxAttempts Bypass.window ∧ HonestRetry ℕ maxAttempts Bypass.window) :=
  retry_after_never_honest maxAttempts Bypass.window 1

/-- Three attempts at once. -/
def threeAttempts : List (ℕ × ℕ) := [(1, 0), (1, 0), (1, 0)]

theorem threeAttempts_exec :
    (machine.exec ((new : AttemptLog ℕ).withLimits maxAttempts Bypass.window) threeAttempts).isSome =
      true := by
  decide +kernel

/-- The log after them. -/
def fullLog : AttemptLog ℕ :=
  ((machine.exec ((new : AttemptLog ℕ).withLimits maxAttempts Bypass.window) threeAttempts).get
    threeAttempts_exec).2

theorem fullLog_check : (fullLog.checkAndRecord 1 0).isSome = true := by decide +kernel

/-- The fourth is refused for a minute, and after a minute it is refused for no time at all. -/
theorem retry_refused_default : ¬HonestRetry ℕ maxAttempts Bypass.window := by
  intro h
  have hverdict : ((fullLog.checkAndRecord 1 0).get fullLog_check).1 = .error ⟨Bypass.window⟩ := by
    decide +kernel
  have hcheck : fullLog.checkAndRecord 1 0 =
      some (.error ⟨Bypass.window⟩, ((fullLog.checkAndRecord 1 0).get fullLog_check).2) := by
    rw [← hverdict]
    exact (Option.some_get fullLog_check).symm
  obtain ⟨log'', hretry⟩ := h _ fullLog (Machine.get_runs threeAttempts_exec) (by decide +kernel) 1 0
    (by decide +kernel) Bypass.window _ hcheck [] _ (.nil _) List.Pairwise.nil nofun rfl
  have hagain : (((fullLog.checkAndRecord 1 0).get fullLog_check).2.checkAndRecord 1
      (0 + Bypass.window)).map Prod.fst = some (.error ⟨0⟩) := by
    decide +kernel
  rw [hretry] at hagain
  cases Option.some.inj hagain

end AttemptLog

end Bypass
