import Mathlib

/-!
# The per-peer attempt window

The sliding window of `ratelimit.rs`: the times of the attempts of each peer that still count, and
a budget. A refused attempt is not recorded. The clock is read by the caller here.

* `checkAndRecord_eq_some`: what an attempt does.
* `accepts_other`: an attempt of one peer leaves the budgets of the others alone.
-/

namespace Bypass

/-- Nanoseconds since the origin of the clock. -/
abbrev Instant := ℕ

/-- The last instant there is: seconds are an `i64`. -/
def Instant.max : ℕ := (2 ^ 63 - 1) * 10 ^ 9 + 999999999

/-- `MAX_ATTEMPTS`. -/
def maxAttempts : ℕ := 3

/-- `WINDOW`. -/
def window : ℕ := 60 * 10 ^ 9

/-- `AttemptLog`. -/
structure AttemptLog (κ : Type) [Ord κ] where
  buckets : Std.ExtTreeMap κ (List Instant)
  max_attempts : ℕ
  window : ℕ

/-- `RateLimited`. -/
structure RateLimited where
  retry_after : ℕ
  deriving DecidableEq

namespace AttemptLog

variable {κ : Type} [Ord κ] [Std.TransOrd κ]

/-- `AttemptLog::new`. -/
def new : AttemptLog κ := ⟨∅, maxAttempts, Bypass.window⟩

/-- `AttemptLog::with_limits`. -/
def withLimits (log : AttemptLog κ) (max_attempts window : ℕ) : AttemptLog κ :=
  { log with max_attempts, window }

/-- Where the window starts, `now.checked_sub(window).unwrap_or(now)`. -/
def cutoff (log : AttemptLog κ) (now : Instant) : Instant :=
  if log.window ≤ now then now - log.window else now

/-- The attempts of a peer that still count. -/
def live (log : AttemptLog κ) (peer : κ) (now : Instant) : List Instant :=
  (log.buckets[peer]?.getD []).dropWhile (· < log.cutoff now)

/-- `check_and_record`; there is no result where it panics: on the `expect`, and on the sum. -/
def checkAndRecord (log : AttemptLog κ) (peer : κ) (now : Instant) :
    Option (Except RateLimited Unit × AttemptLog κ) :=
  let bucket := log.live peer now
  if log.max_attempts ≤ bucket.length then
    match bucket with
    | [] => none
    | oldest :: _ =>
      if Instant.max < oldest + log.window then none
      else some (.error ⟨oldest + log.window - now⟩,
        { log with buckets := log.buckets.insert peer bucket })
  else some (.ok (), { log with buckets := log.buckets.insert peer (bucket ++ [now]) })

/-! ## Acceptance -/

variable {log log' : AttemptLog κ} {peer other : κ}
  {now t : Instant} {verdict : Except RateLimited Unit}

/-- The budget of a peer is not used up. -/
def Accepts (log : AttemptLog κ) (peer : κ) (now : Instant) : Prop :=
  (log.live peer now).length < log.max_attempts

instance : Decidable (log.Accepts peer now) := inferInstanceAs (Decidable (_ < _))

/-- **What an attempt does**: it is recorded, if the budget is not used up; else it is refused until
the oldest one leaves the window. -/
theorem checkAndRecord_eq_some (h : log.checkAndRecord peer now = some (verdict, log')) :
    verdict = .ok () ∧ log.Accepts peer now ∧
        log' = { log with buckets := log.buckets.insert peer (log.live peer now ++ [now]) } ∨
      ∃ oldest rest, log.live peer now = oldest :: rest ∧
        log.max_attempts ≤ (log.live peer now).length ∧ oldest + log.window ≤ Instant.max ∧
        verdict = .error ⟨oldest + log.window - now⟩ ∧
        log' = { log with buckets := log.buckets.insert peer (log.live peer now) } := by
  unfold checkAndRecord at h
  dsimp only at h
  split at h
  · next hfull =>
    split at h
    · cases h
    · next oldest rest hlive =>
      split at h
      · cases h
      · next hmax =>
        obtain ⟨rfl, rfl⟩ := Prod.mk.inj (Option.some.inj h)
        exact Or.inr ⟨oldest, rest, hlive, hfull, not_lt.1 hmax, rfl, by rw [hlive]⟩
  · next hfits =>
    obtain ⟨rfl, rfl⟩ := Prod.mk.inj (Option.some.inj h)
    exact Or.inl ⟨rfl, not_le.1 hfits, rfl⟩

theorem accepts_of_ok (h : log.checkAndRecord peer now = some (.ok (), log')) :
    log.Accepts peer now := by
  rcases checkAndRecord_eq_some h with ⟨-, haccepts, -⟩ | ⟨_, _, -, -, -, herr, -⟩
  · exact haccepts
  · cases herr

/-- An attempt leaves the books of the other peers alone. -/
theorem accepts_other [Std.LawfulEqOrd κ] (hne : other ≠ peer)
    (h : log.checkAndRecord peer now = some (verdict, log')) :
    log'.Accepts other t ↔ log.Accepts other t := by
  obtain ⟨bucket, rfl⟩ :
      ∃ bucket, log' = { log with buckets := log.buckets.insert peer bucket } := by
    rcases checkAndRecord_eq_some h with ⟨-, -, hlog'⟩ | ⟨_, _, -, -, -, -, hlog'⟩
    · exact ⟨_, hlog'⟩
    · exact ⟨_, hlog'⟩
  have hget : (log.buckets.insert peer bucket)[other]? = log.buckets[other]? := by
    rw [Std.ExtTreeMap.getElem?_insert,
      if_neg fun hcmp => hne (Std.LawfulEqOrd.eq_of_compare hcmp).symm]
  unfold Accepts live
  rw [hget]
  rfl

end AttemptLog

end Bypass
