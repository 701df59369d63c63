import Bypass.Foundations.Pipes
import Bypass.Foundations.Text

/-!
# Talking to gpg

`crypto_gpg.rs` starts a `gpg` for each call, writes to its standard input and reads from its standard
output and error. `run` writes all of the input before it reads; `backup` and `restore` read on a
thread of their own, but from the standard error only at the end. What gpg does with its input is any
process.

* `run_result`: what `run` returns is **what gpg did**, however the bytes move.
* `run_returns_iff`: **when `run` returns**: a gpg that writes while it reads can wait for `run`, which
  waits for gpg.
* `stream_returns_iff`: when the two others come to an end.
-/

namespace Bypass

namespace GpgCli

open Machine Pipes

/-- `GpgError`; what the operating system says is left out. -/
inductive GpgError where
  | stdin
  | nonZero (status : ℤ) (stderr : Str)
  deriving DecidableEq

/-- The result of a process that exited, or was killed, and of what was read from it. -/
def conclude (status : Option ℕ) (stdout stderr : Bytes) : Except GpgError Bytes :=
  if status = some 0 then .ok stdout
  else .error (.nonZero ((status.map Int.ofNat).getD (-1)) (utf8Lossy stderr))

/-! ## `run` -/

/-- `run` reads once it has written everything, and drops no end while it does. -/
def runPolicy : Policy where
  drains writer _ _ := decide (writer = .closed)
  drops _ := false

/-- What `run` returns: an error as soon as a write fails, or what `wait_with_output` gives. -/
def outcome {S : Type} (p : Piped S) : Option (Except GpgError Bytes) :=
  match p.writer with
  | .writing => none
  | .broken => some (.error .stdin)
  | .closed =>
    if p.ends .out = .up ∨ p.ends .err = .up then none
    else match p.child with
      | .running _ => none
      | .exited status => some (conclude (some status) (p.got .out) (p.got .err))
      | .killed => some (conclude none (p.got .out) (p.got .err))

/-- Until the process has read all of its input but what fits in a pipe, what it writes fits. -/
def Patient (cap len : ℕ) (acts : List Did) : Prop :=
  ∀ past fd b todo, acts = past ++ .wrote fd b :: todo → cap ≤ (written fd past).length →
    len ≤ taken past + cap

section Run

variable {S : Type} {process : Process S} {cap : ℕ} {input : Bytes} {acts past todo : List Did}
  {status : ℕ} {s : S} {p q : Piped S} {e : PipeEvent}
  {run : List (Move (Piped S) PipeEvent Empty)}

/-- Nothing is read while there is something to write. -/
def Unread (p : Piped S) : Prop :=
  p.writer = .writing → ∀ fd, p.got fd = [] ∧ p.ends fd = .up

theorem unread_move (hmove : Moved runPolicy process cap p e q) (h : Unread p) : Unread q := by
  cases hmove with
  | feed _ _ _ _ _ => exact h
  | close _ _ => exact nofun
  | breakOff _ _ _ => exact nofun
  | read _ _ _ => exact h
  | ended _ _ _ _ => exact h
  | write _ _ _ _ => exact h
  | kill _ _ _ => exact h
  | exit _ _ => exact h
  | drain hdrains _ _ _ =>
    exact fun hwriter => absurd (hwriter.symm.trans (of_decide_eq_true hdrains)) (by decide)
  | eof hdrains _ _ _ =>
    exact fun hwriter => absurd (hwriter.symm.trans (of_decide_eq_true hdrains)) (by decide)
  | drop hdrops _ => cases hdrops

theorem unread (h : Runs (pipes runPolicy process cap) (start input s) run p) : Unread p :=
  h.history (I := fun _ p => Unread p) (fun _ _ hx => unread_move (moved hx)) fun _ _ => ⟨rfl, rfl⟩

/-- **What `run` returns is what gpg did**: in every run, whatever the sizes of the pieces and their
order, the result is that of the process when it does not have to wait. Only where the process exits
before it has read its input may it be an error of writing. There are no more moves in a run than
these. -/
theorem run_result (hplays : Plays process s input acts status)
    (h : Runs (pipes runPolicy process cap) (start input s) run p) :
    run.length ≤ 2 * acts.length + input.length + 4 ∧
      ∀ r, outcome p = some r →
        r = conclude (some status) (written .out acts) (written .err acts) ∨
          r = .error .stdin ∧ taken acts < input.length := by
  obtain ⟨past, todo, haccounts, hlen⟩ := accounts hplays h
  have hends (fd : Fd) : p.ends fd ≠ .dropped := not_dropped h rfl
  have hnot : p.child ≠ .killed := fun hkilled => by
    have htells := haccounts.tells
    unfold Tells at htells
    rw [hkilled] at htells
    obtain ⟨fd, hfd⟩ := htells
    exact hends fd hfd
  have hexited (hdead : p.child.isRunning = false) : p.child = .exited status ∧ acts = past := by
    have htells := haccounts.tells
    unfold Tells at htells
    cases hp : p.child with
    | running s =>
      rw [hp] at hdead
      cases hdead
    | exited n =>
      rw [hp] at htells
      obtain ⟨rfl, rfl⟩ := htells
      exact ⟨rfl, haccounts.whole.trans (List.append_nil _)⟩
    | killed => exact absurd hp hnot
  refine ⟨by omega, fun r hr => ?_⟩
  unfold outcome at hr
  split at hr
  · cases hr
  · next hbroken =>
    obtain ⟨hdead, hrest⟩ := haccounts.broken hbroken
    obtain ⟨-, rfl⟩ := hexited hdead
    have hin := haccounts.input
    have hpos := List.length_pos_iff.2 hrest
    exact Or.inr ⟨(Option.some.inj hr).symm, by omega⟩
  · split_ifs at hr with hup
    push Not at hup
    have hgot {fd : Fd} (hfd : p.ends fd ≠ .up) : p.child.isRunning = false ∧
        p.got fd = written fd past := by
      have heof : p.ends fd = .eof := by
        cases hend : p.ends fd with
        | up => exact absurd hend hfd
        | eof => rfl
        | dropped => exact absurd hend (hends fd)
      obtain ⟨hdead, hnil⟩ := haccounts.eof fd heof
      have hout := haccounts.output fd (hends fd)
      rw [hnil, List.append_nil] at hout
      exact ⟨hdead, hout⟩
    obtain ⟨hdead, hout⟩ := hgot hup.1
    obtain ⟨hchild, rfl⟩ := hexited hdead
    rw [hchild, hout, (hgot hup.2).2] at hr
    exact Or.inl (Option.some.inj hr).symm

/-- Where gpg is not patient, it waits for `run` at a write, and `run` for gpg. -/
structure Deadlocked (input : Bytes) (acts : List Did) (status cap : ℕ) (process : Process S)
    (before : List Did) (p : Piped S) : Prop where
  writing : p.writer = .writing
  held : ∃ past todo, Accounts process cap input acts status past todo p ∧ past <+: before

theorem deadlocked_move {fd : Fd} {b : UInt8} {before after : List Did}
    (hacts : acts = before ++ .wrote fd b :: after) (hfull : cap ≤ (written fd before).length)
    (hlong : taken before + cap < input.length)
    (hmove : Moved runPolicy process cap p e q) (hunread : Unread p)
    (h : Deadlocked input acts status cap process before p) :
    Deadlocked input acts status cap process before q := by
  obtain ⟨hwriting, past, todo, haccounts, hpast⟩ := h
  have hends : ∀ fd, p.ends fd ≠ .dropped := fun fd => by
    rw [(hunread hwriting fd).2]
    decide
  have hrun := running_of_held hacts haccounts hpast hends
  have hrest : p.rest ≠ [] := fun hnil => by
    obtain ⟨rest, rfl⟩ := hpast
    have hin := haccounts.input
    have hfits := haccounts.fits.1
    rw [hnil, List.length_nil] at hin
    rw [taken_append] at hlong
    omega
  have hwriting' : q.writer = .writing := by
    cases hmove with
    | close _ hnil => exact absurd hnil hrest
    | breakOff _ _ hdead =>
      rw [hrun] at hdead
      cases hdead
    | feed _ _ _ _ _ => exact hwriting
    | read _ _ _ => exact hwriting
    | ended _ _ _ _ => exact hwriting
    | write _ _ _ _ => exact hwriting
    | kill _ _ _ => exact hwriting
    | exit _ _ => exact hwriting
    | drain _ _ _ _ => exact hwriting
    | eof _ _ _ _ => exact hwriting
    | drop _ _ => exact hwriting
  obtain ⟨hgot, hup⟩ := unread_move hmove hunread hwriting' fd
  exact ⟨hwriting', held_move hacts hfull haccounts hmove hgot (hup ▸ by decide)⟩

/-- **When `run` returns.** For a process and an input on which it comes to an end: every run goes on
until `run` has returned, exactly if the process is patient. -/
theorem run_returns_iff (hcap : 0 < cap) (hplays : Plays process s input acts status) :
    (∀ run p, Runs (pipes runPolicy process cap) (start input s) run p →
      Stuck runPolicy process cap p → (outcome p).isSome = true) ↔
      Patient cap input.length acts := by
  constructor
  · intro hreturns past fd b todo hacts hfull
    by_contra hlong
    obtain ⟨run, p, hruns, hstuck, -⟩ : ∃ run p,
        Runs (pipes runPolicy process cap) (start input s) run p ∧ Stuck runPolicy process cap p ∧
          ∀ x ∈ run, ∀ fd, x.event ≠ .drop fd := exists_stuck (accounts_start hplays)
    have hdead : Unread p ∧ Deadlocked input acts status cap process past p := by
      refine hruns.history
        (I := fun _ p => Unread p ∧ Deadlocked input acts status cap process past p)
        (fun _ x hx ⟨hunread, hdead⟩ => ?_) ⟨fun _ _ => ⟨rfl, rfl⟩, rfl, [], acts, accounts_start hplays, List.nil_prefix⟩
      exact ⟨unread_move (moved hx) hunread,
        deadlocked_move hacts hfull (not_le.1 hlong) (moved hx) hunread hdead⟩
    have hsome := hreturns run p hruns hstuck
    rw [outcome, hdead.2.writing] at hsome
    cases hsome
  · intro hpatient run p hruns hstuck
    obtain ⟨past, todo, haccounts, -⟩ := accounts hplays hruns
    cases hwriter : p.writer with
    | broken => simp [outcome, hwriter]
    | closed =>
      have hfair : p.writer ≠ .writing → ∀ fd, p.ends fd = .up →
          ∃ fd', p.ends fd' = .up ∧ runPolicy.drains p.writer p.ends fd' = true :=
        fun _ fd hup => ⟨fd, hup, decide_eq_true hwriter⟩
      rcases stuck_cases hcap haccounts hfair hstuck with hdone | ⟨fd, ⟨_, _, _, -, -, -, -, hnot⟩, -⟩
      · have hboth : ¬ (p.ends .out = .up ∨ p.ends .err = .up) :=
          not_or.2 ⟨hdone.ends .out, hdone.ends .err⟩
        rw [outcome, hwriter]
        simp only [if_neg hboth]
        cases hchild : p.child with
        | running s =>
          have hdead := hdone.child
          rw [hchild] at hdead
          cases hdead
        | exited n => rfl
        | killed => rfl
      · exact absurd hwriter (of_decide_eq_false hnot)
    | writing =>
      have hunread := unread hruns hwriter
      rcases stuck_cases hcap haccounts (fun hne => absurd hwriter hne) hstuck with
        hdone | ⟨fd, ⟨s', b, next, hs, hwrite, hup, hlen, -⟩, hfull⟩
      · exact absurd hwriter hdone.writer
      · obtain ⟨hstdin, hrest⟩ := hfull hwriter
        obtain ⟨todo', htodo, -⟩ := (haccounts.tells.plays hs).next.2.1 fd b next hwrite
        have hout := haccounts.output fd (hup ▸ by decide)
        rw [(hunread fd).1, List.nil_append] at hout
        have hle := hpatient past fd b todo' (by rw [haccounts.whole, htodo]; rfl) (hout ▸ hlen.ge)
        have hin := haccounts.input
        have hpos := List.length_pos_iff.2 hrest
        omega

end Run

/-! ## `backup` and `restore` -/

/-- Two threads, of which one writes and the other reads the standard output, until it has come to the
end or gives up; the standard error is read by `finish_streaming`, after both have ended. -/
def streamPolicy : Policy where
  drains writer ends
    | .out => true
    | .err => decide (writer ≠ .writing ∧ ends .out ≠ .up)
  drops fd := decide (fd = .out)

section Stream

variable {S : Type} {process : Process S} {cap : ℕ} {input : Bytes} {acts past todo : List Did}
  {status : ℕ} {s : S} {p q : Piped S} {e : PipeEvent}
  {run : List (Move (Piped S) PipeEvent Empty)}

/-- The standard error is not read before the standard output has come to an end. -/
def Unheard (p : Piped S) : Prop :=
  p.writer = .writing ∨ p.ends .out = .up → p.got .err = [] ∧ p.ends .err = .up

theorem unheard_move (hmove : Moved streamPolicy process cap p e q) (h : Unheard p) :
    Unheard q := by
  -- a pipe is read
  have hdrained {fd : Fd} (hdrains : streamPolicy.drains p.writer p.ends fd = true) :
      fd = .out ∨ ¬ (p.writer = .writing ∨ p.ends .out = .up) := by
    cases fd with
    | out => exact Or.inl rfl
    | err =>
      obtain ⟨hwriter, hup⟩ := of_decide_eq_true hdrains
      exact Or.inr (not_or.2 ⟨hwriter, hup⟩)
  unfold Unheard at h ⊢
  cases hmove with
  | feed _ _ _ _ _ => exact h
  | close hwriter _ => exact fun hor => h (hor.imp_left nofun)
  | breakOff hwriter _ _ => exact fun hor => h (hor.imp_left nofun)
  | read _ _ _ => exact h
  | ended _ _ _ _ => exact h
  | write _ _ _ _ => exact h
  | kill _ _ _ => exact h
  | exit _ _ => exact h
  | @drain fd _ hdrains _ _ _ =>
    intro hor
    rcases hdrained hdrains with rfl | hnot
    · simpa only [Function.update_apply, reduceCtorEq, if_false] using h hor
    · exact absurd hor hnot
  | @eof fd hdrains hup _ _ =>
    intro hor
    rcases hdrained hdrains with rfl | hnot
    · simpa only [Function.update_apply, reduceCtorEq, if_false] using h (Or.inr hup)
    · refine absurd (hor.imp_right fun hout => ?_) hnot
      simp only [Function.update_apply] at hout
      split_ifs at hout
      exact hout
  | @drop fd hdrops hup =>
    intro _
    obtain rfl : fd = .out := of_decide_eq_true hdrops
    simpa only [Function.update_apply, reduceCtorEq, if_false] using h (Or.inr hup)

theorem unheard (h : Runs (pipes streamPolicy process cap) (start input s) run p) : Unheard p :=
  h.history (I := fun _ p => Unheard p) (fun _ _ hx => unheard_move (moved hx)) fun _ => ⟨rfl, rfl⟩

/-- gpg waits to write to its standard error, while its standard output is read. -/
structure Waiting (input : Bytes) (acts : List Did) (status cap : ℕ) (process : Process S)
    (before : List Did) (p : Piped S) : Prop where
  out : p.ends .out = .up
  unheard : Unheard p
  held : ∃ past todo, Accounts process cap input acts status past todo p ∧ past <+: before

theorem waiting_move {b : UInt8} {before after : List Did}
    (hacts : acts = before ++ .wrote .err b :: after) (hfull : cap ≤ (written .err before).length)
    (hmove : Moved streamPolicy process cap p e q) (hdrop : ∀ fd, e ≠ .drop fd)
    (h : Waiting input acts status cap process before p) :
    Waiting input acts status cap process before q := by
  obtain ⟨hout, hunheard, past, todo, haccounts, hpast⟩ := h
  have hends : ∀ fd, p.ends fd ≠ .dropped := fun fd => by
    cases fd with
    | out => exact hout ▸ by decide
    | err => exact (hunheard (Or.inr hout)).2 ▸ by decide
  have hrun := running_of_held hacts haccounts hpast hends
  have hout' : q.ends .out = .up := by
    cases hmove with
    | eof _ _ _ hdead =>
      rw [hrun] at hdead
      cases hdead
    | @drop fd _ _ => exact absurd rfl (hdrop fd)
    | feed _ _ _ _ _ => exact hout
    | close _ _ => exact hout
    | breakOff _ _ _ => exact hout
    | read _ _ _ => exact hout
    | ended _ _ _ _ => exact hout
    | write _ _ _ _ => exact hout
    | kill _ _ _ => exact hout
    | exit _ _ => exact hout
    | drain _ _ _ _ => exact hout
  have hunheard' := unheard_move hmove hunheard
  obtain ⟨hgot, hup⟩ := hunheard' (Or.inr hout')
  exact ⟨hout', hunheard', held_move hacts hfull haccounts hmove hgot (hup ▸ by decide)⟩

/-- **When `backup` and `restore` come to an end**: exactly if what gpg writes to its standard error
fits in a pipe. And where the writer has closed its pipe, the reader has come to the end of the
standard output, and gpg has exited with success, then the reader has all that gpg writes to it. -/
theorem stream_returns_iff (hcap : 0 < cap) (hplays : Plays process s input acts status) :
    ((∀ run p, Runs (pipes streamPolicy process cap) (start input s) run p →
      Stuck streamPolicy process cap p → Done p) ↔ (written .err acts).length ≤ cap) ∧
      ∀ run p, Runs (pipes streamPolicy process cap) (start input s) run p →
        p.writer = .closed → p.ends .out = .eof → p.child = .exited 0 →
        status = 0 ∧ p.got .out = written .out acts := by
  refine ⟨⟨fun hreturns => ?_, fun hshort run p hruns hstuck => ?_⟩, ?_⟩
  · by_contra hlong
    obtain ⟨before, b, after, hacts, hfull⟩ := exists_write (not_le.1 hlong)
    obtain ⟨run, p, hruns, hstuck, hnodrop⟩ : ∃ run p,
        Runs (pipes streamPolicy process cap) (start input s) run p ∧
          Stuck streamPolicy process cap p ∧ ∀ x ∈ run, ∀ fd, x.event ≠ .drop fd :=
      exists_stuck (accounts_start hplays)
    have hwaiting : (∀ x ∈ run, ∀ fd, x.event ≠ .drop fd) →
        Waiting input acts status cap process before p := by
      refine hruns.history (I := fun run p => (∀ x ∈ run, ∀ fd, x.event ≠ .drop fd) →
        Waiting input acts status cap process before p) (fun past x hx ih hall => ?_)
        fun _ => ⟨rfl, fun _ => ⟨rfl, rfl⟩, [], acts, accounts_start hplays, List.nil_prefix⟩
      obtain ⟨hpast, hlast⟩ := List.forall_mem_append.1 hall
      exact waiting_move hacts hfull (moved hx) (hlast x List.mem_cons_self) (ih hpast)
    exact (hreturns run p hruns hstuck).ends .out (hwaiting hnodrop).out
  · obtain ⟨past, todo, haccounts, -⟩ := accounts hplays hruns
    have hfair : p.writer ≠ .writing → ∀ fd, p.ends fd = .up →
        ∃ fd', p.ends fd' = .up ∧ streamPolicy.drains p.writer p.ends fd' = true := by
      intro hwriter fd hup
      by_cases hout : p.ends .out = .up
      · exact ⟨.out, hout, rfl⟩
      · cases fd with
        | out => exact absurd hup hout
        | err => exact ⟨.err, hup, decide_eq_true ⟨hwriter, hout⟩⟩
    rcases stuck_cases hcap haccounts hfair hstuck with
      hdone | ⟨fd, ⟨s', b, next, hs, hwrite, hup, hlen, hnot⟩, -⟩
    · exact hdone
    · exfalso
      cases fd with
      | out => cases hnot
      | err =>
        have hor : p.writer = .writing ∨ p.ends .out = .up := by
          by_contra hneither
          exact of_decide_eq_false hnot (not_or.1 hneither)
        obtain ⟨todo', htodo, -⟩ := (haccounts.tells.plays hs).next.2.1 .err b next hwrite
        have hout := haccounts.output .err (hup ▸ by decide)
        rw [(unheard hruns hor).1, List.nil_append] at hout
        have hall := haccounts.whole
        rw [htodo] at hall
        rw [hall, written_append, ← hout, List.length_append, hlen, written_append, written_wrote,
          if_pos rfl] at hshort
        simp at hshort
  · intro run p hruns _ heof hexited
    obtain ⟨past, todo, haccounts, -⟩ := accounts hplays hruns
    have htells := haccounts.tells
    unfold Tells at htells
    rw [hexited] at htells
    obtain ⟨rfl, hstatus⟩ := htells
    have hout := haccounts.output .out (heof ▸ by decide)
    rw [(haccounts.eof .out heof).2, List.append_nil] at hout
    refine ⟨hstatus.symm, ?_⟩
    rw [hout, haccounts.whole, List.append_nil]

end Stream

/-! ## A filter that writes while it reads -/

/-- The states of the filter. -/
inductive Filter where
  | reading
  | writing (b : UInt8)
  | done

/-- It writes each byte when it has read it. -/
def echo : Process Filter
  | .reading => .read fun
    | some b => .writing b
    | none => .done
  | .writing b => .write .out b .reading
  | .done => .exit 0

/-- What it does with an input. -/
def echoActs (input : Bytes) : List Did :=
  input.flatMap (fun b => [.read, .wrote .out b]) ++ [.ended]

theorem echo_plays (input : Bytes) : Plays echo .reading input (echoActs input) 0 := by
  induction input with
  | nil => exact .ended rfl (.exit rfl)
  | cons b input ih => exact .read rfl (.write rfl ih)

/-- When it writes, it has read one more byte than it has written. -/
theorem echo_reads {input : Bytes} {fd : Fd} {b : UInt8} {past todo : List Did}
    (h : echoActs input = past ++ .wrote fd b :: todo) :
    fd = .out ∧ taken past = (written fd past).length + 1 := by
  induction input generalizing past with
  | nil =>
    have hmem : .wrote fd b ∈ echoActs [] := by
      rw [h]
      simp
    simp [echoActs] at hmem
  | cons c input ih =>
    have hcons : echoActs (c :: input) = .read :: .wrote .out c :: echoActs input := rfl
    rw [hcons] at h
    match past, h with
    | [], h => cases (List.cons.inj h).1
    | [d], h =>
      obtain ⟨rfl, htail⟩ := List.cons.inj h
      obtain ⟨rfl, rfl⟩ := Did.wrote.inj (List.cons.inj htail).1
      exact ⟨rfl, rfl⟩
    | d :: d' :: past, h =>
      obtain ⟨rfl, htail⟩ := List.cons.inj h
      obtain ⟨rfl, hrest⟩ := List.cons.inj htail
      obtain ⟨rfl, hcount⟩ := ih hrest
      have hsplit : Did.read :: .wrote .out c :: past = [.read] ++ ([.wrote .out c] ++ past) := rfl
      refine ⟨rfl, ?_⟩
      rw [hsplit, taken_append, taken_append, written_append, written_append, taken_read,
        taken_wrote, written_read, written_wrote, if_pos rfl, hcount]
      simp only [List.length_append, List.length_nil, List.length_singleton]
      omega

/-- **It is patient** up to twice what fits in a pipe, and a byte. -/
theorem echo_patient_iff {cap : ℕ} {input : Bytes} :
    Patient cap input.length (echoActs input) ↔ input.length ≤ 2 * cap + 1 := by
  constructor
  · intro hpatient
    by_contra hlong
    have hsplit : input = input.take cap ++ input[cap] :: input.drop (cap + 1) := by
      rw [List.getElem_cons_drop, List.take_append_drop]
    have hparts (l r : Bytes) (b : UInt8) : echoActs (l ++ b :: r) =
        ((l.flatMap fun b => [.read, .wrote .out b]) ++ [.read]) ++ .wrote .out b :: echoActs r := by
      simp [echoActs]
    have hacts := (congrArg echoActs hsplit).trans (hparts _ _ _)
    obtain ⟨-, hcount⟩ := echo_reads hacts
    have htaken : taken (((input.take cap).flatMap fun b => [.read, .wrote .out b]) ++ [.read]) =
        cap + 1 := by
      have hone : (fun b : UInt8 => List.countP (fun d => d = Did.read)
          [Did.read, .wrote .out b]) = fun _ => 1 := rfl
      have hlen : (input.take cap).length = cap := List.length_take_of_le (by omega)
      rw [taken_append, taken_read, taken, List.countP_flatMap, Function.comp_def]
      simp only [hone, List.map_const', List.sum_replicate, hlen, smul_eq_mul, mul_one]
    have hle := hpatient _ _ _ _ hacts (by omega)
    omega
  · intro hshort past fd b todo hacts hfull
    obtain ⟨rfl, hcount⟩ := echo_reads hacts
    omega

/-- One byte, through pipes that hold one. -/
def echoEvents : List PipeEvent :=
  [.feed 1, .step, .step, .close, .step, .step, .drain .out 1, .eof .out, .eof .err]

def echoRun : List (Move (Piped Filter) PipeEvent Empty) × Piped Filter :=
  (exec (pipes runPolicy echo 1) (start [7] .reading) echoEvents).get rfl

theorem run_result_echo : outcome echoRun.2 = some (.ok [7]) ∧
    (Except.ok [7] = conclude (some 0) (written .out (echoActs [7])) (written .err (echoActs [7])) ∨
      (Except.ok [7] : Except GpgError Bytes) = .error .stdin ∧ taken (echoActs [7]) < 1) :=
  ⟨rfl, (run_result (echo_plays [7])
    (show Runs (pipes runPolicy echo 1) (start [7] .reading) echoRun.1 echoRun.2 from get_runs _)).2
    (.ok [7]) rfl⟩

theorem run_returns_iff_echo :
    (∀ run p, Runs (pipes runPolicy echo 1) (start [1, 2, 3] .reading) run p →
      Stuck runPolicy echo 1 p → (outcome p).isSome = true) ∧
    ¬ ∀ run p, Runs (pipes runPolicy echo 1) (start [1, 2, 3, 4] .reading) run p →
      Stuck runPolicy echo 1 p → (outcome p).isSome = true :=
  ⟨(run_returns_iff Nat.one_pos (echo_plays _)).2 (echo_patient_iff.2 (by decide)),
    fun h => absurd (echo_patient_iff.1 ((run_returns_iff Nat.one_pos (echo_plays _)).1 h))
      (by decide)⟩

theorem stream_returns_iff_echo : (written .err (echoActs [1, 2, 3, 4])).length ≤ 1 ∧
    ∀ run p, Runs (pipes streamPolicy echo 1) (start [1, 2, 3, 4] .reading) run p →
      Stuck streamPolicy echo 1 p → Done p :=
  ⟨by decide, (stream_returns_iff Nat.one_pos (echo_plays [1, 2, 3, 4])).1.2 (by decide)⟩

end GpgCli

end Bypass
