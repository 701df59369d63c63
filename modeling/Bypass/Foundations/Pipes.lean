import Bypass.Foundations.Runs

/-!
# A process between pipes

A process reads from one pipe and writes to two others. A pipe holds so many bytes and no more: who
writes to a full one waits, as does who reads from an empty one. On the other ends are a writer, who
has something to write and then closes the pipe, and a reader, who takes from the pipes that its
policy lets it take from, and may drop one. Bytes move in pieces of any size, in any order.

* `Plays`: what a process does with its input, when it does not have to wait.
* `accounts`: **in every run** it does just that, so far; and no run goes on for ever.
* `stuck_cases`: where no move is left, all is done, or the process waits for the reader.
* `exists_stuck`: there is always a run to such an end.
-/

namespace Bypass

namespace Pipes

open Machine

/-- The pipes a process writes to. -/
inductive Fd where
  | out
  | err
  deriving DecidableEq

/-- The next thing a process does: it reads a byte, or the end of its input; it writes one; or it
exits. -/
inductive Act (S : Type) where
  | read (next : Option UInt8 → S)
  | write (fd : Fd) (b : UInt8) (next : S)
  | exit (status : ℕ)

/-- A process, by what it does in each of its states. -/
abbrev Process (S : Type) := S → Act S

/-- What a process did. -/
inductive Did where
  | read
  | ended
  | wrote (fd : Fd) (b : UInt8)
  deriving DecidableEq

/-- From a state on, with this input left, the process does these things and exits. -/
inductive Plays {S : Type} (process : Process S) : S → List UInt8 → List Did → ℕ → Prop
  | read {s : S} {next : Option UInt8 → S} {b : UInt8} {input : List UInt8} {acts : List Did}
      {status : ℕ} : process s = .read next → Plays process (next (some b)) input acts status →
      Plays process s (b :: input) (.read :: acts) status
  | ended {s : S} {next : Option UInt8 → S} {acts : List Did} {status : ℕ} :
      process s = .read next → Plays process (next none) [] acts status →
      Plays process s [] (.ended :: acts) status
  | write {s next : S} {fd : Fd} {b : UInt8} {input : List UInt8} {acts : List Did} {status : ℕ} :
      process s = .write fd b next → Plays process next input acts status →
      Plays process s input (.wrote fd b :: acts) status
  | exit {s : S} {input : List UInt8} {status : ℕ} : process s = .exit status →
      Plays process s input [] status

/-- What was written to a pipe. -/
def written (fd : Fd) (acts : List Did) : List UInt8 :=
  acts.filterMap fun
    | .wrote fd' b => if fd' = fd then some b else none
    | .read => none
    | .ended => none

/-- How much was read. -/
def taken (acts : List Did) : ℕ := acts.countP (· = .read)

@[simp] theorem written_append (fd : Fd) (acts acts' : List Did) :
    written fd (acts ++ acts') = written fd acts ++ written fd acts' := List.filterMap_append

@[simp] theorem taken_append (acts acts' : List Did) :
    taken (acts ++ acts') = taken acts + taken acts' := List.countP_append

@[simp] theorem written_read (fd : Fd) : written fd [.read] = [] := rfl

@[simp] theorem written_ended (fd : Fd) : written fd [.ended] = [] := rfl

theorem written_wrote (fd fd' : Fd) (b : UInt8) :
    written fd [.wrote fd' b] = if fd' = fd then [b] else [] := by
  by_cases h : fd' = fd
  · simp [written, h]
  · simp [written, h]

@[simp] theorem taken_read : taken [.read] = 1 := rfl

@[simp] theorem taken_ended : taken [.ended] = 0 := rfl

@[simp] theorem taken_wrote (fd : Fd) (b : UInt8) : taken [.wrote fd b] = 0 := rfl

/-! ## The machine -/

/-- The process, or what became of it; a write to a pipe without a reader kills it. -/
inductive Child (S : Type) where
  | running (s : S)
  | exited (status : ℕ)
  | killed

def Child.isRunning {S : Type} : Child S → Bool
  | running _ => true
  | exited _ => false
  | killed => false

@[simp] theorem isRunning_running {S : Type} (s : S) : (Child.running s).isRunning = true := rfl

@[simp] theorem isRunning_exited {S : Type} (n : ℕ) :
    (Child.exited n : Child S).isRunning = false := rfl

@[simp] theorem isRunning_killed {S : Type} : (Child.killed : Child S).isRunning = false := rfl

/-- The writer is at work, has closed the pipe, or was told that there is no reader. -/
inductive Writer where
  | writing
  | closed
  | broken
  deriving DecidableEq

/-- The reading end of a pipe: it may have come to the end, or have been dropped. -/
inductive ReadEnd where
  | up
  | eof
  | dropped
  deriving DecidableEq

/-- What the reader may do: the pipes that it takes from, and those whose end it may drop. -/
structure Policy where
  drains : Writer → (Fd → ReadEnd) → Fd → Bool
  drops : Fd → Bool

/-- The process, the ends, what is in the pipes, and what was taken from them. -/
structure Piped (S : Type) where
  rest : List UInt8
  writer : Writer
  stdin : List UInt8
  child : Child S
  queue : Fd → List UInt8
  got : Fd → List UInt8
  ends : Fd → ReadEnd

/-- What can happen. -/
inductive PipeEvent where
  /-- The writer writes so many bytes, -/
  | feed (n : ℕ)
  /-- closes the pipe, -/
  | close
  /-- or is told that there is no reader. -/
  | breakOff
  /-- The process does what is next. -/
  | step
  /-- The reader takes so many bytes, -/
  | drain (fd : Fd) (n : ℕ)
  /-- comes to the end, -/
  | eof (fd : Fd)
  /-- or drops its end. -/
  | drop (fd : Fd)
  deriving DecidableEq

variable {S : Type} (policy : Policy) (process : Process S) (cap : ℕ)

/-- The next thing the process does, if it need not wait. -/
def play (p : Piped S) (s : S) : Option (Piped S) :=
  match process s with
  | .read next =>
    match p.stdin with
    | b :: stdin => some { p with stdin, child := .running (next (some b)) }
    | [] => if p.writer = .writing then none else some { p with child := .running (next none) }
  | .write fd b next =>
    if p.ends fd ≠ .up then some { p with child := .killed }
    else if (p.queue fd).length < cap then
      some { p with
        queue := Function.update p.queue fd (p.queue fd ++ [b])
        child := .running next }
    else none
  | .exit status => some { p with child := .exited status }

/-- The machine. -/
def pipes : Machine (Piped S) PipeEvent Empty
  | p, .feed n =>
    if p.writer = .writing ∧ 0 < n ∧ n ≤ p.rest.length ∧ p.child.isRunning = true ∧
        p.stdin.length + n ≤ cap then
      some ({ p with rest := p.rest.drop n, stdin := p.stdin ++ p.rest.take n }, [])
    else none
  | p, .close =>
    if p.writer = .writing ∧ p.rest = [] then some ({ p with writer := .closed }, []) else none
  | p, .breakOff =>
    if p.writer = .writing ∧ p.rest ≠ [] ∧ p.child.isRunning = false then
      some ({ p with writer := .broken }, [])
    else none
  | p, .step =>
    match p.child with
    | .running s => (play process cap p s).map fun p => (p, [])
    | .exited _ => none
    | .killed => none
  | p, .drain fd n =>
    if policy.drains p.writer p.ends fd = true ∧ p.ends fd = .up ∧ 0 < n ∧
        n ≤ (p.queue fd).length then
      some ({ p with
        queue := Function.update p.queue fd ((p.queue fd).drop n)
        got := Function.update p.got fd (p.got fd ++ (p.queue fd).take n) }, [])
    else none
  | p, .eof fd =>
    if policy.drains p.writer p.ends fd = true ∧ p.ends fd = .up ∧ p.queue fd = [] ∧
        p.child.isRunning = false then
      some ({ p with ends := Function.update p.ends fd .eof }, [])
    else none
  | p, .drop fd =>
    if policy.drops fd = true ∧ p.ends fd = .up then
      some ({ p with
        queue := Function.update p.queue fd []
        ends := Function.update p.ends fd .dropped }, [])
    else none

/-- How it starts. -/
def start (input : List UInt8) (s : S) : Piped S where
  rest := input
  writer := .writing
  stdin := []
  child := .running s
  queue := fun _ => []
  got := fun _ => []
  ends := fun _ => .up

/-- No move is left, but for the reader to drop an end. -/
def Stuck (p : Piped S) : Prop :=
  ∀ e, (∀ fd, e ≠ .drop fd) → pipes policy process cap p e = none

/-- All is done. -/
structure Done (p : Piped S) : Prop where
  writer : p.writer ≠ .writing
  ends : ∀ fd, p.ends fd ≠ .up
  child : p.child.isRunning = false

/-- What a move does. -/
inductive Moved (p : Piped S) : PipeEvent → Piped S → Prop
  | feed {n : ℕ} : p.writer = .writing → 0 < n → n ≤ p.rest.length → p.child.isRunning = true →
      p.stdin.length + n ≤ cap →
      Moved p (.feed n) { p with rest := p.rest.drop n, stdin := p.stdin ++ p.rest.take n }
  | close : p.writer = .writing → p.rest = [] → Moved p .close { p with writer := .closed }
  | breakOff : p.writer = .writing → p.rest ≠ [] → p.child.isRunning = false →
      Moved p .breakOff { p with writer := .broken }
  | read {s : S} {next : Option UInt8 → S} {b : UInt8} {stdin : List UInt8} :
      p.child = .running s → process s = .read next → p.stdin = b :: stdin →
      Moved p .step { p with stdin, child := .running (next (some b)) }
  | ended {s : S} {next : Option UInt8 → S} : p.child = .running s → process s = .read next →
      p.stdin = [] → p.writer ≠ .writing → Moved p .step { p with child := .running (next none) }
  | write {s next : S} {fd : Fd} {b : UInt8} : p.child = .running s →
      process s = .write fd b next → p.ends fd = .up → (p.queue fd).length < cap →
      Moved p .step { p with
        queue := Function.update p.queue fd (p.queue fd ++ [b])
        child := .running next }
  | kill {s next : S} {fd : Fd} {b : UInt8} : p.child = .running s →
      process s = .write fd b next → p.ends fd ≠ .up → Moved p .step { p with child := .killed }
  | exit {s : S} {status : ℕ} : p.child = .running s → process s = .exit status →
      Moved p .step { p with child := .exited status }
  | drain {fd : Fd} {n : ℕ} : policy.drains p.writer p.ends fd = true → p.ends fd = .up → 0 < n →
      n ≤ (p.queue fd).length → Moved p (.drain fd n) { p with
        queue := Function.update p.queue fd ((p.queue fd).drop n)
        got := Function.update p.got fd (p.got fd ++ (p.queue fd).take n) }
  | eof {fd : Fd} : policy.drains p.writer p.ends fd = true → p.ends fd = .up → p.queue fd = [] →
      p.child.isRunning = false →
      Moved p (.eof fd) { p with ends := Function.update p.ends fd .eof }
  | drop {fd : Fd} : policy.drops fd = true → p.ends fd = .up → Moved p (.drop fd) { p with
        queue := Function.update p.queue fd []
        ends := Function.update p.ends fd .dropped }

variable {policy process cap} {p q : Piped S} {e : PipeEvent} {outputs : List Empty}

theorem moved_play {s : S} (hs : p.child = .running s) (h : play process cap p s = some q) :
    Moved policy process cap p .step q := by
  unfold play at h
  split at h
  · next next hread =>
    split at h
    · next b stdin hstdin =>
      obtain rfl := Option.some.inj h
      exact .read hs hread hstdin
    · next hstdin =>
      split_ifs at h with hwriter
      obtain rfl := Option.some.inj h
      exact .ended hs hread hstdin hwriter
  · next fd b next hwrite =>
    split_ifs at h with hdown hfits
    · obtain rfl := Option.some.inj h
      exact .kill hs hwrite hdown
    · obtain rfl := Option.some.inj h
      exact .write hs hwrite (not_not.1 hdown) hfits
  · next status hexit =>
    obtain rfl := Option.some.inj h
    exact .exit hs hexit

theorem moved (h : pipes policy process cap p e = some (q, outputs)) :
    Moved policy process cap p e q := by
  cases e with
  | feed n =>
    dsimp only [pipes] at h
    split_ifs at h with hfeed
    obtain ⟨hwriter, hpos, hle, hrunning, hfits⟩ := hfeed
    obtain ⟨rfl, -⟩ := Prod.mk.inj (Option.some.inj h)
    exact .feed hwriter hpos hle hrunning hfits
  | close =>
    dsimp only [pipes] at h
    split_ifs at h with hclose
    obtain ⟨rfl, -⟩ := Prod.mk.inj (Option.some.inj h)
    exact .close hclose.1 hclose.2
  | breakOff =>
    dsimp only [pipes] at h
    split_ifs at h with hbreak
    obtain ⟨rfl, -⟩ := Prod.mk.inj (Option.some.inj h)
    exact .breakOff hbreak.1 hbreak.2.1 hbreak.2.2
  | step =>
    dsimp only [pipes] at h
    split at h
    · next s hs =>
      obtain ⟨q', hplay, h⟩ := Option.map_eq_some_iff.1 h
      obtain ⟨rfl, -⟩ := Prod.mk.inj h
      exact moved_play hs hplay
    · cases h
    · cases h
  | drain fd n =>
    dsimp only [pipes] at h
    split_ifs at h with hdrain
    obtain ⟨rfl, -⟩ := Prod.mk.inj (Option.some.inj h)
    exact .drain hdrain.1 hdrain.2.1 hdrain.2.2.1 hdrain.2.2.2
  | eof fd =>
    dsimp only [pipes] at h
    split_ifs at h with heof
    obtain ⟨rfl, -⟩ := Prod.mk.inj (Option.some.inj h)
    exact .eof heof.1 heof.2.1 heof.2.2.1 heof.2.2.2
  | drop fd =>
    dsimp only [pipes] at h
    split_ifs at h with hdrop
    obtain ⟨rfl, -⟩ := Prod.mk.inj (Option.some.inj h)
    exact .drop hdrop.1 hdrop.2

/-! ## What holds of every run -/

/-- What the process will do, or what became of it. -/
def Tells (process : Process S) (p : Piped S) (todo : List Did) (status : ℕ) : Prop :=
  match p.child with
  | .running s => Plays process s (p.stdin ++ p.rest) todo status
  | .exited n => todo = [] ∧ n = status
  | .killed => ∃ fd, p.ends fd = .dropped

/-- **The accounts of a run**: the process did what comes first of what it does when it does not have
to wait; the bytes of its input are read, or in the pipe, or still to be written; and what it wrote
was taken, or is in the pipes, or was dropped. -/
structure Accounts (process : Process S) (cap : ℕ) (input : List UInt8) (acts : List Did)
    (status : ℕ) (past todo : List Did) (p : Piped S) : Prop where
  whole : acts = past ++ todo
  tells : Tells process p todo status
  input : input.length = taken past + p.stdin.length + p.rest.length
  output : ∀ fd, p.ends fd ≠ .dropped → p.got fd ++ p.queue fd = written fd past
  fits : p.stdin.length ≤ cap ∧ ∀ fd, (p.queue fd).length ≤ cap
  closed : p.writer = .closed → p.rest = []
  broken : p.writer = .broken → p.child.isRunning = false ∧ p.rest ≠ []
  eof : ∀ fd, p.ends fd = .eof → p.child.isRunning = false ∧ p.queue fd = []

theorem accounts_start {input : List UInt8} {acts : List Did} {status : ℕ} {s : S}
    (h : Plays process s input acts status) :
    Accounts process cap input acts status [] acts (start input s) where
  whole := rfl
  tells := h
  input := by simp [start, taken]
  output _ _ := rfl
  fits := ⟨Nat.zero_le _, fun _ => Nat.zero_le _⟩
  closed h := by cases h
  broken h := by cases h
  eof fd h := by cases h

/-- How many moves can still be made. -/
def rank (p : Piped S) (todo : List Did) : ℕ :=
  2 * todo.length + p.rest.length + (p.queue .out).length + (p.queue .err).length +
    (if p.writer = .writing then 1 else 0) + (if p.child.isRunning = true then 1 else 0) +
    (if p.ends .out = .up then 1 else 0) + (if p.ends .err = .up then 1 else 0)

section Moves

variable {input : List UInt8} {acts past todo : List Did} {status : ℕ}

theorem isRunning_of {s : S} (hs : p.child = .running s) : p.child.isRunning = true := by
  rw [hs]
  rfl

theorem Tells.plays {s : S} (h : Tells process p todo status) (hs : p.child = .running s) :
    Plays process s (p.stdin ++ p.rest) todo status := by
  unfold Tells at h
  rwa [hs] at h

namespace Accounts

variable (h : Accounts process cap input acts status past todo p)
include h

/-- While the process runs, its reader has not come to an end, and its writer was not told that it
is gone. -/
theorem running {s : S} (hs : p.child = .running s) :
    (∀ fd, p.ends fd ≠ .eof) ∧ p.writer ≠ .broken := by
  have hrun := isRunning_of hs
  refine ⟨fun fd heof => ?_, fun hbroken => ?_⟩
  · rw [(h.eof fd heof).1] at hrun
    cases hrun
  · rw [(h.broken hbroken).1] at hrun
    cases hrun

/-- A move of the writer or of the reader. -/
theorem aside (hchild : q.child = p.child) (hinput : q.stdin ++ q.rest = p.stdin ++ p.rest)
    (hstdin : q.stdin.length ≤ cap) (hends : ∀ fd, p.ends fd = .dropped → q.ends fd = .dropped)
    (hout : ∀ fd, q.ends fd ≠ .dropped → q.got fd ++ q.queue fd = p.got fd ++ p.queue fd)
    (hqueue : ∀ fd, (q.queue fd).length ≤ (p.queue fd).length)
    (hclosed : q.writer = .closed → q.rest = [])
    (hbroken : q.writer = .broken → p.child.isRunning = false ∧ q.rest ≠ [])
    (heof : ∀ fd, q.ends fd = .eof → p.child.isRunning = false ∧ q.queue fd = []) :
    Accounts process cap input acts status past todo q where
  whole := h.whole
  tells := by
    have htells := h.tells
    unfold Tells at htells ⊢
    rw [hchild, hinput]
    cases hp : p.child with
    | running s =>
      rw [hp] at htells
      exact htells
    | exited n =>
      rw [hp] at htells
      exact htells
    | killed =>
      rw [hp] at htells
      obtain ⟨fd, hfd⟩ := htells
      exact ⟨fd, hends fd hfd⟩
  input := by
    have hin := h.input
    have hlen := congrArg List.length hinput
    rw [List.length_append, List.length_append] at hlen
    omega
  output fd hfd := (hout fd hfd).trans (h.output fd fun hdropped => hfd (hends fd hdropped))
  fits := ⟨hstdin, fun fd => (hqueue fd).trans (h.fits.2 fd)⟩
  closed := hclosed
  broken hw := hchild ▸ hbroken hw
  eof fd hfd := hchild ▸ heof fd hfd

/-- A move of the process. -/
theorem forward (did : List Did) (child : Child S) (stdin : List UInt8) (queue : Fd → List UInt8)
    {todo' : List Did} {s : S} (hs : p.child = .running s) (htodo : todo = did ++ todo')
    (htells : Tells process { p with stdin, queue, child } todo' status)
    (hinput : p.stdin.length = taken did + stdin.length)
    (hout : ∀ fd, queue fd = p.queue fd ++ written fd did) (hfits : ∀ fd, (queue fd).length ≤ cap) :
    Accounts process cap input acts status (past ++ did) todo' { p with stdin, queue, child } where
  whole := by rw [h.whole, htodo, List.append_assoc]
  tells := htells
  input := by
    have hin := h.input
    rw [taken_append]
    dsimp only
    omega
  output fd hfd := by
    have hbefore := h.output fd hfd
    dsimp only
    rw [hout, ← List.append_assoc, hbefore, written_append]
  fits := by
    refine ⟨?_, hfits⟩
    have hbefore := h.fits.1
    dsimp only
    omega
  closed := h.closed
  broken hw := absurd hw (h.running hs).2
  eof fd hfd := absurd hfd ((h.running hs).1 fd)

end Accounts

/-- What the process does next is what it is said to do. -/
theorem Plays.next {s : S} {input : List UInt8} (h : Plays process s input todo status) :
    (∀ next, process s = .read next →
      (∀ b left, input = b :: left →
        ∃ todo', todo = [.read] ++ todo' ∧ Plays process (next (some b)) left todo' status) ∧
      (input = [] → ∃ todo', todo = [.ended] ++ todo' ∧ Plays process (next none) [] todo' status)) ∧
    (∀ fd b next, process s = .write fd b next →
      ∃ todo', todo = [.wrote fd b] ++ todo' ∧ Plays process next input todo' status) ∧
    ∀ n, process s = .exit n → todo = [] ∧ n = status := by
  cases h with
  | @read _ next b left todo' _ hread hplays =>
    refine ⟨fun next' hread' => ⟨fun b' left' hin => ?_, nofun⟩, fun fd b' next' hwrite => ?_,
      fun n hexit => ?_⟩
    · obtain rfl := Act.read.inj (hread.symm.trans hread')
      obtain ⟨rfl, rfl⟩ := List.cons.inj hin
      exact ⟨todo', rfl, hplays⟩
    · cases hread.symm.trans hwrite
    · cases hread.symm.trans hexit
  | @ended _ next todo' _ hread hplays =>
    refine ⟨fun next' hread' => ⟨nofun, fun _ => ?_⟩, fun fd b' next' hwrite => ?_,
      fun n hexit => ?_⟩
    · obtain rfl := Act.read.inj (hread.symm.trans hread')
      exact ⟨todo', rfl, hplays⟩
    · cases hread.symm.trans hwrite
    · cases hread.symm.trans hexit
  | @write _ next fd b _ todo' _ hwrite hplays =>
    refine ⟨fun next' hread => ?_, fun fd' b' next' hwrite' => ?_, fun n hexit => ?_⟩
    · cases hwrite.symm.trans hread
    · obtain ⟨rfl, rfl, rfl⟩ := Act.write.inj (hwrite.symm.trans hwrite')
      exact ⟨todo', rfl, hplays⟩
    · cases hwrite.symm.trans hexit
  | exit hexit =>
    refine ⟨fun next' hread => ?_, fun fd' b' next' hwrite => ?_, fun n hexit' => ?_⟩
    · cases hexit.symm.trans hread
    · cases hexit.symm.trans hwrite
    · exact ⟨rfl, Act.exit.inj (hexit'.symm.trans hexit)⟩

/-- **One move** keeps the accounts, and uses up the moves that can be made. -/
theorem accounts_move (hmove : Moved policy process cap p e q)
    (h : Accounts process cap input acts status past todo p) :
    ∃ did todo', todo = did ++ todo' ∧ did.length ≤ 1 ∧
      Accounts process cap input acts status (past ++ did) todo' q ∧
      rank q todo' < rank p todo := by
  have hstay (h' : Accounts process cap input acts status past todo q)
      (hrank : rank q todo < rank p todo) :
      ∃ did todo', todo = did ++ todo' ∧ did.length ≤ 1 ∧
        Accounts process cap input acts status (past ++ did) todo' q ∧
        rank q todo' < rank p todo := by
    refine ⟨[], todo, rfl, Nat.zero_le _, ?_, hrank⟩
    rwa [List.append_nil]
  cases hmove with
  | feed hwriter hpos hle hrun hfits =>
    refine hstay (h.aside rfl ?_ ?_ (fun _ => id) (fun _ _ => rfl) (fun _ => le_rfl) ?_ ?_ h.eof) ?_
    · simp
    · simp only [List.length_append, List.length_take]
      omega
    · exact fun hclosed => absurd (hwriter.symm.trans hclosed) (by decide)
    · exact fun hbroken => absurd (hwriter.symm.trans hbroken) (by decide)
    · simp only [rank, List.length_drop]
      omega
  | close hwriter hrest =>
    refine hstay (h.aside rfl rfl h.fits.1 (fun _ => id) (fun _ _ => rfl) (fun _ => le_rfl)
      (fun _ => hrest) nofun h.eof) ?_
    simp [rank, hwriter]
  | breakOff hwriter hrest hdead =>
    refine hstay (h.aside rfl rfl h.fits.1 (fun _ => id) (fun _ _ => rfl) (fun _ => le_rfl) nofun
      (fun _ => ⟨hdead, hrest⟩) h.eof) ?_
    simp [rank, hwriter]
  | @read s next b stdin hs hread hstdin =>
    obtain ⟨todo', htodo, hplays⟩ :=
      ((h.tells.plays hs).next.1 next hread).1 b (stdin ++ p.rest) (by rw [hstdin, List.cons_append])
    refine ⟨_, todo', htodo, le_rfl, h.forward _ _ _ _ hs htodo hplays ?_ (fun fd => ?_) h.fits.2, ?_⟩
    · rw [hstdin, List.length_cons, taken_read, Nat.add_comm]
    · rw [written_read, List.append_nil]
    · rw [htodo]
      simp only [rank, List.length_append, List.length_singleton, hs, isRunning_running, if_true]
      omega
  | @ended s next hs hread hstdin hwriter =>
    have hrest : p.rest = [] := by
      cases hw : p.writer with
      | writing => exact absurd hw hwriter
      | closed => exact h.closed hw
      | broken => exact absurd hw (h.running hs).2
    have hnil : p.stdin ++ p.rest = [] := by rw [hstdin, hrest, List.append_nil]
    obtain ⟨todo', htodo, hplays⟩ := ((h.tells.plays hs).next.1 next hread).2 hnil
    refine ⟨_, todo', htodo, le_rfl, h.forward _ _ _ _ hs htodo ?_ ?_ (fun fd => ?_) h.fits.2,
      ?_⟩
    · show Plays process (next none) (p.stdin ++ p.rest) todo' status
      rwa [hnil]
    · rw [taken_ended, Nat.zero_add]
    · rw [written_ended, List.append_nil]
    · rw [htodo]
      simp only [rank, List.length_append, List.length_singleton, hs, isRunning_running, if_true]
      omega
  | @write s next fd b hs hwrite hup hroom =>
    obtain ⟨todo', htodo, hplays⟩ := (h.tells.plays hs).next.2.1 fd b next hwrite
    refine ⟨_, todo', htodo, le_rfl,
      h.forward _ _ _ _ hs htodo hplays ?_ (fun fd' => ?_) (fun fd' => ?_), ?_⟩
    · rw [taken_wrote, Nat.zero_add]
    · rw [written_wrote, Function.update_apply]
      by_cases hsame : fd' = fd
      · rw [if_pos hsame, if_pos hsame.symm, hsame]
      · rw [if_neg hsame, if_neg (Ne.symm hsame), List.append_nil]
    · rw [Function.update_apply]
      split_ifs
      · rw [List.length_append, List.length_singleton]
        omega
      · exact h.fits.2 fd'
    · rw [htodo]
      cases fd <;>
      · simp only [rank, List.length_append, List.length_singleton, hs, isRunning_running,
          Function.update_apply, reduceCtorEq, if_true, if_false]
        omega
  | @kill s next fd b hs hwrite hdown =>
    have hdropped : p.ends fd = .dropped := by
      cases hfd : p.ends fd with
      | up => exact absurd hfd hdown
      | eof => exact absurd hfd ((h.running hs).1 fd)
      | dropped => rfl
    refine ⟨[], todo, rfl, Nat.zero_le _, h.forward [] .killed p.stdin p.queue hs rfl ⟨fd, hdropped⟩
      (Nat.zero_add _).symm (fun _ => (List.append_nil _).symm) h.fits.2, ?_⟩
    simp only [rank, hs, isRunning_running, isRunning_killed, if_true, Bool.false_eq_true, if_false]
    omega
  | @exit s n hs hexit =>
    obtain ⟨htodo, hstatus⟩ := (h.tells.plays hs).next.2.2 n hexit
    refine ⟨[], todo, rfl, Nat.zero_le _, h.forward [] (.exited n) p.stdin p.queue hs rfl
      ⟨htodo, hstatus⟩ (Nat.zero_add _).symm (fun _ => (List.append_nil _).symm) h.fits.2, ?_⟩
    simp only [rank, hs, isRunning_running, isRunning_exited, if_true, Bool.false_eq_true, if_false]
    omega
  | @drain fd n hdrains hup hpos hle =>
    refine hstay (h.aside rfl rfl h.fits.1 (fun _ => id) (fun fd' _ => ?_) (fun fd' => ?_) h.closed
      h.broken fun fd' he => ⟨(h.eof fd' he).1, ?_⟩) ?_
    · simp only [Function.update_apply]
      split_ifs with hsame
      · rw [hsame, List.append_assoc, List.take_append_drop]
      · rfl
    · simp only [Function.update_apply]
      split_ifs with hsame
      · rw [hsame, List.length_drop]
        exact Nat.sub_le _ _
      · exact le_rfl
    · simp only [Function.update_apply]
      split_ifs with hsame
      · rw [hsame, hup] at he
        cases he
      · exact (h.eof fd' he).2
    · cases fd <;>
      · simp only [rank, Function.update_apply, List.length_drop, reduceCtorEq, if_true, if_false]
        omega
  | @eof fd hdrains hup hnil hdead =>
    refine hstay (h.aside rfl rfl h.fits.1 (fun fd' hfd => ?_) (fun _ _ => rfl) (fun _ => le_rfl)
      h.closed h.broken fun fd' he => ?_) ?_
    · simp only [Function.update_apply]
      split_ifs with hsame
      · rw [hsame, hup] at hfd
        cases hfd
      · exact hfd
    · simp only [Function.update_apply] at he
      split_ifs at he with hsame
      · exact ⟨hdead, hsame ▸ hnil⟩
      · exact h.eof fd' he
    · cases fd <;>
      · simp only [rank, hup, Function.update_apply, reduceCtorEq, if_true, if_false]
        omega
  | @drop fd hdrops hup =>
    refine hstay (h.aside rfl rfl h.fits.1 (fun fd' hfd => ?_) (fun fd' hfd => ?_) (fun fd' => ?_)
      h.closed h.broken fun fd' he => ?_) ?_
    · simp only [Function.update_apply]
      split_ifs
      · rfl
      · exact hfd
    · simp only [Function.update_apply] at hfd ⊢
      split_ifs at hfd ⊢ with hsame
      · exact absurd rfl hfd
      · rfl
    · simp only [Function.update_apply]
      split_ifs
      · exact Nat.zero_le _
      · exact le_rfl
    · simp only [Function.update_apply] at he ⊢
      split_ifs at he ⊢ with hsame
      exact h.eof fd' he
    · cases fd <;>
      · simp only [rank, hup, Function.update_apply, List.length_nil, reduceCtorEq, if_true,
          if_false]
        omega

/-- **The accounts of every run**; and there are only so many moves. -/
theorem accounts {s : S} {run : List (Move (Piped S) PipeEvent Empty)}
    (hplays : Plays process s input acts status)
    (h : Runs (pipes policy process cap) (start input s) run p) :
    ∃ past todo, Accounts process cap input acts status past todo p ∧
      run.length + rank p todo ≤ 2 * acts.length + input.length + 4 := by
  refine h.history (I := fun run p => ∃ past todo,
    Accounts process cap input acts status past todo p ∧
      run.length + rank p todo ≤ 2 * acts.length + input.length + 4) ?_ ?_
  · rintro before x hx ⟨past, todo, haccounts, hlen⟩
    obtain ⟨did, todo', -, -, haccounts', hrank⟩ := accounts_move (moved hx) haccounts
    refine ⟨past ++ did, todo', haccounts', ?_⟩
    rw [List.length_append, List.length_singleton]
    omega
  · refine ⟨[], acts, accounts_start hplays, ?_⟩
    simp [rank, start]

/-! ## Where a run ends -/

/-- The process waits for the reader: it has a byte to write to a full pipe, and the reader takes from
another. -/
def Waits (policy : Policy) (process : Process S) (cap : ℕ) (p : Piped S) (fd : Fd) : Prop :=
  ∃ s b next, p.child = .running s ∧ process s = .write fd b next ∧ p.ends fd = .up ∧
    (p.queue fd).length = cap ∧ policy.drains p.writer p.ends fd = false

/-- **Where no move is left**, all is done, or the process waits for the reader; and when the writer
is still at work, its pipe is full. -/
theorem stuck_cases (hcap : 0 < cap) (h : Accounts process cap input acts status past todo p)
    (hfair : p.writer ≠ .writing → ∀ fd, p.ends fd = .up →
      ∃ fd', p.ends fd' = .up ∧ policy.drains p.writer p.ends fd' = true)
    (hstuck : Stuck policy process cap p) :
    Done p ∨ ∃ fd, Waits policy process cap p fd ∧
      (p.writer = .writing → p.stdin.length = cap ∧ p.rest ≠ []) := by
  have hopen : p.writer = .writing → p.rest ≠ [] := fun hwriter hrest => by
    have hclose := hstuck .close nofun
    dsimp only [pipes] at hclose
    rw [if_pos ⟨hwriter, hrest⟩] at hclose
    cases hclose
  have hdrain (fd : Fd) (hup : p.ends fd = .up) (hne : p.queue fd ≠ []) :
      policy.drains p.writer p.ends fd = false := by
    by_contra hdrains
    have hnone := hstuck (.drain fd 1) nofun
    dsimp only [pipes] at hnone
    rw [if_pos ⟨Bool.eq_true_of_not_eq_false hdrains, hup, Nat.one_pos,
      List.length_pos_iff.2 hne⟩] at hnone
    cases hnone
  cases hrun : p.child.isRunning with
  | false =>
    refine Or.inl ⟨fun hwriter => ?_, fun fd hup => ?_, hrun⟩
    · have hbreak := hstuck .breakOff nofun
      dsimp only [pipes] at hbreak
      rw [if_pos ⟨hwriter, hopen hwriter, hrun⟩] at hbreak
      cases hbreak
    · have hwriter : p.writer ≠ .writing := fun hwriter => by
        have hbreak := hstuck .breakOff nofun
        dsimp only [pipes] at hbreak
        rw [if_pos ⟨hwriter, hopen hwriter, hrun⟩] at hbreak
        cases hbreak
      obtain ⟨fd', hup', hdrains⟩ := hfair hwriter fd hup
      by_cases hnil : p.queue fd' = []
      · have heof := hstuck (.eof fd') nofun
        dsimp only [pipes] at heof
        rw [if_pos ⟨hdrains, hup', hnil, hrun⟩] at heof
        cases heof
      · rw [hdrain fd' hup' hnil] at hdrains
        cases hdrains
  | true =>
    -- the writer cannot write more while the process runs
    have hfull : p.writer = .writing → p.stdin.length = cap := fun hwriter => by
      by_contra hne
      have hfits := h.fits.1
      have hfeed := hstuck (.feed 1) nofun
      dsimp only [pipes] at hfeed
      rw [if_pos ⟨hwriter, Nat.one_pos, List.length_pos_iff.2 (hopen hwriter), hrun, by omega⟩]
        at hfeed
      cases hfeed
    cases hchild : p.child with
    | exited n =>
      rw [hchild] at hrun
      cases hrun
    | killed =>
      rw [hchild] at hrun
      cases hrun
    | running s =>
      have hstep : play process cap p s = none := by
        have hnone := hstuck .step nofun
        dsimp only [pipes] at hnone
        rw [hchild] at hnone
        exact Option.map_eq_none_iff.1 hnone
      unfold play at hstep
      split at hstep
      · next next hread =>
        split at hstep
        · cases hstep
        · next hstdin =>
          split_ifs at hstep with hwriter
          have hlen := hfull hwriter
          rw [hstdin, List.length_nil] at hlen
          omega
      · next fd b next hwrite =>
        split_ifs at hstep with hdown hroom
        have hup := not_not.1 hdown
        have hlen : (p.queue fd).length = cap := le_antisymm (h.fits.2 fd) (not_lt.1 hroom)
        have hne : p.queue fd ≠ [] := List.length_pos_iff.1 (hlen ▸ hcap)
        exact Or.inr ⟨fd, ⟨s, b, next, hchild, hwrite, hup, hlen, hdrain fd hup hne⟩,
          fun hwriter => ⟨hfull hwriter, hopen hwriter⟩⟩
      · cases hstep

/-- **There is a run to where no move is left**, on which the reader drops nothing. -/
theorem exists_stuck (h : Accounts process cap input acts status past todo p) :
    ∃ run q, Runs (pipes policy process cap) p run q ∧ Stuck policy process cap q ∧
      ∀ x ∈ run, ∀ fd, x.event ≠ .drop fd := by
  induction hrank : rank p todo using Nat.strong_induction_on generalizing p past todo with
  | _ n ih =>
    by_cases hstuck : Stuck policy process cap p
    · exact ⟨[], p, .nil p, hstuck, nofun⟩
    · unfold Stuck at hstuck
      push Not at hstuck
      obtain ⟨e, he, hsome⟩ := hstuck
      obtain ⟨⟨q, outputs⟩, hq⟩ := Option.ne_none_iff_exists'.1 hsome
      obtain ⟨did, todo', -, -, haccounts, hless⟩ := accounts_move (moved hq) h
      obtain ⟨run, t, hruns, hend, hnodrop⟩ := ih _ (hrank ▸ hless) haccounts rfl
      have hmove : (pipes policy process cap).Makes ⟨p, e, q, outputs⟩ := hq
      exact ⟨⟨p, e, q, outputs⟩ :: run, t, .cons hmove hruns, hend,
        List.forall_mem_cons.2 ⟨he, hnodrop⟩⟩

/-! ## A full pipe that nobody takes from -/

section Held

variable {fd : Fd} {b : UInt8} {before after : List Did} (hacts : acts = before ++ .wrote fd b :: after)
include hacts

/-- Up to there, the process runs. -/
theorem running_of_held (h : Accounts process cap input acts status past todo p)
    (hpast : past <+: before) (hends : ∀ fd, p.ends fd ≠ .dropped) : p.child.isRunning = true := by
  have htodo : todo ≠ [] := by
    rintro rfl
    have hlen := congrArg List.length (hacts.symm.trans h.whole)
    have hle := hpast.length_le
    rw [List.length_append, List.length_append, List.length_cons, List.length_nil] at hlen
    omega
  have htells := h.tells
  unfold Tells at htells
  cases hp : p.child with
  | running s => rfl
  | exited n =>
    rw [hp] at htells
    exact absurd htells.1 htodo
  | killed =>
    rw [hp] at htells
    obtain ⟨fd, hfd⟩ := htells
    exact absurd hfd (hends fd)

/-- **The process does not get past** a write to a pipe that is full then, while nobody takes from
it. -/
theorem held_move (hfull : cap ≤ (written fd before).length)
    (h : Accounts process cap input acts status past todo p)
    (hmove : Moved policy process cap p e q) (hgot : q.got fd = []) (hup : q.ends fd ≠ .dropped) :
    ∃ past' todo', Accounts process cap input acts status past' todo' q ∧ past' <+: before := by
  obtain ⟨did, todo', htodo, hlen, haccounts, -⟩ := accounts_move hmove h
  refine ⟨past ++ did, todo', haccounts, ?_⟩
  have hsplit : past ++ (did ++ todo') = before ++ .wrote fd b :: after := by
    rw [← htodo, ← h.whole, hacts]
  rw [← List.append_assoc] at hsplit
  rcases List.append_eq_append_iff.1 hsplit with ⟨rest, hbefore, -⟩ | ⟨extra, hover, htail⟩
  · exact ⟨rest, hbefore.symm⟩
  · cases extra with
    | nil =>
      rw [List.append_nil] at hover
      exact hover ▸ List.prefix_rfl
    | cons d extra =>
      -- the write was made, so that there is more in the pipe than fits
      exfalso
      obtain ⟨rfl, -⟩ := List.cons.inj htail
      have hout := haccounts.output fd hup
      have hfits := haccounts.fits.2 fd
      rw [hgot, List.nil_append, hover, written_append] at hout
      have hone : 0 < (written fd (.wrote fd b :: extra)).length := by
        rw [← List.singleton_append, written_append, written_wrote, if_pos rfl]
        simp
      have hcount := congrArg List.length hout
      rw [List.length_append] at hcount
      omega

end Held

/-- What is written in all, is written in part first. -/
theorem exists_write {fd : Fd} (h : cap < (written fd acts).length) :
    ∃ before b after, acts = before ++ .wrote fd b :: after ∧ cap ≤ (written fd before).length := by
  induction acts using List.reverseRecOn with
  | nil => cases h
  | append_singleton acts d ih =>
    by_cases hless : cap < (written fd acts).length
    · obtain ⟨before, b, after, hacts, hfull⟩ := ih hless
      refine ⟨before, b, after ++ [d], ?_, hfull⟩
      rw [hacts, List.append_assoc, List.cons_append]
    · rw [written_append, List.length_append] at h
      cases d with
      | read =>
        rw [written_read, List.length_nil] at h
        exact absurd h hless
      | ended =>
        rw [written_ended, List.length_nil] at h
        exact absurd h hless
      | wrote fd' b =>
        rw [written_wrote] at h
        split_ifs at h with hsame
        · subst hsame
          rw [List.length_singleton] at h
          exact ⟨acts, b, [], rfl, by omega⟩
        · exact absurd h hless

/-- An end that may not be dropped is not. -/
theorem not_dropped {s : S} {run : List (Move (Piped S) PipeEvent Empty)}
    (h : Runs (pipes policy process cap) (start input s) run p) {fd : Fd}
    (hdrops : policy.drops fd = false) : p.ends fd ≠ .dropped := by
  refine h.history (I := fun _ p => p.ends fd ≠ .dropped) (fun _ x hx hi => ?_) nofun
  have hmove := moved hx
  generalize x.after = q, x.event = e at hmove ⊢
  cases hmove with
  | @eof fd' _ hup _ _ =>
    simp only [Function.update_apply]
    split_ifs
    · decide
    · exact hi
  | @drop fd' hdrops' hup =>
    simp only [Function.update_apply]
    split_ifs with hsame
    · rw [hsame, hdrops'] at hdrops
      cases hdrops
    · exact hi
  | feed _ _ _ _ _ => exact hi
  | close _ _ => exact hi
  | breakOff _ _ _ => exact hi
  | read _ _ _ => exact hi
  | ended _ _ _ _ => exact hi
  | write _ _ _ _ => exact hi
  | kill _ _ _ => exact hi
  | exit _ _ => exact hi
  | drain _ _ _ _ => exact hi

end Moves

end Pipes

end Bypass
