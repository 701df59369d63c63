import Bypass.Foundations.Runs
import Bypass.Foundations.Text

/-!
# The key of a device

A device has one key pair, in a file of its own (`identity.rs`). Any number of processes load it,
make it where there is none, or rotate it, and each of their calls may fail, or be the last one
before the process is killed. A key is written to a file named after the process, and renamed into
place.

* `identity_whole`: whoever loads a key gets a whole one, that a process has generated.
* `identity_agreed`: with no rotation, and when no two processes make the key at the same time, all
  of them have the key that stays on disk.
-/

namespace Bypass.Identity

open Machine

variable {P Key : Type} [DecidableEq P]

/-- Key pairs in protobuf, which is not read here. -/
structure KeyCodec (Key : Type) where
  encode : Key → Bytes
  decode : Bytes → Except Str Key

/-- A key is read back from its encoding. -/
def KeyCodec.RoundTrips (codec : KeyCodec Key) : Prop := ∀ k, codec.decode (codec.encode k) = .ok k

/-- A file, with its permissions. -/
structure KeyFile where
  bytes : Bytes
  mode : ℕ
  deriving DecidableEq

/-- `LoadError`, and that of a `save`. -/
inductive IdentityError where
  | notFound
  | widePerms (mode : ℕ)
  | io (source : Str)
  | malformed (source : Str)
  | save (source : Str)
  deriving DecidableEq

/-- What a process does next: `look` is the call of `metadata`, and `write` with nothing left is
`sync_all`. -/
inductive KeyPhase (Key : Type) where
  | idle
  | look (generate : Bool) (key : Key)
  | read
  | createDirs (key : Key)
  | create (key : Key)
  | write (key : Key) (rest : Bytes)
  | rename (key : Key)
  | discard (source : Str)
  deriving DecidableEq

/-- The key is going to be in place: it is made, and not given up. -/
def KeyPhase.Saves : KeyPhase Key → Prop
  | .createDirs _ | .create _ | .write _ _ | .rename _ => True
  | _ => False

instance (phase : KeyPhase Key) : Decidable phase.Saves := by
  cases phase <;> unfold KeyPhase.Saves <;> infer_instance

/-- The process looks whether there is a key, and makes one if not. -/
def KeyPhase.Generates : KeyPhase Key → Prop
  | .look generate _ => generate = true
  | _ => False

inductive KeyCommand where
  | load
  | loadOrGenerate
  | rotate
  deriving DecidableEq

/-- The first phase of a command. -/
def KeyCommand.first (key : Key) : KeyCommand → KeyPhase Key
  | .load => .look false key
  | .loadOrGenerate => .look true key
  | .rotate => .createDirs key

/-- The file of the key, the temporary file of each process, and the processes. A file in place is
never written to, so a read of it is one step. -/
structure KeyWorld (P Key : Type) where
  file : Option KeyFile
  tmp : P → Option KeyFile
  phase : P → KeyPhase Key

/-- What happens: `io` is what a call of the process comes to, with the number of bytes of a write.
The key of a command is the one that it generates, if it does. -/
inductive KeyEvent (P Key : Type) where
  | start (p : P) (command : KeyCommand) (key : Key)
  | call (p : P) (io : Except Str ℕ)
  | kill (p : P)
  | delete
  | chmod (mode : ℕ)

/-- A command returns. -/
structure KeyOutput (P Key : Type) where
  process : P
  result : Except IdentityError Key

namespace KeyWorld

variable (w : KeyWorld P Key)

/-- A process goes on, with its temporary file. -/
def set (p : P) (tmp : Option KeyFile) (phase : KeyPhase Key) : KeyWorld P Key :=
  { w with tmp := Function.update w.tmp p tmp, phase := Function.update w.phase p phase }

/-- A process goes on. -/
def enter (p : P) (phase : KeyPhase Key) : KeyWorld P Key × List (KeyOutput P Key) :=
  (w.set p (w.tmp p) phase, [])

/-- A command returns. -/
def finish (p : P) (result : Except IdentityError Key) : KeyWorld P Key × List (KeyOutput P Key) :=
  (w.set p (w.tmp p) .idle, [⟨p, result⟩])

/-- `load`, when the metadata is there. -/
def looked (p : P) (generate : Bool) (key : Key) : KeyWorld P Key × List (KeyOutput P Key) :=
  match w.file with
  | none => if generate then w.enter p (.createDirs key) else w.finish p (.error .notFound)
  | some f =>
    if f.mode &&& 0o077 ≠ 0 then w.finish p (.error (.widePerms (f.mode &&& 0o777)))
    else w.enter p .read

/-- `load`, when the file is read. -/
def readKey (codec : KeyCodec Key) (p : P) : KeyWorld P Key × List (KeyOutput P Key) :=
  match w.file with
  | none => w.finish p (.error (.io "No such file or directory (os error 2)".toList))
  | some f =>
    match codec.decode f.bytes with
    | .ok key => w.finish p (.ok key)
    | .error e => w.finish p (.error (.malformed e))

/-- `create_new`, with the mode of a private file. -/
def created (codec : KeyCodec Key) (umask : ℕ) (p : P) (key : Key) :
    KeyWorld P Key × List (KeyOutput P Key) :=
  match w.tmp p with
  | some _ => w.finish p (.error (.save "File exists (os error 17)".toList))
  | none => (w.set p (some ⟨[], 0o600 &&& (0o777 ^^^ umask)⟩) (.write key (codec.encode key)), [])

/-- A part of the key is written. -/
def wrote (p : P) (key : Key) (rest : Bytes) (count : ℕ) :
    KeyWorld P Key × List (KeyOutput P Key) :=
  if rest = [] then w.enter p (.rename key)
  else if count = 0 then w.enter p (.discard "failed to write whole buffer".toList)
  else
    (w.set p ((w.tmp p).map fun f => { f with bytes := f.bytes ++ rest.take count })
      (.write key (rest.drop count)), [])

/-- The temporary file becomes the key's. -/
def renamed (p : P) (key : Key) : KeyWorld P Key × List (KeyOutput P Key) :=
  match w.tmp p with
  | none => w.enter p (.discard "No such file or directory (os error 2)".toList)
  | some f => ({ w.set p none .idle with file := some f }, [⟨p, .ok key⟩])

/-- One call of a process. -/
def call (codec : KeyCodec Key) (umask : ℕ) (p : P) (io : Except Str ℕ) :
    Option (KeyWorld P Key × List (KeyOutput P Key)) :=
  match w.phase p, io with
  | .idle, _ => none
  | .look _ _, .error e => some (w.finish p (.error (.io e)))
  | .look generate key, .ok _ => some (w.looked p generate key)
  | .read, .error e => some (w.finish p (.error (.io e)))
  | .read, .ok _ => some (w.readKey codec p)
  | .createDirs _, .error e => some (w.finish p (.error (.save e)))
  | .createDirs key, .ok _ => some (w.enter p (.create key))
  | .create _, .error e => some (w.finish p (.error (.save e)))
  | .create key, .ok _ => some (w.created codec umask p key)
  | .write _ _, .error e => some (w.enter p (.discard e))
  | .write key rest, .ok count => some (w.wrote p key rest count)
  | .rename _, .error e => some (w.enter p (.discard e))
  | .rename key, .ok _ => some (w.renamed p key)
  | .discard e, .error _ => some (w.finish p (.error (.save e)))
  | .discard e, .ok _ => some (w.set p none .idle, [⟨p, .error (.save e)⟩])

end KeyWorld

/-- The processes of a device. A process that is killed leaves its file. -/
def identity (codec : KeyCodec Key) (umask : ℕ) :
    Machine (KeyWorld P Key) (KeyEvent P Key) (KeyOutput P Key) := fun w e =>
  match e with
  | .start p command key =>
    match w.phase p with
    | .idle => some (w.enter p (command.first key))
    | _ => none
  | .call p io => w.call codec umask p io
  | .kill p => some (w.enter p .idle)
  | .delete => some ({ w with file := none }, [])
  | .chmod mode => some ({ w with file := w.file.map fun f => { f with mode } }, [])

/-! ## Whole keys -/

section Whole

variable (codec : KeyCodec Key) (K : Key → Prop)

/-- What a process and its temporary file have to do with each other. -/
def Tmp (tmp : Option KeyFile) : KeyPhase Key → Prop
  | .look generate key => generate = true → K key
  | .createDirs key | .create key => K key
  | .write key rest => K key ∧ ∃ f, tmp = some f ∧ f.bytes ++ rest = codec.encode key
  | .rename key => K key ∧ ∃ f, tmp = some f ∧ f.bytes = codec.encode key
  | .idle | .read | .discard _ => True

/-- The file in place is a whole key, and the processes write theirs. -/
structure Whole (w : KeyWorld P Key) : Prop where
  file : ∀ f ∈ w.file, ∃ key, K key ∧ f.bytes = codec.encode key
  tmp : ∀ p, Tmp codec K (w.tmp p) (w.phase p)

variable {codec K} {w : KeyWorld P Key} {umask : ℕ}

theorem Whole.set (h : Whole codec K w) (p : P) {tmp : Option KeyFile} {phase : KeyPhase Key}
    (hp : Tmp codec K tmp phase) : Whole codec K (w.set p tmp phase) where
  file := h.file
  tmp q := by
    unfold KeyWorld.set
    by_cases hq : q = p
    · subst hq
      simpa using hp
    · simpa [Function.update_of_ne hq] using h.tmp q

/-- No key of the outputs is torn, or unknown. -/
def Sound (K : Key → Prop) (outputs : List (KeyOutput P Key)) : Prop :=
  ∀ o ∈ outputs, (∀ e, o.result ≠ .error (.malformed e)) ∧ ∀ key, o.result = .ok key → K key

omit [DecidableEq P] in
theorem sound_nil : Sound K ([] : List (KeyOutput P Key)) := List.forall_mem_nil _

omit [DecidableEq P] in
theorem sound_ok {p : P} {key : Key} (hkey : K key) : Sound K [⟨p, .ok key⟩] := by
  refine List.forall_mem_singleton.2 ⟨fun e => by simp, fun key' h => ?_⟩
  rwa [← Except.ok.inj h]

omit [DecidableEq P] in
theorem sound_error {p : P} {e : IdentityError} (he : ∀ source, e ≠ .malformed source) :
    Sound K [⟨p, .error e⟩] :=
  List.forall_mem_singleton.2 ⟨fun source h => he source (Except.error.inj h), fun key => by simp⟩

theorem Whole.enter (h : Whole codec K w) (p : P) {phase : KeyPhase Key}
    (hp : Tmp codec K (w.tmp p) phase) :
    Whole codec K (w.enter p phase).1 ∧ Sound K (w.enter p phase).2 :=
  ⟨h.set p hp, sound_nil⟩

theorem Whole.fail (h : Whole codec K w) (p : P) {e : IdentityError}
    (he : ∀ source, e ≠ .malformed source) :
    Whole codec K (w.finish p (.error e)).1 ∧ Sound K (w.finish p (.error e)).2 :=
  ⟨h.set p trivial, sound_error he⟩

theorem Whole.looked (h : Whole codec K w) (p : P) (generate : Bool) {key : Key}
    (hkey : generate = true → K key) :
    Whole codec K (w.looked p generate key).1 ∧ Sound K (w.looked p generate key).2 := by
  unfold KeyWorld.looked
  cases w.file with
  | none =>
    cases generate with
    | true => exact h.enter p (hkey rfl)
    | false => exact h.fail p fun source => by simp
  | some f =>
    dsimp only
    split_ifs
    · exact h.fail p fun source => by simp
    · exact h.enter p trivial

/-- A file in place is never malformed. -/
theorem Whole.readKey (hcodec : codec.RoundTrips) (h : Whole codec K w) (p : P) :
    Whole codec K (w.readKey codec p).1 ∧ Sound K (w.readKey codec p).2 := by
  unfold KeyWorld.readKey
  cases hfile : w.file with
  | none => exact h.fail p fun source => by simp
  | some f =>
    obtain ⟨key, hkey, hbytes⟩ := h.file f hfile
    dsimp only
    rw [hbytes, hcodec key]
    exact ⟨h.set p trivial, sound_ok hkey⟩

theorem Whole.created (h : Whole codec K w) (p : P) {key : Key} (hkey : K key) :
    Whole codec K (w.created codec umask p key).1 ∧ Sound K (w.created codec umask p key).2 := by
  unfold KeyWorld.created
  cases w.tmp p with
  | some f => exact h.fail p fun source => by simp
  | none => exact ⟨h.set p ⟨hkey, _, rfl, List.nil_append _⟩, sound_nil⟩

theorem Whole.wrote (h : Whole codec K w) (p : P) {key : Key} {rest : Bytes} (count : ℕ)
    (hkey : K key) (htmp : ∃ f, w.tmp p = some f ∧ f.bytes ++ rest = codec.encode key) :
    Whole codec K (w.wrote p key rest count).1 ∧ Sound K (w.wrote p key rest count).2 := by
  obtain ⟨f, hf, hbytes⟩ := htmp
  unfold KeyWorld.wrote
  split_ifs with hrest hcount
  · subst hrest
    exact h.enter p ⟨hkey, f, hf, by simpa using hbytes⟩
  · exact h.enter p trivial
  · refine ⟨h.set p ⟨hkey, _, by rw [hf]; rfl, ?_⟩, sound_nil⟩
    rw [List.append_assoc, List.take_append_drop]
    exact hbytes

theorem Whole.renamed (h : Whole codec K w) (p : P) {key : Key} (hkey : K key)
    (htmp : ∃ f, w.tmp p = some f ∧ f.bytes = codec.encode key) :
    Whole codec K (w.renamed p key).1 ∧ Sound K (w.renamed p key).2 := by
  obtain ⟨f, hf, hbytes⟩ := htmp
  unfold KeyWorld.renamed
  rw [hf]
  refine ⟨⟨fun g hg => ?_, (h.set p (show Tmp codec K none .idle from trivial)).tmp⟩, sound_ok hkey⟩
  rw [← Option.some.inj hg]
  exact ⟨key, hkey, hbytes⟩

theorem Whole.call (hcodec : codec.RoundTrips) (h : Whole codec K w) {p : P} {io : Except Str ℕ}
    {x : KeyWorld P Key × List (KeyOutput P Key)} (hx : w.call codec umask p io = some x) :
    Whole codec K x.1 ∧ Sound K x.2 := by
  have hp := h.tmp p
  unfold KeyWorld.call at hx
  cases hphase : w.phase p with
  | idle =>
    rw [hphase] at hx
    cases hx
  | look generate key =>
    rw [hphase] at hx hp
    cases io with
    | error e => exact Option.some.inj hx ▸ h.fail p fun source => by simp
    | ok count => exact Option.some.inj hx ▸ h.looked p generate hp
  | read =>
    rw [hphase] at hx
    cases io with
    | error e => exact Option.some.inj hx ▸ h.fail p fun source => by simp
    | ok count => exact Option.some.inj hx ▸ h.readKey hcodec p
  | createDirs key =>
    rw [hphase] at hx hp
    cases io with
    | error e => exact Option.some.inj hx ▸ h.fail p fun source => by simp
    | ok count => exact Option.some.inj hx ▸ h.enter p hp
  | create key =>
    rw [hphase] at hx hp
    cases io with
    | error e => exact Option.some.inj hx ▸ h.fail p fun source => by simp
    | ok count => exact Option.some.inj hx ▸ h.created p hp
  | write key rest =>
    rw [hphase] at hx hp
    cases io with
    | error e => exact Option.some.inj hx ▸ h.enter p trivial
    | ok count => exact Option.some.inj hx ▸ h.wrote p count hp.1 hp.2
  | rename key =>
    rw [hphase] at hx hp
    cases io with
    | error e => exact Option.some.inj hx ▸ h.enter p trivial
    | ok count => exact Option.some.inj hx ▸ h.renamed p hp.1 hp.2
  | discard source =>
    rw [hphase] at hx
    cases io with
    | error e => exact Option.some.inj hx ▸ h.fail p fun source => by simp
    | ok count =>
      exact Option.some.inj hx ▸ ⟨h.set p trivial, sound_error fun source => by simp⟩

/-- The keys that a command may generate are known. -/
def Known (K : Key → Prop) (x : Move (KeyWorld P Key) (KeyEvent P Key) (KeyOutput P Key)) : Prop :=
  ∀ p command key, x.event = .start p command key → command ≠ .load → K key

theorem identity_move (hcodec : codec.RoundTrips)
    {x : Move (KeyWorld P Key) (KeyEvent P Key) (KeyOutput P Key)}
    (hx : (identity codec umask).Makes x) (hknown : Known K x) (h : Whole codec K x.before) :
    Whole codec K x.after ∧ Sound K x.outputs := by
  obtain ⟨w, e, w', outputs⟩ := x
  change Whole codec K w at h
  suffices hall : ∀ y ∈ identity codec umask w e, Whole codec K y.1 ∧ Sound K y.2 from hall _ hx
  clear hx
  intro y hx
  unfold identity at hx
  cases e with
  | start p command key =>
    cases hphase : w.phase p with
    | idle =>
      simp only [hphase] at hx
      have hkey := hknown p command key rfl
      refine Option.some.inj hx ▸ h.enter p ?_
      cases command with
      | load => exact fun hload => absurd hload (by decide)
      | loadOrGenerate => exact fun _ => hkey (by decide)
      | rotate => exact hkey (by decide)
    | _ =>
      simp only [hphase] at hx
      cases hx
  | call p io => exact h.call hcodec hx
  | kill p => exact Option.some.inj hx ▸ h.enter p trivial
  | delete =>
    rw [← Option.some.inj hx]
    exact ⟨⟨fun f hf => absurd hf (by simp), h.tmp⟩, sound_nil⟩
  | chmod mode =>
    rw [← Option.some.inj hx]
    refine ⟨⟨fun f hf => ?_, h.tmp⟩, sound_nil⟩
    obtain ⟨g, hg, rfl⟩ := Option.mem_map.1 hf
    exact h.file g hg

/-- The keys of a run: that of the file in place, and those that its commands generate. -/
def KeysOf (codec : KeyCodec Key) (w : KeyWorld P Key)
    (run : List (Move (KeyWorld P Key) (KeyEvent P Key) (KeyOutput P Key))) (key : Key) : Prop :=
  (∃ f ∈ w.file, f.bytes = codec.encode key) ∨
    ∃ x ∈ run, ∃ p command, x.event = .start p command key ∧ command ≠ .load

/-- No process is under way, and the file in place, if any, is a key. -/
structure AtRest (codec : KeyCodec Key) (w : KeyWorld P Key) : Prop where
  idle : ∀ p, w.phase p = .idle
  file : ∀ f ∈ w.file, ∃ key, f.bytes = codec.encode key

/-- **A key is never seen torn.** In every run, whatever calls fail and whichever processes are
killed, the file in place is the whole encoding of a key of the run; no load finds it malformed, and
a key that is returned is one of the run. -/
theorem identity_whole {s : KeyWorld P Key}
    {run : List (Move (KeyWorld P Key) (KeyEvent P Key) (KeyOutput P Key))}
    (hcodec : codec.RoundTrips) (hrest : AtRest codec w)
    (hrun : (identity codec umask).Runs w run s) :
    (∀ f ∈ s.file, ∃ key, KeysOf codec w run key ∧ f.bytes = codec.encode key) ∧
      Sound (KeysOf codec w run) (shown run) := by
  have hstart : Whole codec (KeysOf codec w run) w := by
    refine ⟨fun f hf => ?_, fun p => by rw [hrest.idle p]; trivial⟩
    obtain ⟨key, hkey⟩ := hrest.file f hf
    exact ⟨key, Or.inl ⟨f, hf, hkey⟩, hkey⟩
  have hknown : ∀ x ∈ run, Known (KeysOf codec w run) x := fun x hx p command key he hload =>
    Or.inr ⟨x, hx, p, command, he, hload⟩
  obtain ⟨hend, hmoves⟩ := hrun.induct (I := Whole codec (KeysOf codec w run))
    (P := fun x => Sound (KeysOf codec w run) x.outputs)
    (fun x hx hknown h => identity_move hcodec hx hknown h) hknown hstart
  refine ⟨hend.file, fun o ho => ?_⟩
  obtain ⟨x, hx, ho⟩ := mem_shown.1 ho
  exact (hmoves x hx).2.2 o ho

end Whole

/-! ## One key -/

section Agreed

variable {codec : KeyCodec Key} {K : Key → Prop} {w : KeyWorld P Key} {umask : ℕ} {p : P}

/-- What a call does that leaves the file in place alone: who makes a key did so before, or has
found none, and a key that is returned is the one in place. -/
def Stays (codec : KeyCodec Key) (w : KeyWorld P Key) (p : P)
    (x : KeyWorld P Key × List (KeyOutput P Key)) : Prop :=
  ∃ tmp phase, x.1 = w.set p tmp phase ∧
    (phase.Saves → (w.phase p).Saves ∨ (∃ key, w.phase p = .look true key) ∧ w.file = none) ∧
    ∀ o ∈ x.2, ∀ key, o.result = .ok key → ∃ f ∈ w.file, f.bytes = codec.encode key

theorem Stays.enter {phase : KeyPhase Key}
    (hsaves : phase.Saves →
      (w.phase p).Saves ∨ (∃ key, w.phase p = .look true key) ∧ w.file = none) :
    Stays codec w p (w.enter p phase) :=
  ⟨_, _, rfl, hsaves, List.forall_mem_nil _⟩

theorem Stays.fail {tmp : Option KeyFile} {e : IdentityError} :
    Stays codec w p (w.set p tmp .idle, [⟨p, .error e⟩]) :=
  ⟨_, _, rfl, fun hsaves => hsaves.elim, List.forall_mem_singleton.2 fun key h => by simp at h⟩

/-- **What a call can do**: it leaves the file in place alone, or it puts a key there that the
process has written, where it returns. -/
theorem call_cases (hcodec : codec.RoundTrips) (h : Whole codec K w) {io : Except Str ℕ}
    {x : KeyWorld P Key × List (KeyOutput P Key)} (hx : w.call codec umask p io = some x) :
    Stays codec w p x ∨ ∃ key f, (w.phase p).Saves ∧ f.bytes = codec.encode key ∧
      x = ({ w.set p none .idle with file := some f }, [⟨p, .ok key⟩]) := by
  have hp := h.tmp p
  unfold KeyWorld.call at hx
  cases hphase : w.phase p with
  | idle =>
    rw [hphase] at hx
    cases hx
  | look generate key =>
    rw [hphase] at hx
    refine Or.inl ?_
    cases io with
    | error e => exact Option.some.inj hx ▸ Stays.fail
    | ok count =>
      rw [← Option.some.inj hx]
      unfold KeyWorld.looked
      cases hfile : w.file with
      | none =>
        cases generate with
        | true => exact Stays.enter fun _ => Or.inr ⟨⟨key, hphase⟩, hfile⟩
        | false => exact Stays.fail
      | some f =>
        dsimp only
        split_ifs
        · exact Stays.fail
        · exact Stays.enter fun hsaves => hsaves.elim
  | read =>
    rw [hphase] at hx
    refine Or.inl ?_
    cases io with
    | error e => exact Option.some.inj hx ▸ Stays.fail
    | ok count =>
      rw [← Option.some.inj hx]
      unfold KeyWorld.readKey
      cases hfile : w.file with
      | none => exact Stays.fail
      | some f =>
        obtain ⟨key, -, hbytes⟩ := h.file f hfile
        dsimp only
        rw [hbytes, hcodec key]
        refine ⟨_, _, rfl, fun hsaves => hsaves.elim,
          List.forall_mem_singleton.2 fun key' hkey => ?_⟩
        rw [← Except.ok.inj hkey]
        exact ⟨f, hfile, hbytes⟩
  | createDirs key =>
    rw [hphase] at hx
    refine Or.inl ?_
    cases io with
    | error e => exact Option.some.inj hx ▸ Stays.fail
    | ok count =>
      exact Option.some.inj hx ▸ Stays.enter fun _ => Or.inl (by rw [hphase]; trivial)
  | create key =>
    rw [hphase] at hx
    refine Or.inl ?_
    cases io with
    | error e => exact Option.some.inj hx ▸ Stays.fail
    | ok count =>
      rw [← Option.some.inj hx]
      unfold KeyWorld.created
      cases w.tmp p with
      | some f => exact Stays.fail
      | none =>
        exact ⟨_, _, rfl, fun _ => Or.inl (by rw [hphase]; trivial), List.forall_mem_nil _⟩
  | write key rest =>
    rw [hphase] at hx
    have hsaves : (w.phase p).Saves := by rw [hphase]; trivial
    refine Or.inl ?_
    cases io with
    | error e => exact Option.some.inj hx ▸ Stays.enter fun hdiscard => hdiscard.elim
    | ok count =>
      rw [← Option.some.inj hx]
      unfold KeyWorld.wrote
      split_ifs
      · exact Stays.enter fun _ => Or.inl hsaves
      · exact Stays.enter fun hdiscard => hdiscard.elim
      · exact ⟨_, _, rfl, fun _ => Or.inl hsaves, List.forall_mem_nil _⟩
  | rename key =>
    rw [hphase] at hx hp
    cases io with
    | error e => exact Or.inl (Option.some.inj hx ▸ Stays.enter fun hdiscard => hdiscard.elim)
    | ok count =>
      obtain ⟨-, f, hf, hbytes⟩ := hp
      refine Or.inr ⟨key, f, trivial, hbytes, ?_⟩
      rw [← Option.some.inj hx]
      dsimp only
      rw [KeyWorld.renamed, hf]
  | discard source =>
    rw [hphase] at hx
    refine Or.inl ?_
    cases io with
    | error e => exact Option.some.inj hx ▸ Stays.fail
    | ok count => exact Option.some.inj hx ▸ Stays.fail

/-- One process at most makes a key, where there is none, and who has got a key has the one in
place. -/
structure Agreed (codec : KeyCodec Key) (w : KeyWorld P Key) (outputs : List (KeyOutput P Key)) :
    Prop where
  whole : Whole codec (fun _ => True) w
  one : ∀ p q, (w.phase p).Saves → (w.phase q).Saves → p = q
  missing : ∀ p, (w.phase p).Saves → w.file = none
  same : ∀ o ∈ outputs, ∀ key, o.result = .ok key → ∃ f ∈ w.file, f.bytes = codec.encode key

variable {past outputs : List (KeyOutput P Key)}

theorem Agreed.set (h : Agreed codec w past) {tmp : Option KeyFile} {phase : KeyPhase Key}
    (hwhole : Whole codec (fun _ => True) (w.set p tmp phase))
    (hsaves : phase.Saves → (w.phase p).Saves ∨ (∀ q, ¬ (w.phase q).Saves) ∧ w.file = none)
    (hout : ∀ o ∈ outputs, ∀ key, o.result = .ok key → ∃ f ∈ w.file, f.bytes = codec.encode key) :
    Agreed codec (w.set p tmp phase) (past ++ outputs) := by
  have hother : ∀ q, q ≠ p → (w.set p tmp phase).phase q = w.phase q := fun q hq =>
    Function.update_of_ne hq _ _
  have hself : (w.set p tmp phase).phase p = phase := Function.update_self _ _ _
  -- Who makes a key now is alone in it.
  have halone : ∀ q, ((w.set p tmp phase).phase q).Saves →
      w.file = none ∧ ∀ r, (w.phase r).Saves → r = q := by
    intro q hq
    by_cases hqp : q = p
    · subst hqp
      rw [hself] at hq
      rcases hsaves hq with hbefore | ⟨hnone, hfile⟩
      · exact ⟨h.missing q hbefore, fun r hr => h.one r q hr hbefore⟩
      · exact ⟨hfile, fun r hr => absurd hr (hnone r)⟩
    · rw [hother q hqp] at hq
      exact ⟨h.missing q hq, fun r hr => h.one r q hr hq⟩
  refine ⟨hwhole, fun q r hq hr => ?_, fun q hq => (halone q hq).1, ?_⟩
  · by_cases hqp : q = p
    · by_cases hrp : r = p
      · rw [hqp, hrp]
      · rw [hother r hrp] at hr
        exact ((halone q hq).2 r hr).symm
    · rw [hother q hqp] at hq
      exact (halone r hr).2 q hq
  · exact fun o ho => (List.mem_append.1 ho).elim (h.same o) (hout o)

/-- Nothing takes the key away, and who looks whether there is one, to make it, does so while no
other process makes one. -/
def Orderly (x : Move (KeyWorld P Key) (KeyEvent P Key) (KeyOutput P Key)) : Prop :=
  match x.event with
  | .start _ command _ => command ≠ .rotate
  | .call p _ => (x.before.phase p).Generates → ∀ q, ¬ (x.before.phase q).Saves
  | .kill _ => True
  | .delete => False
  | .chmod _ => True

theorem agreed_move (hcodec : codec.RoundTrips)
    {x : Move (KeyWorld P Key) (KeyEvent P Key) (KeyOutput P Key)}
    (hx : (identity codec umask).Makes x) (horderly : Orderly x) (h : Agreed codec x.before past) :
    Agreed codec x.after (past ++ x.outputs) := by
  have hwhole := (identity_move hcodec hx (fun _ _ _ _ _ => trivial) h.whole).1
  obtain ⟨w, e, w', outputs⟩ := x
  change identity codec umask w e = some (w', outputs) at hx
  change Agreed codec w past at h
  change Whole codec _ w' at hwhole
  change Agreed codec w' (past ++ outputs)
  unfold identity at hx
  cases e with
  | start p command key =>
    cases hphase : w.phase p with
    | idle =>
      simp only [hphase] at hx
      obtain ⟨rfl, rfl⟩ := Prod.mk.inj (Option.some.inj hx)
      refine h.set hwhole (fun hsaves => ?_) (List.forall_mem_nil _)
      cases command with
      | load => exact hsaves.elim
      | loadOrGenerate => exact hsaves.elim
      | rotate => exact absurd rfl horderly
    | _ =>
      simp only [hphase] at hx
      cases hx
  | call p io =>
    rcases call_cases hcodec h.whole hx with
      ⟨tmp, phase, rfl, hsaves, hout⟩ | ⟨key, f, hsaves, hf, hw⟩
    · refine h.set hwhole (fun hphase => ?_) hout
      rcases hsaves hphase with hbefore | ⟨⟨key, hkey⟩, hfile⟩
      · exact Or.inl hbefore
      · exact Or.inr ⟨horderly (by rw [hkey]; trivial), hfile⟩
    · obtain ⟨rfl, rfl⟩ := Prod.mk.inj hw
      have hmissing := h.missing p hsaves
      -- Nobody else makes a key, and nobody had one before.
      have hnone : ∀ q, ¬ ((Function.update w.phase p .idle q) : KeyPhase Key).Saves := by
        intro q hq
        by_cases hqp : q = p
        · subst hqp
          rw [Function.update_self] at hq
          exact hq
        · rw [Function.update_of_ne hqp] at hq
          exact hqp (h.one q p hq hsaves)
      refine ⟨hwhole, fun q r hq => absurd hq (hnone q), fun q hq => absurd hq (hnone q), ?_⟩
      intro o ho key' hkey'
      rcases List.mem_append.1 ho with ho | ho
      · obtain ⟨g, hg, -⟩ := h.same o ho key' hkey'
        rw [hmissing] at hg
        cases hg
      · rw [List.mem_singleton.1 ho] at hkey'
        rw [← Except.ok.inj hkey']
        exact ⟨f, rfl, hf⟩
  | kill p =>
    obtain ⟨rfl, rfl⟩ := Prod.mk.inj (Option.some.inj hx)
    exact h.set hwhole (fun hsaves => hsaves.elim) (List.forall_mem_nil _)
  | delete => exact horderly.elim
  | chmod mode =>
    obtain ⟨rfl, rfl⟩ := Prod.mk.inj (Option.some.inj hx)
    refine ⟨hwhole, h.one, fun p hp => by rw [h.missing p hp]; rfl, fun o ho key hkey => ?_⟩
    rw [List.append_nil] at ho
    obtain ⟨f, hf, hbytes⟩ := h.same o ho key hkey
    exact ⟨{ f with mode }, Option.mem_map_of_mem _ hf, hbytes⟩

/-- **The processes of a device agree on its key.** In every run without a rotation, in which nobody
deletes the file, and nobody looks for a key while another process makes one, every key that is
returned is the one that is in place at the end, whichever processes are killed. -/
theorem identity_agreed {s : KeyWorld P Key}
    {run : List (Move (KeyWorld P Key) (KeyEvent P Key) (KeyOutput P Key))}
    (hcodec : codec.RoundTrips) (hrest : AtRest codec w)
    (hrun : (identity codec umask).Runs w run s) (horderly : ∀ x ∈ run, Orderly x) :
    ∀ o ∈ shown run, ∀ key, o.result = .ok key → ∃ f ∈ s.file, codec.decode f.bytes = .ok key := by
  have hidle : ∀ p, ¬ (w.phase p).Saves := by
    intro p hp
    rw [hrest.idle p] at hp
    exact hp
  have hstart : Agreed codec w [] := by
    refine ⟨⟨fun f hf => ?_, fun p => by rw [hrest.idle p]; trivial⟩,
      fun p q hp => absurd hp (hidle p), fun p hp => absurd hp (hidle p), List.forall_mem_nil _⟩
    obtain ⟨key, hkey⟩ := hrest.file f hf
    exact ⟨key, trivial, hkey⟩
  have hend : (∀ x ∈ run, Orderly x) → Agreed codec s (shown run) := by
    refine hrun.history (I := fun past s => (∀ x ∈ past, Orderly x) → Agreed codec s (shown past))
      (fun past x hx h hall => ?_) fun _ => hstart
    rw [shown_snoc]
    obtain ⟨hpast, hlast⟩ := List.forall_mem_append.1 hall
    exact agreed_move hcodec hx (hlast x List.mem_cons_self) (h hpast)
  intro o ho key hkey
  obtain ⟨f, hf, hbytes⟩ := (hend horderly).same o ho key hkey
  exact ⟨f, hf, hbytes ▸ hcodec key⟩

end Agreed

/-! ## A run -/

section Decide

instance (phase : KeyPhase Key) : Decidable phase.Generates := by
  cases phase <;> unfold KeyPhase.Generates <;> infer_instance

instance [Fintype P] (x : Move (KeyWorld P Key) (KeyEvent P Key) (KeyOutput P Key)) :
    Decidable (Orderly x) := by
  unfold Orderly
  split <;> infer_instance

end Decide

/-- Two keys, of two bytes each. -/
def twoKeys : KeyCodec Bool where
  encode key := [if key then 1 else 0, 7]
  decode bytes := if bytes = [1, 7] then .ok true else if bytes = [0, 7] then .ok false
    else .error "not a key".toList

theorem twoKeys_roundTrips : twoKeys.RoundTrips := fun key => by cases key <;> rfl

/-- No key, and three processes. -/
def noKey : KeyWorld (Fin 3) Bool := ⟨none, fun _ => none, fun _ => .idle⟩

theorem noKey_atRest : AtRest twoKeys noKey :=
  ⟨fun _ => rfl, fun f hf => absurd hf (by simp [noKey])⟩

/-- The first process is killed while it writes its key, the second one makes another, and the third
one loads it. -/
def keyEvents : List (KeyEvent (Fin 3) Bool) :=
  [.start 0 .loadOrGenerate false, .call 0 (.ok 0), .call 0 (.ok 0), .call 0 (.ok 0),
    .call 0 (.ok 1), .kill 0, .start 1 .loadOrGenerate true, .call 1 (.ok 0), .call 1 (.ok 0),
    .call 1 (.ok 0), .call 1 (.ok 2), .call 1 (.ok 0), .call 1 (.ok 0), .start 2 .load false,
    .call 2 (.ok 0), .call 2 (.ok 0)]

theorem keyEvents_isSome : (exec (identity twoKeys 0o022) noKey keyEvents).isSome = true := by
  decide +kernel

/-- The run of these events. -/
def keyRun : List (Move (KeyWorld (Fin 3) Bool) (KeyEvent (Fin 3) Bool) (KeyOutput (Fin 3) Bool)) ×
    KeyWorld (Fin 3) Bool :=
  (exec (identity twoKeys 0o022) noKey keyEvents).get keyEvents_isSome

theorem keyRun_orderly : ∀ x ∈ keyRun.1, Orderly x := by decide +kernel

/-- Two of the processes have returned the second key. -/
theorem keyRun_shown : (shown keyRun.1).map KeyOutput.process = [1, 2] := by decide +kernel

theorem identity_whole_killed :
    (∀ f ∈ keyRun.2.file, ∃ key, KeysOf twoKeys noKey keyRun.1 key ∧ f.bytes = twoKeys.encode key) ∧
      Sound (KeysOf twoKeys noKey keyRun.1) (shown keyRun.1) :=
  identity_whole twoKeys_roundTrips noKey_atRest (get_runs keyEvents_isSome)

theorem identity_agreed_killed : (shown keyRun.1).map KeyOutput.process = [1, 2] ∧
    ∀ o ∈ shown keyRun.1, ∀ key, o.result = .ok key →
      ∃ f ∈ keyRun.2.file, twoKeys.decode f.bytes = .ok key :=
  ⟨keyRun_shown,
    identity_agreed twoKeys_roundTrips noKey_atRest (get_runs keyEvents_isSome) keyRun_orderly⟩

end Bypass.Identity
