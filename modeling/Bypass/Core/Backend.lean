import Bypass.Foundations.Prog
import Bypass.Core.Path

/-!
# The backends of a store

The orchestrator is generic in three backends: `Crypto`, `Storage` and `VersionControl`
(`crypto.rs`, `storage.rs`, `vcs.rs`). Each is a record of functions on one world `W`, which holds
whatever the backends keep: files, a repository, a key ring, a random generator. A call answers
with a result or the backend's own error, and may change the world either way.

What a backend promises is stated apart from what it is:

* `OnMap`: the storage is a map from paths to bytes, and nothing but `write` and `remove` changes
  it, each at its own path only. A call that fails promises no more than that.
* `RoundTrip`: what was encrypted decrypts to itself.

Failures are seen in the trace of a run. `Quiet` says that no call of it changed the files,
`Faulty` that some call failed, and `LateFault` that a call failed while or after one changed them.
-/

namespace Bypass

/-- `KeyId`: a recipient, which the core passes on unread. -/
structure KeyId where
  str : Str
  deriving DecidableEq

/-! ## Backends -/

/-- `Crypto`. The buffer of a decrypted secret is its bytes. -/
structure Crypto (W CE : Type) where
  encryptFn : Bytes → List KeyId → W → Except CE Bytes × W
  decryptFn : Bytes → W → Except CE Bytes × W

/-- `Storage`. -/
structure Storage (W SE : Type) where
  readFn : RelPath → W → Except SE (Option Bytes) × W
  writeFn : RelPath → Bytes → W → Except SE Unit × W
  removeFn : RelPath → W → Except SE Unit × W
  existsFn : RelPath → W → Except SE Bool × W
  listFn : Option RelPath → W → Except SE (List RelPath) × W

/-- `VersionControl`, of which the operations on entries use `commit` alone. -/
structure VersionControl (W VE : Type) where
  commitFn : List RelPath → Str → W → Except VE Unit × W

/-- A backend call, as a trace shows it: its arguments and its answer. -/
inductive Event (CE SE VE : Type) where
  | encrypt (plaintext : Bytes) (recipients : List KeyId) (answer : Except CE Bytes)
  | decrypt (ciphertext : Bytes) (answer : Except CE Bytes)
  | read (path : RelPath) (answer : Except SE (Option Bytes))
  | write (path : RelPath) (data : Bytes) (answer : Except SE Unit)
  | remove (path : RelPath) (answer : Except SE Unit)
  | exists_ (path : RelPath) (answer : Except SE Bool)
  | list (dir : Option RelPath) (answer : Except SE (List RelPath))
  | commit (paths : List RelPath) (message : Str) (answer : Except VE Unit)
  deriving DecidableEq

/-- The call answered with an error. -/
def Event.failed {CE SE VE : Type} : Event CE SE VE → Bool
  | encrypt _ _ answer => !answer.isOk
  | decrypt _ answer => !answer.isOk
  | read _ answer => !answer.isOk
  | write _ _ answer => !answer.isOk
  | remove _ answer => !answer.isOk
  | exists_ _ answer => !answer.isOk
  | list _ answer => !answer.isOk
  | commit _ _ answer => !answer.isOk

section Calls

variable {W CE SE VE : Type}

def Crypto.encrypt (c : Crypto W CE) (plaintext : Bytes) (recipients : List KeyId) :
    Prog (Event CE SE VE) W CE Bytes :=
  Prog.call (.encrypt plaintext recipients) (c.encryptFn plaintext recipients)

def Crypto.decrypt (c : Crypto W CE) (ciphertext : Bytes) : Prog (Event CE SE VE) W CE Bytes :=
  Prog.call (.decrypt ciphertext) (c.decryptFn ciphertext)

def Storage.read (s : Storage W SE) (path : RelPath) :
    Prog (Event CE SE VE) W SE (Option Bytes) :=
  Prog.call (.read path) (s.readFn path)

def Storage.write (s : Storage W SE) (path : RelPath) (data : Bytes) :
    Prog (Event CE SE VE) W SE Unit :=
  Prog.call (.write path data) (s.writeFn path data)

def Storage.remove (s : Storage W SE) (path : RelPath) : Prog (Event CE SE VE) W SE Unit :=
  Prog.call (.remove path) (s.removeFn path)

def Storage.exists (s : Storage W SE) (path : RelPath) : Prog (Event CE SE VE) W SE Bool :=
  Prog.call (.exists_ path) (s.existsFn path)

def Storage.list (s : Storage W SE) (dir : Option RelPath) :
    Prog (Event CE SE VE) W SE (List RelPath) :=
  Prog.call (.list dir) (s.listFn dir)

def VersionControl.commit (v : VersionControl W VE) (paths : List RelPath) (message : Str) :
    Prog (Event CE SE VE) W VE Unit :=
  Prog.call (.commit paths message) (v.commitFn paths message)

end Calls

/-- The orchestrator `Store<C, S, V>`. -/
structure Store (W CE SE VE : Type) where
  crypto : Crypto W CE
  storage : Storage W SE
  vcs : VersionControl W VE

/-! ## What backends promise -/

section Laws

variable {W CE SE VE : Type}

/-- The files of a storage: what is at each path. -/
abbrev Files := RelPath → Option Bytes

/-- **The storage is a map.** The calls that succeed do to `files` what their names say. Of the
calls that fail only this is asked, that they touch no path but their own. -/
structure OnMap (store : Store W CE SE VE) (files : W → Files) : Prop where
  encrypt_files : ∀ p rs w, files (store.crypto.encryptFn p rs w).2 = files w
  decrypt_files : ∀ c w, files (store.crypto.decryptFn c w).2 = files w
  read_files : ∀ p w, files (store.storage.readFn p w).2 = files w
  read_ok : ∀ p w v, (store.storage.readFn p w).1 = .ok v → v = files w p
  write_frame : ∀ p d w q, q ≠ p → files (store.storage.writeFn p d w).2 q = files w q
  write_ok : ∀ p d w, (store.storage.writeFn p d w).1 = .ok () →
    files (store.storage.writeFn p d w).2 = Function.update (files w) p (some d)
  remove_frame : ∀ p w q, q ≠ p → files (store.storage.removeFn p w).2 q = files w q
  remove_ok : ∀ p w, (store.storage.removeFn p w).1 = .ok () →
    files (store.storage.removeFn p w).2 = Function.update (files w) p none
  exists_files : ∀ p w, files (store.storage.existsFn p w).2 = files w
  exists_ok : ∀ p w b, (store.storage.existsFn p w).1 = .ok b → b = (files w p).isSome
  list_files : ∀ d w, files (store.storage.listFn d w).2 = files w
  list_nodup : ∀ d w l, (store.storage.listFn d w).1 = .ok l → l.Nodup
  mem_list : ∀ d w l, (store.storage.listFn d w).1 = .ok l →
    ∀ q, q ∈ l ↔ (files w q).isSome ∧ ∀ p ∈ d, p.Below q
  commit_files : ∀ ps m w, files (store.vcs.commitFn ps m w).2 = files w

/-- **Decryption undoes encryption**, in every world: also in one reached later. -/
def RoundTrip (store : Store W CE SE VE) : Prop :=
  ∀ p rs w c, (store.crypto.encryptFn p rs w).1 = .ok c →
    ∀ w' q, (store.crypto.decryptFn c w').1 = .ok q → q = p

end Laws

/-! ## Traces -/

section Traces

variable {W CE SE VE : Type}

/-- A trace of backend calls. -/
abbrev Trace (W CE SE VE : Type) := List (Step (Event CE SE VE) W)

variable {files : W → Files} {tr tr' : Trace W CE SE VE}

/-- No call changed the files. -/
def Quiet (files : W → Files) (tr : Trace W CE SE VE) : Prop :=
  ∀ c ∈ tr, files c.after = files c.before

/-- Some call failed. -/
def Faulty (tr : Trace W CE SE VE) : Prop := ∃ c ∈ tr, c.ev.failed = true

instance (tr : Trace W CE SE VE) : Decidable (Faulty tr) :=
  inferInstanceAs (Decidable (∃ c ∈ tr, c.ev.failed = true))

/-- **A late fault**: a call failed that changed the files, or that came after one that did. -/
def LateFault (files : W → Files) (tr : Trace W CE SE VE) : Prop :=
  ∃ pre c post, tr = pre ++ c :: post ∧ files c.after ≠ files c.before ∧ Faulty (c :: post)

/-- The calls that failed changed nothing. -/
def FaultsHarmless (files : W → Files) (tr : Trace W CE SE VE) : Prop :=
  ∀ c ∈ tr, c.ev.failed = true → files c.after = files c.before

@[simp] theorem quiet_nil : Quiet files ([] : Trace W CE SE VE) := by simp [Quiet]

@[simp] theorem quiet_append : Quiet files (tr ++ tr') ↔ Quiet files tr ∧ Quiet files tr' := by
  simp only [Quiet, List.mem_append, or_imp, forall_and]

@[simp] theorem quiet_singleton {c : Step (Event CE SE VE) W} :
    Quiet files [c] ↔ files c.after = files c.before := by simp [Quiet]

@[simp] theorem not_faulty_nil : ¬ Faulty ([] : Trace W CE SE VE) := by simp [Faulty]

@[simp] theorem faulty_append : Faulty (tr ++ tr') ↔ Faulty tr ∨ Faulty tr' := by
  simp only [Faulty, List.mem_append, or_and_right, exists_or]

@[simp] theorem faulty_singleton {c : Step (Event CE SE VE) W} :
    Faulty [c] ↔ c.ev.failed = true := by simp [Faulty]

theorem FaultsHarmless.of_append (h : FaultsHarmless files (tr ++ tr')) :
    FaultsHarmless files tr ∧ FaultsHarmless files tr' :=
  ⟨fun c hc => h c (List.mem_append_left _ hc), fun c hc => h c (List.mem_append_right _ hc)⟩

theorem FaultsHarmless.of_not_faulty (h : ¬ Faulty tr) : FaultsHarmless files tr :=
  fun c hc hf => absurd ⟨c, hc, hf⟩ h

/-- A quiet trace has no late fault. -/
theorem Quiet.not_lateFault (h : Quiet files tr) : ¬ LateFault files tr := by
  rintro ⟨pre, c, post, rfl, hc, -⟩
  exact hc (h c (by simp))

/-- Without a fault there is no late one. -/
theorem not_lateFault_of_not_faulty (h : ¬ Faulty tr) : ¬ LateFault files tr := by
  rintro ⟨pre, c, post, rfl, -, hf⟩
  exact h (faulty_append.2 (Or.inr hf))

/-- When the last call failed, any change before it makes the fault late. -/
theorem lateFault_concat {c : Step (Event CE SE VE) W} (hc : c.ev.failed = true) :
    LateFault files (tr ++ [c]) ↔ ¬ Quiet files (tr ++ [c]) := by
  constructor
  · intro h hq
    exact hq.not_lateFault h
  · intro h
    simp only [Quiet, not_forall] at h
    obtain ⟨d, hd, hne⟩ := h
    obtain ⟨pre, post, hsplit⟩ := List.append_of_mem hd
    refine ⟨pre, d, post, hsplit, hne, c, ?_, hc⟩
    -- the last element of the trace is the last of the part from `d` on
    have hlast : (d :: post).getLast? = some c := by
      have := congrArg List.getLast? hsplit
      rwa [List.getLast?_concat, List.getLast?_append_of_ne_nil _ (by simp), eq_comm] at this
    exact List.mem_of_getLast? hlast

end Traces

/-! ## Calls that change no file -/

section Asks

variable {W CE SE VE ε δ α β : Type} {files : W → Files} {s : W}

/-- Run alone on `s`, the program `p` changes no file. It ends with an answer as `answered` says,
and then no call failed, or with an error that is a call's failure or a refusal. -/
def Asks (files : W → Files) (p : Prog (Event CE SE VE) W ε α) (s : W) (refused : ε → Prop)
    (answered : α → Trace W CE SE VE → Prop) : Prop :=
  p.wp (fun r tr t => Quiet files tr ∧ files t = files s ∧ match r with
    | .ok a => ¬ Faulty tr ∧ answered a tr
    | .error e => Faulty tr ∨ refused e) s

variable {p : Prog (Event CE SE VE) W ε α} {refused refused' : ε → Prop}
  {answered answered' : α → Trace W CE SE VE → Prop}

theorem asks_pure {a : α} (h : answered a []) :
    Asks files (pure a : Prog (Event CE SE VE) W ε α) s refused answered :=
  ⟨quiet_nil, rfl, not_faulty_nil, h⟩

theorem asks_throw {e : ε} (h : refused e) :
    Asks files (throw e : Prog (Event CE SE VE) W ε α) s refused answered :=
  ⟨quiet_nil, rfl, Or.inr h⟩

theorem Asks.mapErr {g : ε → δ} {refused : δ → Prop}
    (h : Asks files p s (fun e => refused (g e)) answered) :
    Asks files (p.mapErr g) s refused answered := by
  refine Prog.wp_mapErr.2 (Prog.wp_mono h fun r tr t ⟨hq, ht, hr⟩ => ⟨hq, ht, ?_⟩)
  cases r <;> exact hr

theorem Asks.mono (h : Asks files p s refused answered) (hr : ∀ e, refused e → refused' e)
    (ha : ∀ a tr, answered a tr → answered' a tr) : Asks files p s refused' answered' := by
  refine Prog.wp_mono h fun r tr t ⟨hq, ht, h⟩ => ⟨hq, ht, ?_⟩
  cases r with
  | ok a => exact ⟨h.1, ha a tr h.2⟩
  | error e => exact h.imp_right (hr e)

theorem Asks.bind {f : α → Prog (Event CE SE VE) W ε β}
    {answered' : β → Trace W CE SE VE → Prop} (h : Asks files p s refused answered)
    (hf : ∀ a tr u, files u = files s → answered a tr →
      Asks files (f a) u refused fun b tr' => answered' b (tr ++ tr')) :
    Asks files (p >>= f) s refused answered' := by
  refine Prog.wp_bind.2 (Prog.wp_mono h fun r tr t ⟨hq, ht, h⟩ => ?_)
  cases r with
  | error e => exact ⟨hq, ht, h⟩
  | ok a =>
    refine Prog.wp_mono (hf a tr t ht h.2) fun r' tr' t' ⟨hq', ht', h'⟩ =>
      ⟨quiet_append.2 ⟨hq, hq'⟩, ht'.trans ht, ?_⟩
    cases r' with
    | ok b => exact ⟨fun hc => (faulty_append.1 hc).elim h.1 h'.1, h'.2⟩
    | error e => exact h'.imp_left fun hc => faulty_append.2 (Or.inr hc)

/-- A call that changes no file. -/
theorem asks_call {ev : Except ε α → Event CE SE VE} {f : W → Except ε α × W}
    (hev : ∀ r, (ev r).failed = !r.isOk) (hf : files (f s).2 = files s)
    (ha : ∀ a, (f s).1 = .ok a → answered a [⟨ev (.ok a), s, (f s).2⟩]) :
    Asks files (Prog.call ev f) s refused answered := by
  refine Prog.wp_call.2 ⟨quiet_singleton.2 hf, hf, ?_⟩
  cases hr : (f s).1 with
  | ok a => exact ⟨by simp [hev, Except.isOk, Except.toBool], ha a hr⟩
  | error e => exact Or.inl (by simp [hev, Except.isOk, Except.toBool])

/-- `tr` shows the call that encrypted `plaintext` to `recipients` as `ciphertext`. -/
def Encrypted (store : Store W CE SE VE) (tr : Trace W CE SE VE) (plaintext : Bytes)
    (recipients : List KeyId) (ciphertext : Bytes) : Prop :=
  ∃ c ∈ tr, c.ev = .encrypt plaintext recipients (.ok ciphertext) ∧
    (store.crypto.encryptFn plaintext recipients c.before).1 = .ok ciphertext

variable {store : Store W CE SE VE} (h : OnMap store files)
include h

theorem asks_read {path : RelPath} {refused : SE → Prop} :
    Asks files (store.storage.read path : Prog (Event CE SE VE) W SE _) s refused
      fun v _ => v = files s path :=
  asks_call (fun _ => rfl) (h.read_files path s) fun v hv => h.read_ok path s v hv

theorem asks_exists {path : RelPath} {refused : SE → Prop} :
    Asks files (store.storage.exists path : Prog (Event CE SE VE) W SE _) s refused
      fun b _ => b = (files s path).isSome :=
  asks_call (fun _ => rfl) (h.exists_files path s) fun b hb => h.exists_ok path s b hb

theorem asks_list {dir : Option RelPath} {refused : SE → Prop} :
    Asks files (store.storage.list dir : Prog (Event CE SE VE) W SE _) s refused
      fun l _ => l.Nodup ∧ ∀ q, q ∈ l ↔ (files s q).isSome ∧ ∀ p ∈ dir, p.Below q :=
  asks_call (fun _ => rfl) (h.list_files dir s) fun l hl =>
    ⟨h.list_nodup dir s l hl, h.mem_list dir s l hl⟩

theorem asks_encrypt {plaintext : Bytes} {recipients : List KeyId} {refused : CE → Prop} :
    Asks files (store.crypto.encrypt plaintext recipients : Prog (Event CE SE VE) W CE _) s refused
      fun c tr => Encrypted store tr plaintext recipients c :=
  asks_call (fun _ => rfl) (h.encrypt_files plaintext recipients s) fun _ hc =>
    ⟨_, List.mem_singleton_self _, rfl, hc⟩

theorem asks_decrypt {ciphertext : Bytes} {refused : CE → Prop} :
    Asks files (store.crypto.decrypt ciphertext : Prog (Event CE SE VE) W CE _) s refused
      fun p _ => ∃ w, (store.crypto.decryptFn ciphertext w).1 = .ok p :=
  asks_call (fun _ => rfl) (h.decrypt_files ciphertext s) fun _ hp => ⟨s, hp⟩

end Asks

/-! ## Programs that succeed -/

section Succeeds

variable {W CE SE VE ε δ α β : Type} {s : W}

/-- Run alone on `s`, the program returns a result as `R` says, unless a call of it fails. -/
def Succeeds (p : Prog (Event CE SE VE) W ε α) (s : W) (R : α → W → Prop) : Prop :=
  p.wp (fun r tr t => ¬ Faulty tr → ∃ a, r = .ok a ∧ R a t) s

variable {p : Prog (Event CE SE VE) W ε α} {R R' : α → W → Prop}

theorem succeeds_pure {a : α} (h : R a s) :
    Succeeds (pure a : Prog (Event CE SE VE) W ε α) s R :=
  fun _ => ⟨a, rfl, h⟩

/-- A call. -/
theorem succeeds_call {ev : Except ε α → Event CE SE VE} {f : W → Except ε α × W}
    (hev : ∀ r, (ev r).failed = !r.isOk) (h : ∀ a, (f s).1 = .ok a → R a (f s).2) :
    Succeeds (Prog.call ev f) s R := by
  refine Prog.wp_call.2 fun hnf => ?_
  cases hr : (f s).1 with
  | ok a => exact ⟨a, rfl, h a hr⟩
  | error e =>
    rw [faulty_singleton, hev, hr] at hnf
    exact absurd rfl hnf

theorem Succeeds.mono (h : Succeeds p s R) (hR : ∀ a t, R a t → R' a t) : Succeeds p s R' := by
  refine Prog.wp_mono h fun r tr t hr hnf => ?_
  obtain ⟨a, rfl, ha⟩ := hr hnf
  exact ⟨a, rfl, hR a t ha⟩

theorem Succeeds.mapErr {g : ε → δ} (h : Succeeds p s R) : Succeeds (p.mapErr g) s R := by
  refine Prog.wp_mapErr.2 (Prog.wp_mono h fun r tr t hr hnf => ?_)
  obtain ⟨a, rfl, ha⟩ := hr hnf
  exact ⟨a, rfl, ha⟩

/-- What succeeds is not seen to fail. -/
theorem Succeeds.attempt (h : Succeeds p s R) :
    Succeeds (p.attempt : Prog (Event CE SE VE) W δ (Except ε α)) s
      fun r t => ∃ a, r = .ok a ∧ R a t := by
  refine Prog.wp_attempt.2 (Prog.wp_mono h fun r tr t hr hnf => ?_)
  obtain ⟨a, rfl, ha⟩ := hr hnf
  exact ⟨.ok a, rfl, a, rfl, ha⟩

theorem Succeeds.bind {f : α → Prog (Event CE SE VE) W ε β} {R' : β → W → Prop}
    (h : Succeeds p s R) (hf : ∀ a t, R a t → Succeeds (f a) t R') :
    Succeeds (p >>= f) s R' := by
  refine Prog.wp_bind.2 (Prog.wp_mono h fun r tr t hr => ?_)
  cases r with
  | error e =>
    intro hnf
    obtain ⟨a, ha, -⟩ := hr hnf
    cases ha
  | ok a =>
    show (f a).wp _ t
    by_cases hfaulty : Faulty tr
    · exact fun hnf => absurd (faulty_append.2 (Or.inl hfaulty)) hnf
    · obtain ⟨a', heq, ha⟩ := hr hfaulty
      obtain rfl := Except.ok.inj heq
      exact Prog.wp_mono (hf a t ha) fun r' tr' t' hr' hnf =>
        hr' fun hc => hnf (faulty_append.2 (Or.inr hc))

/-- A program that changes no file and has nothing to refuse succeeds. -/
theorem Asks.succeeds {files : W → Files} {refused : ε → Prop}
    {answered : α → Trace W CE SE VE → Prop} (h : Asks files p s refused answered)
    (hr : ∀ e, ¬ refused e) :
    Succeeds p s fun a t => files t = files s ∧ ∃ tr, answered a tr := by
  refine Prog.wp_mono h fun r tr t ⟨_, ht, hra⟩ hnf => ?_
  cases r with
  | error e => exact absurd (hra.resolve_left hnf) (hr e)
  | ok a => exact ⟨a, rfl, ht, tr, hra.2⟩

end Succeeds

end Bypass
