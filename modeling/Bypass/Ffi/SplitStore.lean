import Bypass.Ffi.BypassStore

/-!
# Whom the entries of the app are encrypted to

Every call of the app but one keeps the entries encrypted to their recipients, in any order, failing
or not. The exception is `init`, which changes the recipients of a store and none of its entries.
The command line refuses it where there are recipients already; the app does not.

* `Upholds`: what a program does for the invariant `RecipientsHeld`, closed under sequencing.
* `call_recipientsHeld`: one call.
* `never_split`: every run whose `init`s keep the recipients that are in force.
* `init_can_split`: a second `init`, which does not.
-/

namespace Bypass

open Machine

/-! ## Programs that uphold the invariant -/

section Upholds

variable {W CE SE VE ε δ α β : Type} {files : W → Files}

/-- Whatever was done before, the program keeps every entry encrypted to its recipients. -/
def Upholds (files : W → Files) (p : Prog (Event CE SE VE) W ε α) : Prop :=
  ∀ log s, RecipientsHeld log (files s) →
    p.wp (fun _ tr t => FaultsHarmless files tr → RecipientsHeld (log ++ tr) (files t)) s

variable {p : Prog (Event CE SE VE) W ε α}

theorem upholds_pure (a : α) : Upholds files (pure a : Prog (Event CE SE VE) W ε α) :=
  fun log s hinv _ => by simpa using hinv

theorem upholds_throw (e : ε) : Upholds files (throw e : Prog (Event CE SE VE) W ε α) :=
  fun log s hinv _ => by simpa using hinv

theorem Upholds.mapErr {g : ε → δ} (hp : Upholds files p) : Upholds files (p.mapErr g) :=
  fun log s hinv => Prog.wp_mapErr.2 (hp log s hinv)

theorem Upholds.bind {f : α → Prog (Event CE SE VE) W ε β} (hp : Upholds files p)
    (hf : ∀ a, Upholds files (f a)) : Upholds files (p >>= f) := by
  intro log s hinv
  refine Prog.wp_bind.2 (Prog.wp_mono (hp log s hinv) fun r tr t hr => ?_)
  cases r with
  | error e => exact hr
  | ok a =>
    -- the harmless faults of the whole trace are those of its two parts
    show (f a).wp _ t
    by_cases hfaults : FaultsHarmless files tr
    · refine Prog.wp_mono (hf a (log ++ tr) t (hr hfaults)) fun r' tr' t' hr' hboth => ?_
      rw [← List.append_assoc]
      exact hr' hboth.of_append.2
    · exact fun hboth => absurd hboth.of_append.1 hfaults

theorem Upholds.map {g : α → β} (hp : Upholds files p) : Upholds files (g <$> p) := by
  rw [map_eq_pure_bind]
  exact hp.bind fun a => upholds_pure (g a)

end Upholds

section Store

variable {W CE SE VE α β : Type} {store : Store W CE SE VE} {files : W → Files}

/-- What upholds the invariant, its result renamed, upholds it as it is. -/
theorem upholds_of_program {p : StoreM W CE SE VE α} {f : α → β}
    (hp : Upholds files (do let a ← p; pure (f a))) : Upholds files p := by
  intro log s hinv
  refine Prog.wp_mono (Prog.wp_bind.1 (hp log s hinv)) fun r tr t hr => ?_
  cases r with
  | error e => exact hr
  | ok a =>
    have hr : FaultsHarmless files (tr ++ []) → RecipientsHeld (log ++ (tr ++ [])) (files t) := hr
    rwa [List.append_nil] at hr

variable (h : OnMap store files)
include h

theorem upholds_insert (entry : RelPath) (plaintext : Bytes) (overwrite : Bool) :
    Upholds files (store.insert entry plaintext overwrite) :=
  upholds_of_program (f := fun _ => Output.unit) fun _ _ hinv =>
    program_recipientsHeld h hinv (.insert entry plaintext overwrite)

theorem upholds_show (entry : RelPath) : Upholds files (store.show entry) :=
  upholds_of_program (f := Output.plaintext) fun _ _ hinv =>
    program_recipientsHeld h hinv (.show entry)

theorem upholds_list (subpath : Option RelPath) : Upholds files (store.list subpath) :=
  upholds_of_program (f := Output.entries) fun _ _ hinv =>
    program_recipientsHeld h hinv (.list subpath)

theorem upholds_find (pattern : Str) : Upholds files (store.find pattern) :=
  upholds_of_program (f := Output.entries) fun _ _ hinv =>
    program_recipientsHeld h hinv (.find pattern)

theorem upholds_remove (entry : RelPath) : Upholds files (store.remove entry) :=
  upholds_of_program (f := fun _ => Output.unit) fun _ _ hinv =>
    program_recipientsHeld h hinv (.remove entry)

theorem upholds_removeRecursive (dir : RelPath) : Upholds files (store.removeRecursive dir) :=
  upholds_of_program (f := Output.entries) fun _ _ hinv =>
    program_recipientsHeld h hinv (.removeRecursive dir)

end Store

/-! ## Calls -/

section Calls

variable {W SE : Type} {platform : Platform SE} {store : Store W BypassError SE Empty}
  {files : W → Files}

theorem upholds_parsePath (s : Str) :
    Upholds files (BypassStore.parsePath platform s : BypassStore.FfiM W SE RelPath) := by
  unfold BypassStore.parsePath
  split
  · exact upholds_pure _
  · exact upholds_throw _

variable (h : OnMap store files)
include h

theorem upholds_generate (path : Str) (length : Option UInt32) (symbols : Option Bool)
    (inPlace force : Bool) (draw : ℕ → ℕ) :
    Upholds files (BypassStore.generate platform store path length symbols inPlace force draw) := by
  refine (upholds_parsePath path).bind fun entry => ?_
  dsimp only
  split_ifs with hplace
  · refine (upholds_show h entry).mapErr.bind fun existing => ?_
    exact (upholds_insert h entry _ true).mapErr.bind fun _ => upholds_pure _
  · exact (upholds_insert h entry _ force).mapErr.bind fun _ => upholds_pure _

theorem upholds_showField (path field : Str) :
    Upholds files (BypassStore.showField platform store path field) := by
  refine (upholds_parsePath path).bind fun entry => (upholds_show h entry).mapErr.bind fun p => ?_
  split
  · exact upholds_throw _
  · split
    · exact upholds_throw _
    · exact upholds_pure _

theorem upholds_otp (path : Str) : Upholds files (BypassStore.otp platform store path) := by
  refine (upholds_parsePath path).bind fun entry => (upholds_show h entry).mapErr.bind fun p => ?_
  split
  · exact upholds_throw _
  · split
    · exact upholds_throw _
    · exact upholds_pure _

theorem upholds_ls (subpath : Option Str) :
    Upholds files (BypassStore.ls platform store subpath) := by
  refine Upholds.bind ?_ fun sub => (upholds_list h sub).mapErr.bind fun _ => upholds_pure _
  cases subpath with
  | none => exact upholds_pure _
  | some s => exact (upholds_parsePath s).map

theorem upholds_rm (path : Str) (recursive : Bool) :
    Upholds files (BypassStore.rm platform store path recursive) := by
  refine (upholds_parsePath path).bind fun entry => ?_
  cases recursive with
  | true => exact (upholds_removeRecursive h entry).mapErr.bind fun _ => upholds_pure _
  | false => exact (upholds_remove h entry).mapErr

/-- **One call**: if it initialises, with recipients that keep those of the entries there are. -/
theorem call_recipientsHeld {call : FfiCall} {log : Trace W BypassError SE Empty} {s : W}
    (hinv : RecipientsHeld log (files s))
    (hinit : ∀ recipients, call = .init recipients →
      InitKeeps SE (files s) (recipients.map KeyId.mk)) :
    (BypassStore.program platform store call).wp (fun _ tr t => FaultsHarmless files tr →
      RecipientsHeld (log ++ tr) (files t)) s := by
  cases call with
  | init recipients =>
    have hwrote : (store.init (pure ()) (recipients.map KeyId.mk)).wp _ s :=
      init_wrote h (fun _ => Prog.wp_pure.2 rfl) (recipients.map KeyId.mk) s
    refine Prog.wp_bind.2 (Prog.wp_mapErr.2 (Prog.wp_mono hwrote fun r tr t hw => ?_))
    have hkept : FaultsHarmless files tr → RecipientsHeld (log ++ tr) (files t) := fun hf =>
      (hinv.init (hw.1 hf) (hinit recipients rfl)).append
    cases r with
    | error e => exact hkept
    | ok _ =>
      show FaultsHarmless files (tr ++ []) → RecipientsHeld (log ++ (tr ++ [])) (files t)
      rwa [List.append_nil]
  | insert path plaintext overwrite =>
    refine ((upholds_parsePath path).bind fun entry => ?_).bind (fun _ => upholds_pure _) log s hinv
    exact (upholds_insert h entry plaintext overwrite).mapErr
  | «show» path =>
    refine Upholds.map ((upholds_parsePath path).bind fun entry => ?_) log s hinv
    exact (upholds_show h entry).mapErr
  | showField path field => exact (upholds_showField h path field).map log s hinv
  | ls subpath => exact (upholds_ls h subpath).map log s hinv
  | find pattern =>
    refine Upholds.map ((upholds_find h pattern).mapErr.bind fun _ => upholds_pure _) log s hinv
  | generate path length symbols inPlace force draw =>
    exact (upholds_generate h path length symbols inPlace force draw).map log s hinv
  | otp path => exact (upholds_otp h path).map log s hinv
  | rm path recursive => exact (upholds_rm h path recursive).bind (fun _ => upholds_pure _) log s hinv

end Calls

/-! ## Runs -/

section Runs

variable {W SE : Type}

/-- **Each stored entry is encrypted to the recipients that `resolve_recipients` now returns for
it**: its ciphertext came out of an `encrypt` whose recipients are those, as a set. -/
def EncryptedToCurrent (store : Store W BypassError SE Empty) (files : W → Files)
    (s : AppSession W SE) : Prop :=
  ∀ e c, files s.world (entryToBlob e) = some c → ∃ rs', ProducedFor s.log rs' c ∧
    (∃ rs, Resolves SE (files s.world) e rs ∧ ∀ k, k ∈ rs' ↔ k ∈ rs) ∧
      ∀ rs, ((resolveRecipients store.storage e :
          Prog (Event BypassError SE Empty) W _ _).run s.world).1 = .ok rs → ∀ k, k ∈ rs' ↔ k ∈ rs

variable {platform : Platform SE} {store : Store W BypassError SE Empty} {files : W → Files}

theorem RecipientsHeld.encryptedToCurrent (h : OnMap store files) {s : AppSession W SE}
    (hinv : RecipientsHeld s.log (files s.world)) : EncryptedToCurrent store files s := by
  intro e c hc
  obtain ⟨rs, rs', hrs, hprod, hset⟩ := hinv e c hc
  refine ⟨rs', hprod, ⟨rs, hrs, hset⟩, fun rs₂ hrun => ?_⟩
  rw [(resolves_of_run h hrun).unique hrs]
  exact hset

/-- The backend calls of a move that failed changed nothing. -/
def MoveHarmless (platform : Platform SE) (store : Store W BypassError SE Empty)
    (files : W → Files) (x : Move (AppSession W SE) FfiCall (Except BypassError FfiOutput)) : Prop :=
  FaultsHarmless files ((BypassStore.program platform store x.event).trace x.before.world)

/-- If the call initialises the store, then with recipients that keep those of the entries there
are. -/
def MoveKeeps (files : W → Files)
    (x : Move (AppSession W SE) FfiCall (Except BypassError FfiOutput)) : Prop :=
  ∀ recipients, x.event = .init recipients →
    InitKeeps SE (files x.before.world) (recipients.map KeyId.mk)

/-- **Initialising splits no store**, if it keeps the recipients of the entries there are: in every
state that a run reaches from a store that is not split, each entry is encrypted to its current
recipients. -/
theorem never_split (h : OnMap store files) {s t : AppSession W SE}
    {run : List (Move (AppSession W SE) FfiCall (Except BypassError FfiOutput))}
    (hrun : Runs (bypassStore platform store) s run t)
    (hs : RecipientsHeld s.log (files s.world))
    (hfaults : ∀ x ∈ run, MoveHarmless platform store files x)
    (hinits : ∀ x ∈ run, MoveKeeps files x) : EncryptedToCurrent store files t := by
  have hmeets : ∀ x ∈ run, MoveHarmless platform store files x ∧ MoveKeeps files x :=
    fun x hx => ⟨hfaults x hx, hinits x hx⟩
  refine RecipientsHeld.encryptedToCurrent h (hrun.invariant
    (I := fun s => RecipientsHeld s.log (files s.world)) ?_ hmeets hs)
  rintro ⟨before, call, after, outputs⟩ hmakes ⟨hharmless, hkeeps⟩ hinv
  replace hmakes : bypassStore platform store before call = some (after, outputs) := hmakes
  obtain ⟨rfl, -⟩ := Prod.mk.inj (Option.some.inj hmakes)
  exact call_recipientsHeld h hinv (fun recipients hcall => hkeeps recipients hcall) hharmless

end Runs

/-! ## Two sets of recipients -/

/-- `TaggedCrypto` of the app's tests: the recipients and a bar in front of the secret. -/
def appCrypto : Crypto MemFiles BypassError where
  encryptFn plaintext recipients w :=
    (.ok (utf8Encode ([','].intercalate (recipients.map KeyId.str)) ++ 124 ::
      plaintext.map (· ^^^ 0xAA)), w)
  decryptFn ciphertext w :=
    match ciphertext.dropWhile (· ≠ 124) with
    | [] => (.error (.crypto "missing header separator".toList), w)
    | _ :: body => (.ok (body.map (· ^^^ 0xAA)), w)

/-- The store of the app's tests, in memory. -/
def appStore : Store MemFiles BypassError Empty Empty where
  crypto := appCrypto
  storage := memStorage
  vcs := noVcs

theorem appStore_onMap : OnMap appStore memFiles where
  encrypt_files _ _ _ := rfl
  decrypt_files c w := by
    show memFiles (match c.dropWhile (· ≠ 124) with | [] => _ | _ :: _ => _ : _ × _).2 = _
    cases c.dropWhile (· ≠ 124) <;> rfl
  read_files := memStore_onMap.read_files
  read_ok := memStore_onMap.read_ok
  write_frame := memStore_onMap.write_frame
  write_ok := memStore_onMap.write_ok
  remove_frame := memStore_onMap.remove_frame
  remove_ok := memStore_onMap.remove_ok
  exists_files := memStore_onMap.exists_files
  exists_ok := memStore_onMap.exists_ok
  list_files := memStore_onMap.list_files
  list_nodup := memStore_onMap.list_nodup
  mem_list := memStore_onMap.mem_list
  commit_files _ _ _ := rfl

def testPlatform : Platform Empty where
  debug s := '"' :: s ++ ['"']
  storageText e := e.elim
  lower := id
  code _ := .error (.parseUri [])

abbrev testApp : Machine (AppSession MemFiles Empty) FfiCall (Except BypassError FfiOutput) :=
  bypassStore testPlatform appStore

/-- Initialise, insert, and initialise again with these recipients. -/
def initTwice (recipients : List Str) :
    List (Move (AppSession MemFiles Empty) FfiCall (Except BypassError FfiOutput)) ×
      AppSession MemFiles Empty :=
  (exec testApp ⟨∅, []⟩ [.init ["ALICE".toList], .insert "x".toList [1] false,
    .init recipients]).get rfl

/-- The recipients of an `init`. -/
def FfiCall.initRecipients : FfiCall → List Str
  | .init recipients => recipients
  | _ => []

/-- What a call encrypted to. -/
def Event.encryptedTo {CE SE VE : Type} : Event CE SE VE → Option (List KeyId)
  | .encrypt _ recipients _ => some recipients
  | _ => none

def entryX : RelPath := ⟨"x".toList, by decide⟩

/-- **A second `init` can split the store**: the entry stays encrypted to ALICE, and `.gpg-id` now
names BOB. -/
theorem init_can_split :
    Runs testApp ⟨∅, []⟩ (initTwice ["BOB".toList]).1 (initTwice ["BOB".toList]).2 ∧
      (∀ x ∈ (initTwice ["BOB".toList]).1, MoveHarmless testPlatform appStore memFiles x) ∧
      ¬ EncryptedToCurrent appStore memFiles (initTwice ["BOB".toList]).2 := by
  refine ⟨get_runs _, fun x hx => FaultsHarmless.of_not_faulty ?_, fun h => ?_⟩
  · revert x
    decide +kernel
  · obtain ⟨rs', ⟨call, hcall, p, hev⟩, ⟨rs, hrs, hset⟩, -⟩ := h entryX
      (utf8Encode "ALICE".toList ++ 124 :: [1 ^^^ 0xAA]) (by decide +kernel)
    have hto : ∀ call ∈ (initTwice ["BOB".toList]).2.log, call.ev.encryptedTo = none ∨
        call.ev.encryptedTo = some [⟨"ALICE".toList⟩] := by decide +kernel
    have hroot : FromRoot (memFiles (initTwice ["BOB".toList]).2.world) entryX := fun d hd => by
      obtain ⟨q, hq, -⟩ := RelPath.below_iff_parent.1 hd
      exact absurd (RelPath.parent_eq_some.1 hq) (by
        rintro ⟨w, hw, -⟩
        have : '/' ∈ entryX.str := by rw [hw]; simp
        exact absurd this (by decide))
    rw [Resolves, hroot.recipientsFor,
      show memFiles (initTwice ["BOB".toList]).2.world gpgIdPath =
        some (utf8Encode "BOB\n".toList) by decide +kernel] at hrs
    obtain rfl : [⟨"BOB".toList⟩] = rs := Except.ok.inj hrs
    rcases hto call hcall with hnone | hsome
    · rw [hev] at hnone
      cases hnone
    · rw [hev] at hsome
      obtain rfl := Option.some.inj hsome
      exact absurd ((hset ⟨"ALICE".toList⟩).1 (by simp)) (by decide)

theorem never_split_again :
    (initTwice ["ALICE".toList, "ALICE".toList]).1.length = 3 ∧
      EncryptedToCurrent appStore memFiles (initTwice ["ALICE".toList, "ALICE".toList]).2 := by
  refine ⟨rfl, never_split appStore_onMap (get_runs _) (fun e c hc => ?_) (fun x hx => ?_)
    fun x hx => ?_⟩
  · exact absurd hc (by simp [memFiles])
  · refine FaultsHarmless.of_not_faulty ?_
    revert x
    decide +kernel
  · have hroot : memFiles x.before.world gpgIdPath = none ∨
        memFiles x.before.world gpgIdPath = some (utf8Encode "ALICE\n".toList) := by
      revert x
      decide +kernel
    have hgiven : x.event.initRecipients = [] ∨ x.event.initRecipients = ["ALICE".toList] ∨
        x.event.initRecipients = ["ALICE".toList, "ALICE".toList] := by
      revert x
      decide +kernel
    intro recipients hcall
    rw [hcall] at hgiven
    rcases hroot with hnone | hsome
    · exact initKeeps_of_missing hnone _
    intro hnil e c b rs _ _ hb hparse
    obtain rfl := Option.some.inj (hsome.symm.trans hb)
    obtain rfl : [⟨"ALICE".toList⟩] = rs := Except.ok.inj hparse
    rcases hgiven with rfl | rfl | rfl
    · exact absurd rfl hnil
    · exact ⟨[⟨"ALICE".toList⟩], rfl, fun k => Iff.rfl⟩
    · exact ⟨[⟨"ALICE".toList⟩, ⟨"ALICE".toList⟩], rfl, fun k => by simp⟩

end Bypass
