import Bypass.Core.StoreMap

/-!
# Every entry is encrypted to its recipients

A copy or a rename writes the ciphertext of its source again when it judges the recipients equal,
and never looks into a ciphertext. So that an entry is readable by the right keys is a fact about
all that was done to the store before, and needs an invariant of runs: each entry's ciphertext came
out of a call of `encrypt` whose recipients are, as a set, those in force for the entry
(`RecipientsHeld`, `recipients_held`).

The comparison promises that the lists are compared as sets. It counts: `recipients_equal_iff`.
-/

namespace Bypass

variable {W CE SE VE : Type} {store : Store W CE SE VE} {files : W → Files}

/-! ## When recipients are judged equal -/

/-- **When recipients are compared as sets**: when no lists of the same recipients differ in how often
they name one. -/
theorem recipients_equal_iff (a b : List KeyId) :
    (recipientsEqual a b = true ↔ ∀ k, k ∈ a ↔ k ∈ b) ↔
      ((∀ k, k ∈ a ↔ k ∈ b) → ∀ k, a.count k = b.count k) := by
  rw [recipientsEqual_iff, List.perm_iff_count]
  constructor
  · intro h hset
    exact h.2 hset
  · intro h
    refine ⟨fun hcount k => ?_, h⟩
    rw [← List.count_pos_iff, ← List.count_pos_iff, hcount k]

/-- A recipient that is named twice makes two lists differ. -/
theorem named_twice_differs :
    recipientsEqual [⟨"ALICE".toList⟩, ⟨"ALICE".toList⟩] [⟨"ALICE".toList⟩] = false ∧
      ∀ k : KeyId, k ∈ [⟨"ALICE".toList⟩, ⟨"ALICE".toList⟩] ↔ k ∈ [(⟨"ALICE".toList⟩ : KeyId)] := by
  refine ⟨by decide, fun k => ?_⟩
  simp

/-! ## The invariant -/

/-- A call of `log` encrypted something to `recipients` and answered `c`. -/
def ProducedFor (log : Trace W CE SE VE) (recipients : List KeyId) (c : Bytes) : Prop :=
  ∃ call ∈ log, ∃ plaintext, call.ev = .encrypt plaintext recipients (.ok c)

/-- `c` was produced for the recipients in force for the entry, up to order and repetition. -/
def HeldBy (log : Trace W CE SE VE) (f : Files) (e : RelPath) (c : Bytes) : Prop :=
  ∃ rs rs', Resolves SE f e rs ∧ ProducedFor log rs' c ∧ ∀ k, k ∈ rs' ↔ k ∈ rs

/-- **The recipient invariant**, of the calls made so far and the files. -/
def RecipientsHeld (log : Trace W CE SE VE) (f : Files) : Prop :=
  ∀ e c, f (entryToBlob e) = some c → HeldBy log f e c

theorem HeldBy.append {log tr : Trace W CE SE VE} {f : Files} {e : RelPath} {c : Bytes}
    (h : HeldBy log f e c) : HeldBy (log ++ tr) f e c := by
  obtain ⟨rs, rs', hrs, ⟨call, hcall, h⟩, hset⟩ := h
  exact ⟨rs, rs', hrs, ⟨call, List.mem_append_left _ hcall, h⟩, hset⟩

theorem RecipientsHeld.append {log tr : Trace W CE SE VE} {f : Files}
    (h : RecipientsHeld log f) : RecipientsHeld (log ++ tr) f :=
  fun e c hc => (h e c hc).append

theorem HeldBy.update {log : Trace W CE SE VE} {f : Files} {e e' : RelPath} {c : Bytes}
    {v : Option Bytes} (h : HeldBy log f e c) :
    HeldBy log (Function.update f (entryToBlob e') v) e c := by
  obtain ⟨rs, rs', hrs, hp, hset⟩ := h
  refine ⟨rs, rs', ?_, hp, hset⟩
  rw [Resolves, recipientsFor_update]
  exact hrs

/-! ## Changes -/

/-- A change that keeps the invariant: at an entry's blob, and of a ciphertext for that entry. -/
def KeepsHeld (log : Trace W CE SE VE) (f : Files) (c : Change) : Prop :=
  ∃ e, c.path = entryToBlob e ∧ ∀ d ∈ c.value, HeldBy log f e d

theorem RecipientsHeld.apply {log : Trace W CE SE VE} {f : Files} {c : Change}
    (h : RecipientsHeld log f) (hc : KeepsHeld log f c) : RecipientsHeld log (c.apply f) := by
  obtain ⟨e₀, hpath, hval⟩ := hc
  intro e d hd
  rw [Change.apply, hpath] at hd ⊢
  by_cases he : e = e₀
  · subst he
    rw [Function.update_self] at hd
    exact (hval d hd).update
  · rw [Function.update_of_ne fun hb => he (entryToBlob_injective hb)] at hd
    exact (h e d hd).update

theorem KeepsHeld.apply {log : Trace W CE SE VE} {f : Files} {c c' : Change}
    (hc : KeepsHeld log f c) (hc' : KeepsHeld log f c') : KeepsHeld log (c'.apply f) c := by
  obtain ⟨e, hpath, hval⟩ := hc
  obtain ⟨e', hpath', -⟩ := hc'
  refine ⟨e, hpath, fun d hd => ?_⟩
  rw [Change.apply, hpath']
  exact (hval d hd).update

theorem RecipientsHeld.applyAll {log : Trace W CE SE VE} {f : Files} {cs : List Change}
    (h : RecipientsHeld log f) (hcs : ∀ c ∈ cs, KeepsHeld log f c) :
    RecipientsHeld log (applyAll cs f) := by
  induction cs generalizing f with
  | nil => exact h
  | cons c cs ih =>
    have hc := hcs c List.mem_cons_self
    refine ih (h.apply hc) fun c' hc' => ?_
    exact (hcs c' (List.mem_cons_of_mem _ hc')).apply hc

/-! ## Operations -/

theorem EncryptedFor.heldBy {f : Files} {e : RelPath} {p c : Bytes} {log tr : Trace W CE SE VE}
    (h : EncryptedFor store f e p c tr) : HeldBy (log ++ tr) f e c := by
  obtain ⟨rs, hrs, call, hcall, hev, -⟩ := h
  exact ⟨rs, rs, hrs, ⟨call, List.mem_append_right _ hcall, p, hev⟩, fun _ => Iff.rfl⟩

/-- **A transfer keeps the invariant**: by the invariant at the source, when it copies bytes. -/
theorem Transferred.heldBy {f : Files} {source dest : RelPath} {overwrite : Bool} {c' : Bytes}
    {log tr : Trace W CE SE VE} (hinv : RecipientsHeld log f)
    (h : Transferred store f source dest overwrite c' tr) : HeldBy (log ++ tr) f dest c' := by
  obtain ⟨-, c, hc, ⟨rs, rd, hrs, hrd, heq, rfl⟩ | ⟨p, w, -, henc⟩⟩ := h
  · obtain ⟨rs₀, rs', hrs₀, hprod, hset⟩ := hinv source _ hc
    obtain rfl := hrs₀.unique hrs
    have hperm := recipientsEqual_iff.1 heq
    have hdest : HeldBy log f dest c' := ⟨rd, rs', hrd, hprod, fun k => (hset k).trans hperm.mem_iff⟩
    exact hdest.append
  · exact henc.heldBy

/-- An operation all of whose changes keep the invariant keeps it, however it ends. -/
theorem Outcome.recipientsHeld {α : Type} {s t : W} {refused : StoreError CE SE VE → Prop}
    {planned : Plan α → Trace W CE SE VE → Prop} {r : Except (StoreError CE SE VE) α}
    {log tr : Trace W CE SE VE} (ho : Outcome files s refused planned r tr t)
    (hinv : RecipientsHeld log (files s)) (hf : FaultsHarmless files tr)
    (hplan : ∀ plan asked, planned plan asked →
      ∀ c ∈ plan.changes, KeepsHeld (log ++ asked) (files s) c) :
    RecipientsHeld (log ++ tr) (files t) := by
  cases ho with
  | stopped _ ht _ =>
    rw [ht]
    exact hinv.append
  | @done plan asked tr' _ _ _ hp _ ht =>
    rw [ht, ← List.append_assoc]
    exact (hinv.append.applyAll (hplan plan asked hp)).append
  | @broken plan asked tr' _ _ n _ _ hp _ hfail =>
    obtain ⟨pre, c, rfl, hc, -, rfl, hbefore⟩ := hfail
    -- the failing call left the files as the changes before it had made them
    rw [hf c (by simp) hc, hbefore, ← List.append_assoc]
    have hcs : ∀ c ∈ plan.changes.take n, KeepsHeld (log ++ asked) (files s) c :=
      fun c hc => hplan plan asked hp c (List.mem_of_mem_take hc)
    exact (hinv.append.applyAll hcs).append

theorem Asks.recipientsHeld {ε α : Type} {p : Prog (Event CE SE VE) W ε α} {s : W}
    {refused : ε → Prop} {answered : α → Trace W CE SE VE → Prop} {log : Trace W CE SE VE}
    (hp : Asks files p s refused answered) (hinv : RecipientsHeld log (files s)) :
    p.wp (fun _ tr t => RecipientsHeld (log ++ tr) (files t)) s :=
  Prog.wp_mono hp fun r tr t ⟨_, ht, _⟩ => by
    rw [ht]
    exact hinv.append

/-- **Each operation keeps the invariant**, also one that fails. -/
theorem program_recipientsHeld (h : OnMap store files) {s : W} {log : Trace W CE SE VE}
    (hinv : RecipientsHeld log (files s)) (op : Op) :
    (store.program op).wp (fun _ tr t => FaultsHarmless files tr →
      RecipientsHeld (log ++ tr) (files t)) s := by
  cases op with
  | insert entry plaintext overwrite =>
    refine wp_bind_pure ?_
    rw [store.insert_eq]
    refine Prog.wp_mono ((insert_asks h entry plaintext overwrite).outcome h) fun r tr t ho hf => ?_
    refine ho.recipientsHeld hinv hf ?_
    rintro plan asked ⟨-, -, c, hc, hch⟩ c' hc'
    rw [hch, List.mem_singleton] at hc'
    subst hc'
    exact ⟨entry, rfl, fun d hd => by cases hd; exact hc.heldBy⟩
  | insertNoCommit entry plaintext =>
    refine wp_bind_pure ?_
    rw [store.insertNoCommit_eq]
    refine Prog.wp_mono ((insertNoCommit_asks h entry plaintext).outcome h) fun r tr t ho hf => ?_
    refine ho.recipientsHeld hinv hf ?_
    rintro plan asked ⟨-, c, hc, hch⟩ c' hc'
    rw [hch] at hc'
    rcases List.mem_pair.1 hc' with rfl | rfl
    · exact ⟨entry, rfl, fun d hd => by cases hd⟩
    · exact ⟨entry, rfl, fun d hd => by cases hd; exact hc.heldBy⟩
  | «show» entry =>
    exact wp_bind_pure (Prog.wp_mono ((show_asks h entry).recipientsHeld hinv) fun _ _ _ hi _ => hi)
  | list subpath =>
    exact wp_bind_pure
      (Prog.wp_mono ((list_asks h subpath).recipientsHeld hinv) fun _ _ _ hi _ => hi)
  | find pattern =>
    exact wp_bind_pure
      (Prog.wp_mono ((find_asks h pattern).recipientsHeld hinv) fun _ _ _ hi _ => hi)
  | remove entry =>
    refine wp_bind_pure ?_
    rw [store.remove_eq]
    refine Prog.wp_mono ((remove_asks h entry).outcome h) fun r tr t ho hf => ?_
    refine ho.recipientsHeld hinv hf ?_
    rintro plan asked ⟨-, -, hch⟩ c' hc'
    rw [hch, List.mem_singleton] at hc'
    subst hc'
    exact ⟨entry, rfl, fun d hd => by cases hd⟩
  | copy source dest overwrite =>
    refine wp_bind_pure ?_
    rw [store.copy_eq]
    refine Prog.wp_mono ((copy_asks h source dest overwrite).outcome h) fun r tr t ho hf => ?_
    refine ho.recipientsHeld hinv hf ?_
    rintro plan asked ⟨-, c, hc, hch⟩ c' hc'
    rw [hch, List.mem_singleton] at hc'
    subst hc'
    exact ⟨dest, rfl, fun d hd => by cases hd; exact hc.heldBy hinv⟩
  | rename source dest overwrite =>
    refine wp_bind_pure ?_
    rw [store.rename_eq]
    refine Prog.wp_mono ((rename_asks h source dest overwrite).outcome h) fun r tr t ho hf => ?_
    refine ho.recipientsHeld hinv hf ?_
    rintro plan asked ⟨-, ⟨-, hch⟩ | ⟨-, c, hc, hch⟩⟩ c' hc'
    · rw [hch] at hc'
      cases hc'
    · rw [hch] at hc'
      rcases List.mem_pair.1 hc' with rfl | rfl
      · exact ⟨dest, rfl, fun d hd => by cases hd; exact hc.heldBy hinv⟩
      · exact ⟨source, rfl, fun d hd => by cases hd⟩
  | removeRecursive dir =>
    refine wp_bind_pure ?_
    rw [store.removeRecursive_eq]
    refine Prog.wp_mono ((removeRecursive_asks h dir).outcome h) fun r tr t ho hf => ?_
    refine ho.recipientsHeld hinv hf ?_
    rintro plan asked ⟨-, -, hch⟩ c' hc'
    rw [hch, List.mem_map] at hc'
    obtain ⟨e, -, rfl⟩ := hc'
    exact ⟨e, rfl, fun d hd => by cases hd⟩

/-! ## Runs -/

/-- A subtree with its own recipients, -/
def memShared : MemFiles :=
  memFresh.insert (gpgIdIn (some ⟨"team".toList, by decide⟩)) (utf8Encode "BOB\nALICE\n".toList)

/-- and entries copied and renamed across its border. -/
def memMoves : List Op :=
  let a : RelPath := ⟨"a".toList, validate_a⟩
  let b : RelPath := ⟨"team/b".toList, by decide⟩
  let c : RelPath := ⟨"team/c".toList, by decide⟩
  [.insert a [1] false, .copy a b false, .rename b c false, .copy c a true]

theorem memShared_empty (e : RelPath) : memFiles memShared (entryToBlob e) = none := by
  rw [memShared, memFiles_insert, Function.update_of_ne (gpgIdIn_ne_entryToBlob _ e).symm]
  cases hb : memFiles memFresh (entryToBlob e) with
  | none => rfl
  | some b => exact absurd (memFresh_file hb).1.symm (gpgIdIn_ne_entryToBlob none e)

/-- **Every entry is encrypted to its recipients**, in every state that a run reaches from a store
without entries: its ciphertext came out of an `encrypt` of the run whose recipients are, as a set,
those that `resolve_recipients` now returns for it. Calls may fail, if a failing call leaves the
files alone. -/
theorem recipients_held (h : OnMap store files) (ops : List Op) {s : W}
    (hempty : ∀ e, files s (entryToBlob e) = none)
    (hf : FaultsHarmless files (store.traceOps ops s)) (e : RelPath) {c : Bytes}
    (hc : files (store.runOps ops s).2 (entryToBlob e) = some c) :
    ∃ rs', ProducedFor (store.traceOps ops s) rs' c ∧
      (∃ rs, Resolves SE (files (store.runOps ops s).2) e rs ∧ ∀ k, k ∈ rs' ↔ k ∈ rs) ∧
      ∀ rs, ((resolveRecipients store.storage e :
          Prog (Event CE SE VE) W _ _).run (store.runOps ops s).2).1 = .ok rs →
        ∀ k, k ∈ rs' ↔ k ∈ rs := by
  have hinv : RecipientsHeld (store.traceOps ops s) (files (store.runOps ops s).2) := by
    refine runOps_preserves (I := fun log t => RecipientsHeld log (files t))
      (fun tr tr' => FaultsHarmless.of_append) ?_ ops [] s ?_ hf
    · exact fun op log s hi hok => program_recipientsHeld h hi op hok
    · intro e c hc
      rw [hempty] at hc
      cases hc
  obtain ⟨rs, rs', hrs, hprod, hset⟩ := hinv e c hc
  refine ⟨rs', hprod, ⟨rs, hrs, hset⟩, fun rs₂ hrun => ?_⟩
  rw [(resolves_of_run h hrun).unique hrs]
  exact hset

theorem recipients_held_memMoves :
    ∃ rs', ProducedFor (memStore.traceOps memMoves memShared) rs'
        (tagHeader [⟨"BOB".toList⟩, ⟨"ALICE".toList⟩] ++ [1 ^^^ 0xAA]) ∧
      ∃ rs, Resolves Empty (memFiles (memStore.runOps memMoves memShared).2)
        ⟨"team/c".toList, by decide⟩ rs ∧ ∀ k, k ∈ rs' ↔ k ∈ rs :=
  (recipients_held memStore_onMap memMoves memShared_empty
    (.of_not_faulty (by decide +kernel)) ⟨"team/c".toList, by decide⟩ (by decide +kernel)).imp
      fun _ h => ⟨h.1, h.2.1⟩

end Bypass
