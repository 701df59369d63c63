import Bypass.Core.EntryMap
import Bypass.Core.Mem

/-!
# The store refines the map

Over a storage that is a map and a crypto that decrypts what it encrypted, a store is the map of
`EntryMap`: in every run without a backend failure, each operation returns what the map's operation
returns, and leaves files that hold the map's plaintexts (`store_refines_map`).

The relation carried along a run is `Holds`: an entry of the map is a blob whose ciphertext
decrypts to the entry's plaintext. The proof goes by the plans of the operations.
-/

namespace Bypass

variable {W CE SE VE : Type} {store : Store W CE SE VE} {files : W → Files}

/-! ## The relation -/

/-- Whenever `c` is decrypted, the result is `p`. -/
def Decrypts (store : Store W CE SE VE) (c p : Bytes) : Prop :=
  ∀ w q, (store.crypto.decryptFn c w).1 = .ok q → q = p

/-- **The files hold the map**: each of its entries is a blob that decrypts to its plaintext, and
there is no other blob of an entry. -/
def Holds (store : Store W CE SE VE) (f : Files) (m : EntryMap) : Prop :=
  ∀ e, Option.Rel (Decrypts store) (f (entryToBlob e)) m[e]?

/-- Recipients are in force for every entry. -/
def Resolvable (SE : Type) (f : Files) : Prop := ∀ e, ∃ rs, Resolves SE f e rs

theorem Resolvable.not_unresolved {f : Files} (hf : Resolvable SE f) {entry : RelPath}
    {e : StoreError CE SE VE} : ¬ Unresolved f entry e := by
  rintro ⟨e', he', -⟩
  obtain ⟨rs, hrs⟩ := hf entry
  rw [Resolves, he'] at hrs
  cases hrs

/-- What is not the blob of an entry is as it was. -/
def SameMetadata (f g : Files) : Prop := ∀ q, blobToEntry q = none → g q = f q

theorem Resolvable.of_sameMetadata {f g : Files} (hf : Resolvable SE f) (h : SameMetadata f g) :
    Resolvable SE g := fun e => by
  obtain ⟨rs, hrs⟩ := hf e
  refine ⟨rs, ?_⟩
  rw [Resolves, recipientsFor, recipientsIn_congr (g := f) (fun d => h _ ?_)]
  · exact hrs
  · cases hb : blobToEntry (gpgIdIn d) with
    | none => rfl
    | some e' => exact absurd (blobToEntry_eq_some.1 hb) (gpgIdIn_ne_entryToBlob d e')

theorem sameMetadata_update (f : Files) (e : RelPath) (v : Option Bytes) :
    SameMetadata f (Function.update f (entryToBlob e) v) := fun q hq => by
  have hne : q ≠ entryToBlob e := fun h => by
    rw [h, blobToEntry_entryToBlob] at hq
    cases hq
  exact Function.update_of_ne hne v f

theorem sameMetadata_removeAll (f : Files) (entries : List RelPath) :
    SameMetadata f (applyAll (entries.map fun e => .remove (entryToBlob e)) f) := by
  induction entries generalizing f with
  | nil => exact fun q _ => rfl
  | cons e es ih => exact fun q hq => (ih _ q hq).trans (sameMetadata_update f e none q hq)

theorem SameMetadata.trans {f g k : Files} (h : SameMetadata f g) (h' : SameMetadata g k) :
    SameMetadata f k := fun q hq => (h' q hq).trans (h q hq)

namespace Holds

variable {f : Files} {m : EntryMap}

theorem isSome_eq (h : Holds store f m) (e : RelPath) :
    (f (entryToBlob e)).isSome = m.contains e := by
  rw [Std.ExtTreeMap.contains_eq_isSome_getElem?]
  have he := h e
  revert he
  cases f (entryToBlob e) <;> cases m[e]? <;> rintro ⟨⟩ <;> rfl

theorem getElem?_eq_none (h : Holds store f m) {e : RelPath} (he : f (entryToBlob e) = none) :
    m[e]? = none := by
  have hr := h e
  rw [he] at hr
  cases hm : m[e]? with
  | none => rfl
  | some p =>
    rw [hm] at hr
    cases hr

theorem getElem?_eq_some (h : Holds store f m) {e : RelPath} {c : Bytes}
    (he : f (entryToBlob e) = some c) : ∃ p, m[e]? = some p ∧ Decrypts store c p := by
  have hr := h e
  rw [he] at hr
  cases hm : m[e]? with
  | none =>
    rw [hm] at hr
    cases hr
  | some p =>
    rw [hm] at hr
    cases hr with
    | some hd => exact ⟨p, rfl, hd⟩

theorem write (h : Holds store f m) (e : RelPath) {c p : Bytes} (hd : Decrypts store c p) :
    Holds store (Function.update f (entryToBlob e) (some c)) (m.insert e p) := fun e' => by
  by_cases he : e' = e
  · subst he
    rw [Function.update_self, Std.ExtTreeMap.getElem?_insert_self]
    exact .some hd
  · rw [Function.update_of_ne (fun hb => he (entryToBlob_injective hb)),
      EntryMap.getElem?_insert_of_ne he]
    exact h e'

theorem erase (h : Holds store f m) (e : RelPath) :
    Holds store (Function.update f (entryToBlob e) none) (m.erase e) := fun e' => by
  by_cases he : e' = e
  · subst he
    rw [Function.update_self, Std.ExtTreeMap.getElem?_erase_self]
    exact .none
  · rw [Function.update_of_ne (fun hb => he (entryToBlob_injective hb)),
      EntryMap.getElem?_erase_of_ne he]
    exact h e'

theorem eraseAll (h : Holds store f m) (entries : List RelPath) :
    Holds store (applyAll (entries.map fun e => .remove (entryToBlob e)) f)
      (m.eraseAll entries) := by
  induction entries generalizing f m with
  | nil => exact h
  | cons e es ih => exact ih (h.erase e)

/-- The store lists what the map lists. -/
theorem listed (h : Holds store f m) {subpath : Option RelPath} {entries : List RelPath}
    (hl : Listed f subpath entries) : entries = m.entriesBelow subpath := by
  obtain ⟨hsorted, hnodup, hmem⟩ := hl
  have hle : (m.entriesBelow subpath).Pairwise PathLE :=
    (m.entriesBelow_sorted subpath).imp fun {a b} hlt => by
      have : compare a.str b.str = .lt := hlt
      simp [PathLE, StrLE, this]
  refine List.Perm.eq_of_pairwise (fun a b _ _ hab hba => ?_) hsorted hle ?_
  · exact RelPath.ext (@Std.LawfulEqCmp.eq_of_compare Str compare _ _ _
      (@Std.OrientedCmp.isLE_antisymm Str compare _ _ _ hab hba))
  · rw [List.perm_ext_iff_of_nodup hnodup (m.entriesBelow_nodup subpath)]
    intro e
    rw [hmem, EntryMap.mem_entriesBelow, h.isSome_eq, Std.ExtTreeMap.contains_iff_mem]

theorem taken_iff (h : Holds store f m) (e : RelPath) (overwrite : Bool) :
    Taken f e overwrite ↔ (!overwrite && m.contains e) = true := by
  rw [Taken, h.isSome_eq]
  cases overwrite <;> simp

end Holds

/-! ## One operation -/

theorem Encrypted.decrypts (hrt : RoundTrip store) {tr : Trace W CE SE VE} {p c : Bytes}
    {rs : List KeyId} (h : Encrypted store tr p rs c) : Decrypts store c p := by
  obtain ⟨call, -, -, hc⟩ := h
  exact hrt p rs call.before c hc

/-- What a transfer writes at the destination decrypts to the source's plaintext. -/
theorem Carries.decrypts (hrt : RoundTrip store) {f : Files} {source dest : RelPath}
    {c c' p : Bytes} {tr : Trace W CE SE VE} (h : Carries store f source dest c c' tr)
    (hc : Decrypts store c p) : Decrypts store c' p := by
  rcases h with ⟨rs, rd, -, -, -, rfl⟩ | ⟨q, w, hw, rd, -, henc⟩
  · exact hc
  · have hq := hc w q hw
    rw [← hq]
    exact henc.decrypts hrt

/-- The end of an operation agrees with the map's: in its result, and in what the files hold. -/
def Agrees (store : Store W CE SE VE) (files : W → Files) (s t : W)
    (r : Except (StoreError CE SE VE) Output) (answer : Except MapError Output × EntryMap) :
    Prop :=
  r = answer.1.mapError MapError.toStore ∧ Holds store (files t) answer.2 ∧
    SameMetadata (files s) (files t)

/-- An operation that ends as it began agrees with a map operation that leaves the map alone. -/
theorem agrees_of_eq {s t : W} {m : EntryMap} (hm : Holds store (files s) m)
    {r : Except (StoreError CE SE VE) Output} {a : Except MapError Output}
    (hr : r = a.mapError MapError.toStore) (ht : files t = files s) :
    Agrees store files s t r (a, m) := by
  refine ⟨hr, ?_, fun q _ => by rw [ht]⟩
  rw [ht]
  exact hm

section Transfer

variable {f : Files} {m : EntryMap} {source dest : RelPath} {overwrite : Bool}

theorem TransferRefused.transfer {e : StoreError CE SE VE} (hres : Resolvable SE f)
    (hm : Holds store f m) (h : TransferRefused f source dest overwrite e) :
    ∃ e', m.transfer source dest overwrite = .error e' ∧ e = e'.toStore := by
  have htk := hm.taken_iff dest overwrite
  unfold EntryMap.transfer
  rcases h with ⟨ht, rfl⟩ | ⟨ht, ⟨hnone, rfl⟩ | hun | hun⟩
  · exact ⟨.alreadyExists dest.str, if_pos (htk.1 ht), rfl⟩
  · rw [if_neg fun h => ht (htk.2 h), hm.getElem?_eq_none hnone]
    exact ⟨.notFound source.str, rfl, rfl⟩
  · exact absurd hun hres.not_unresolved
  · exact absurd hun hres.not_unresolved

theorem Transferred.transfer {c' : Bytes} {tr : Trace W CE SE VE} (hrt : RoundTrip store)
    (hm : Holds store f m) (h : Transferred store f source dest overwrite c' tr) :
    ∃ p, m.transfer source dest overwrite = .ok (m.insert dest p) ∧ Decrypts store c' p := by
  have htk := hm.taken_iff dest overwrite
  obtain ⟨ht, c, hc, hcarry⟩ := h
  obtain ⟨p, hp, hd⟩ := hm.getElem?_eq_some hc
  refine ⟨p, ?_, hcarry.decrypts hrt hd⟩
  unfold EntryMap.transfer
  rw [if_neg fun h => ht (htk.2 h), hp]

end Transfer

section Step

variable (h : OnMap store files) {s : W} {m : EntryMap} (hm : Holds store (files s) m)
include h hm

theorem insert_refines (hres : Resolvable SE (files s)) (hrt : RoundTrip store) (entry : RelPath)
    (plaintext : Bytes) (overwrite : Bool) :
    (store.program (.insert entry plaintext overwrite)).wp (fun r tr t => ¬ Faulty tr →
      Agrees store files s t r (m.step (.insert entry plaintext overwrite))) s := by
  refine wp_bind_pure ?_
  rw [store.insert_eq]
  refine Prog.wp_mono ((insert_asks h entry plaintext overwrite).outcome h) fun r tr t ho hnf => ?_
  have htk := hm.taken_iff entry overwrite
  simp only [EntryMap.step]
  rcases ho.ended hnf with ⟨e, rfl, he, ht⟩ | ⟨plan, asked, rfl, ⟨hfree, -, c, hc, hch⟩, ht⟩
  · rcases he with ⟨htaken, rfl⟩ | ⟨-, hun⟩
    · rw [if_pos (htk.1 htaken)]
      exact agrees_of_eq hm rfl ht
    · exact absurd hun hres.not_unresolved
  · rw [if_neg fun ht => hfree (htk.2 ht)]
    obtain ⟨rs, -, hc⟩ := hc
    rw [hch] at ht
    refine ⟨rfl, ?_, ?_⟩ <;> rw [ht]
    · exact hm.write entry (hc.decrypts hrt)
    · exact sameMetadata_update _ _ _

/-- An entry that is written without a commit is in the map. -/
theorem insertNoCommit_succeeds (hres : Resolvable SE (files s)) (hrt : RoundTrip store)
    (entry : RelPath) (plaintext : Bytes) :
    Succeeds (store.insertNoCommit entry plaintext) s fun blob t =>
      blob = entryToBlob entry ∧ Holds store (files t) (m.insert entry plaintext) ∧
        SameMetadata (files s) (files t) := by
  rw [store.insertNoCommit_eq]
  refine Prog.wp_mono ((insertNoCommit_asks h entry plaintext).outcome h) fun r tr t ho hnf => ?_
  rcases ho.ended hnf with ⟨e, rfl, he, ht⟩ | ⟨plan, asked, rfl, ⟨hr, c, hc, hch⟩, ht⟩
  · exact absurd he hres.not_unresolved
  · obtain ⟨rs, -, hc⟩ := hc
    -- the removal is overwritten by the write at the same path
    have hup : files t = Function.update (files s) (entryToBlob entry) (some c) := by
      rw [ht, hch]
      exact Function.update_idem _ _ _
    refine ⟨plan.result, rfl, hr, ?_, ?_⟩ <;> rw [hup]
    · exact hm.write entry (hc.decrypts hrt)
    · exact sameMetadata_update _ _ _

theorem insertNoCommit_refines (hres : Resolvable SE (files s)) (hrt : RoundTrip store)
    (entry : RelPath) (plaintext : Bytes) :
    (store.program (.insertNoCommit entry plaintext)).wp (fun r tr t => ¬ Faulty tr →
      Agrees store files s t r (m.step (.insertNoCommit entry plaintext))) s := by
  refine wp_bind_pure (Prog.wp_mono (insertNoCommit_succeeds h hm hres hrt entry plaintext) ?_)
  intro r tr t hr hnf
  obtain ⟨blob, rfl, rfl, hholds, hmeta⟩ := hr hnf
  exact ⟨rfl, hholds, hmeta⟩

theorem show_refines (entry : RelPath) :
    (store.program (.show entry)).wp (fun r tr t => ¬ Faulty tr →
      Agrees store files s t r (m.step (.show entry))) s := by
  refine wp_bind_pure (Prog.wp_mono (show_asks h entry) ?_)
  rintro r tr t ⟨-, ht, hr⟩ hnf
  simp only [EntryMap.step]
  cases r with
  | error e =>
    obtain ⟨hnone, rfl⟩ := hr.resolve_left hnf
    rw [hm.getElem?_eq_none hnone]
    exact agrees_of_eq hm rfl ht
  | ok p =>
    obtain ⟨-, c, w, hc, hw⟩ := hr
    obtain ⟨q, hq, hd⟩ := hm.getElem?_eq_some hc
    rw [hq, ← hd w p hw]
    exact agrees_of_eq hm rfl ht

theorem list_refines (subpath : Option RelPath) :
    (store.list subpath).wp (fun r tr t => ¬ Faulty tr →
      r = .ok (m.entriesBelow subpath) ∧ files t = files s) s := by
  refine Prog.wp_mono (list_asks h subpath) ?_
  rintro r tr t ⟨-, ht, hr⟩ hnf
  cases r with
  | error e => exact (hr.resolve_left hnf).elim
  | ok entries => exact ⟨congrArg Except.ok (hm.listed hr.2), ht⟩

theorem remove_refines (entry : RelPath) :
    (store.program (.remove entry)).wp (fun r tr t => ¬ Faulty tr →
      Agrees store files s t r (m.step (.remove entry))) s := by
  refine wp_bind_pure ?_
  rw [store.remove_eq]
  refine Prog.wp_mono ((remove_asks h entry).outcome h) fun r tr t ho hnf => ?_
  have hin := hm.isSome_eq entry
  simp only [EntryMap.step]
  rcases ho.ended hnf with ⟨e, rfl, ⟨hnone, rfl⟩, ht⟩ | ⟨plan, asked, rfl, ⟨hsome, -, hch⟩, ht⟩
  · rw [if_neg (by simp [← hin, hnone])]
    exact agrees_of_eq hm rfl ht
  · rw [if_pos (hin ▸ hsome)]
    rw [hch] at ht
    refine ⟨rfl, ?_, ?_⟩ <;> rw [ht]
    · exact hm.erase entry
    · exact sameMetadata_update _ _ _

theorem copy_refines (hres : Resolvable SE (files s)) (hrt : RoundTrip store)
    (source dest : RelPath) (overwrite : Bool) :
    (store.program (.copy source dest overwrite)).wp (fun r tr t => ¬ Faulty tr →
      Agrees store files s t r (m.step (.copy source dest overwrite))) s := by
  refine wp_bind_pure ?_
  rw [store.copy_eq]
  refine Prog.wp_mono ((copy_asks h source dest overwrite).outcome h) fun r tr t ho hnf => ?_
  simp only [EntryMap.step]
  rcases ho.ended hnf with ⟨e, rfl, he, ht⟩ | ⟨plan, asked, rfl, ⟨-, c, hc, hch⟩, ht⟩
  · obtain ⟨e', he', rfl⟩ := he.transfer hres hm
    rw [he']
    exact agrees_of_eq hm rfl ht
  · obtain ⟨p, hp, hd⟩ := hc.transfer hrt hm
    rw [hch] at ht
    rw [hp]
    refine ⟨rfl, ?_, ?_⟩ <;> rw [ht]
    · exact hm.write dest hd
    · exact sameMetadata_update _ _ _

theorem rename_refines (hres : Resolvable SE (files s)) (hrt : RoundTrip store)
    (source dest : RelPath) (overwrite : Bool) :
    (store.program (.rename source dest overwrite)).wp (fun r tr t => ¬ Faulty tr →
      Agrees store files s t r (m.step (.rename source dest overwrite))) s := by
  refine wp_bind_pure ?_
  rw [store.rename_eq]
  refine Prog.wp_mono ((rename_asks h source dest overwrite).outcome h) fun r tr t ho hnf => ?_
  simp only [EntryMap.step]
  rcases ho.ended hnf with ⟨e, rfl, ⟨hne, he⟩, ht⟩ | ⟨plan, asked, rfl, ⟨-, hpl⟩, ht⟩
  · obtain ⟨e', he', rfl⟩ := he.transfer hres hm
    rw [if_neg hne, he']
    exact agrees_of_eq hm rfl ht
  · rcases hpl with ⟨heq, hch⟩ | ⟨hne, c, hc, hch⟩
    · rw [if_pos heq]
      rw [hch] at ht
      exact agrees_of_eq hm rfl ht
    · obtain ⟨p, hp, hd⟩ := hc.transfer hrt hm
      rw [hch] at ht
      rw [if_neg hne, hp]
      refine ⟨rfl, ?_, ?_⟩ <;> rw [ht]
      · exact (hm.write dest hd).erase source
      · exact (sameMetadata_update _ dest _).trans (sameMetadata_update _ source _)

theorem removeRecursive_refines (dir : RelPath) :
    (store.program (.removeRecursive dir)).wp (fun r tr t => ¬ Faulty tr →
      Agrees store files s t r (m.step (.removeRecursive dir))) s := by
  refine wp_bind_pure ?_
  rw [store.removeRecursive_eq]
  refine Prog.wp_mono ((removeRecursive_asks h dir).outcome h) fun r tr t ho hnf => ?_
  simp only [EntryMap.step]
  rcases ho.ended hnf with ⟨e, rfl, ⟨hl, rfl⟩, ht⟩ | ⟨plan, asked, rfl, ⟨hl, hne, hch⟩, ht⟩
  · rw [if_pos (hm.listed hl).symm]
    exact agrees_of_eq hm rfl ht
  · have heq := hm.listed hl
    rw [if_neg (heq ▸ hne), ← heq]
    rw [hch] at ht
    refine ⟨rfl, ?_, ?_⟩ <;> rw [ht]
    · exact hm.eraseAll plan.result
    · exact sameMetadata_removeAll _ _

/-- **Each operation agrees with the map's**, unless a backend call fails. -/
theorem program_refines (hres : Resolvable SE (files s)) (hrt : RoundTrip store) (op : Op) :
    (store.program op).wp (fun r tr t => ¬ Faulty tr → Agrees store files s t r (m.step op)) s := by
  cases op with
  | insert entry plaintext overwrite => exact insert_refines h hm hres hrt entry plaintext overwrite
  | insertNoCommit entry plaintext => exact insertNoCommit_refines h hm hres hrt entry plaintext
  | «show» entry => exact show_refines h hm entry
  | list subpath =>
    refine wp_bind_pure (Prog.wp_mono (list_refines h hm subpath) fun r tr t hr hnf => ?_)
    obtain ⟨rfl, ht⟩ := hr hnf
    exact agrees_of_eq hm rfl ht
  | find pattern =>
    refine wp_bind_pure (Prog.wp_bind.2 (Prog.wp_mono (list_refines h hm none) ?_))
    intro r tr t hr
    cases r with
    | error e =>
      intro hnf
      cases (hr hnf).1
    | ok entries =>
      intro hnf
      rw [Prog.trace_pure, List.append_nil] at hnf
      obtain ⟨he, ht⟩ := hr hnf
      cases he
      exact agrees_of_eq hm rfl ht
  | remove entry => exact remove_refines h hm entry
  | copy source dest overwrite => exact copy_refines h hm hres hrt source dest overwrite
  | rename source dest overwrite => exact rename_refines h hm hres hrt source dest overwrite
  | removeRecursive dir => exact removeRecursive_refines h hm dir

end Step

/-! ## Runs -/

/-- **Every run of a store is a run of the map.** -/
theorem runOps_refines (h : OnMap store files) (hrt : RoundTrip store) (ops : List Op) {s : W}
    {m : EntryMap} (hres : Resolvable SE (files s)) (hm : Holds store (files s) m)
    (hnf : ¬ Faulty (store.traceOps ops s)) :
    (store.runOps ops s).1 = (m.steps ops).1.map (fun a => a.mapError MapError.toStore) ∧
      Holds store (files (store.runOps ops s).2) (m.steps ops).2 ∧
      SameMetadata (files s) (files (store.runOps ops s).2) := by
  induction ops generalizing s m with
  | nil => exact ⟨rfl, hm, fun q _ => rfl⟩
  | cons op ops ih =>
    rw [Store.traceOps_cons, faulty_append, not_or] at hnf
    obtain ⟨hr, hm', hmeta⟩ := program_refines h hm hres hrt op hnf.1
    obtain ⟨hrs, hm'', hmeta'⟩ := ih (hres.of_sameMetadata hmeta) hm' hnf.2
    refine ⟨?_, hm'', hmeta.trans hmeta'⟩
    rw [Store.runOps_cons, EntryMap.steps, List.map_cons, hr, hrs]

/-- A run on the map changes only what some operation of it names. -/
theorem EntryMap.steps_frame (m : EntryMap) (ops : List Op) {e : RelPath}
    (he : ∀ op ∈ ops, ¬ EntryMap.Names op e) : (m.steps ops).2[e]? = m[e]? := by
  induction ops generalizing m with
  | nil => rfl
  | cons op ops ih =>
    rw [← EntryMap.step_frame m op (he op List.mem_cons_self)]
    exact ih _ fun op' hop => he op' (List.mem_cons_of_mem _ hop)

/-! ## A run in memory -/

/-- A store in memory with a recipients file at its root and no entries. -/
def memFresh : MemFiles := Std.ExtTreeMap.empty.insert gpgIdPath (utf8Encode "ALICE\n".toList)

theorem memFresh_file {q : RelPath} {b : Bytes} (h : memFiles memFresh q = some b) :
    q = gpgIdPath ∧ b = utf8Encode "ALICE\n".toList := by
  rw [memFresh, memFiles_insert, Function.update_apply] at h
  split_ifs at h with hq
  · exact ⟨hq, (Option.some.inj h).symm⟩
  · simp [memFiles] at h

theorem memFresh_resolvable : Resolvable Empty (memFiles memFresh) := fun e => by
  refine recipientsIn_isOk (by decide) (fun d b hb => ?_) e.parent
  obtain ⟨-, rfl⟩ := memFresh_file hb
  exact ⟨[⟨"ALICE".toList⟩], by decide⟩

theorem memFresh_holds : Holds memStore (memFiles memFresh) ∅ := fun e => by
  have hnone : memFiles memFresh (entryToBlob e) = none := by
    cases hb : memFiles memFresh (entryToBlob e) with
    | none => rfl
    | some b => exact absurd (memFresh_file hb).1.symm (gpgIdIn_ne_entryToBlob none e)
  rw [hnone, Std.ExtTreeMap.getElem?_empty]
  exact .none

/-- A run with each kind of end: a rename, a copy refused, a directory removed. -/
def memRun : List Op :=
  let a : RelPath := ⟨"web/a".toList, validate_web_a⟩
  let b : RelPath := ⟨"web/b".toList, validate_web_b⟩
  let c : RelPath := ⟨"c".toList, validate_c⟩
  [.insert a [1] false, .insert b [2] true, .rename a c false, .copy c b false, .list none,
    .removeRecursive ⟨"web".toList, validate_web⟩, .show c]

/-! ## The store is a map -/

/-- **The store is a map.** In every run without a backend failure, of any operations on any store
whose entries decrypt and have recipients: each operation returns what the map's operation returns,
with its error; the files then hold the map, and every other file is as it was; entries that no
operation named keep their plaintext; and listing, of the whole or below a directory, is the
strictly sorted key set. -/
theorem store_is_map (h : OnMap store files) (hrt : RoundTrip store) (ops : List Op) {s : W}
    {m : EntryMap} (hres : Resolvable SE (files s)) (hm : Holds store (files s) m)
    (hnf : ¬ Faulty (store.traceOps ops s)) :
    (store.runOps ops s).1 = (m.steps ops).1.map (fun a => a.mapError MapError.toStore) ∧
      Holds store (files (store.runOps ops s).2) (m.steps ops).2 ∧
      SameMetadata (files s) (files (store.runOps ops s).2) ∧
      (∀ e, (∀ op ∈ ops, ¬ EntryMap.Names op e) → (m.steps ops).2[e]? = m[e]?) ∧
      ∀ (n : EntryMap) subpath,
        (n.entriesBelow subpath).Pairwise (fun e f => compare e f = .lt) ∧
          ∀ e, e ∈ n.entriesBelow subpath ↔ e ∈ n ∧ ∀ p ∈ subpath, p.Below e := by
  obtain ⟨hrs, hholds, hmeta⟩ := runOps_refines h hrt ops hres hm hnf
  refine ⟨hrs, hholds, hmeta, fun e he => m.steps_frame ops he, fun n subpath => ⟨?_, fun e => ?_⟩⟩
  · exact n.entriesBelow_sorted subpath
  · exact EntryMap.mem_entriesBelow

theorem store_is_map_memRun :
    (memStore.runOps memRun memFresh).1 =
      ((∅ : EntryMap).steps memRun).1.map (fun a => a.mapError MapError.toStore) :=
  (store_is_map memStore_onMap memStore_roundTrip memRun memFresh_resolvable memFresh_holds
    (by decide +kernel)).1

end Bypass
