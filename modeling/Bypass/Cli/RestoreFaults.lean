import Bypass.Cli.Rotation
import Bypass.Core.InsertEnds

/-!
# Restores that fail

A restore writes the entries of the bundle over those of the store, and removes each old blob before
it writes the new one. If it fails between the two, the entry is gone; at any other point every
entry still reads as it did, or as the bundle has it.

* `Sparing`: a program that spares every path, or ends with a call that harms one.
* `sparing_insertNoCommit`, `sparing_restore`: the programs that do.
* **`restore_spares_iff`**: when a restore that fails has spared every entry.
-/

namespace Bypass

open Prog

variable {W CE SE VE B IE TE : Type} {store : Store W CE SE VE} {files : W → Files}
  {Opens : Bytes → Bytes → Prop} {entries : List BundleEntry}

/-! ## Harm -/

/-- The call has failed, and harmed the path: it is a write there, so that what the write was to
replace has been removed already, or a removal that got half-way. -/
def Harms (files : W → Files) (call : Step (Event CE SE VE) W) (q : RelPath) : Prop :=
  (∃ d e, call.ev = .write q d (.error e)) ∨
    ∃ e, call.ev = .remove q (.error e) ∧ files call.after q ≠ files call.before q

/-- What is at the path is what was there, or opens to what the bundle has for it. -/
def Spared (Opens : Bytes → Bytes → Prop) (entries : List BundleEntry) (f g : Files) (q : RelPath) :
    Prop :=
  g q = f q ∨ ∃ b ∈ entries, q = entryToBlob b.path ∧ ∃ c, g q = some c ∧ Opens c b.plaintext

theorem Spared.trans {f g k : Files} {q : RelPath} (hfg : Spared Opens entries f g q)
    (hgk : Spared Opens entries g k q) : Spared Opens entries f k q := by
  rcases hgk with heq | hnew
  · rcases hfg with heq' | ⟨b, hb, hq, c, hc, hopens⟩
    · exact Or.inl (heq.trans heq')
    · exact Or.inr ⟨b, hb, hq, c, heq.trans hc, hopens⟩
  · exact Or.inr hnew

/-- Every path has been spared, and no call has harmed one. -/
def AllSpared (files : W → Files) (Opens : Bytes → Bytes → Prop) (entries : List BundleEntry)
    (s : W) (tr : Trace W CE SE VE) (t : W) : Prop :=
  (∀ q, Spared Opens entries (files s) (files t) q) ∧ ∀ call ∈ tr, ∀ q, ¬ Harms files call q

/-- One path has been harmed, and is ruined; every other has been spared. -/
def OneHarmed (files : W → Files) (Opens : Bytes → Bytes → Prop) (entries : List BundleEntry)
    (s : W) (tr : Trace W CE SE VE) (t : W) : Prop :=
  ∃ q, Ruined Opens (files t q) ∧ (∃ call ∈ tr, Harms files call q) ∧
    (∀ call ∈ tr, ∀ q', Harms files call q' → q' = q) ∧
    ∀ q', q' ≠ q → Spared Opens entries (files s) (files t) q'

/-- **A program that spares**: it harms no path as long as it succeeds, and at most one when it
fails. -/
def Sparing (files : W → Files) (Opens : Bytes → Bytes → Prop) (entries : List BundleEntry)
    {ε α : Type} (p : Prog (Event CE SE VE) W ε α) : Prop :=
  ∀ s, p.wp (fun r tr t => match r with
    | .ok _ => AllSpared files Opens entries s tr t
    | .error _ => AllSpared files Opens entries s tr t ∨ OneHarmed files Opens entries s tr t) s

section Rules

variable {ε δ α β : Type}

theorem allSpared_nil (s : W) :
    AllSpared files Opens entries s ([] : Trace W CE SE VE) s :=
  ⟨fun _ => Or.inl rfl, List.forall_mem_nil _⟩

theorem AllSpared.append {s t u : W} {tr tr' : Trace W CE SE VE}
    (h : AllSpared files Opens entries s tr t) (h' : AllSpared files Opens entries t tr' u) :
    AllSpared files Opens entries s (tr ++ tr') u :=
  ⟨fun q => (h.1 q).trans (h'.1 q), List.forall_mem_append.2 ⟨h.2, h'.2⟩⟩

theorem AllSpared.append_oneHarmed {s t u : W} {tr tr' : Trace W CE SE VE}
    (h : AllSpared files Opens entries s tr t) (h' : OneHarmed files Opens entries t tr' u) :
    OneHarmed files Opens entries s (tr ++ tr') u := by
  obtain ⟨q, hruined, ⟨call, hcall, hharm⟩, honly, hothers⟩ := h'
  refine ⟨q, hruined, ⟨call, List.mem_append_right _ hcall, hharm⟩, ?_, fun q' hq' => ?_⟩
  · refine List.forall_mem_append.2 ⟨fun c hc q' hq' => ?_, honly⟩
    exact absurd hq' (h.2 c hc q')
  · exact (h.1 q').trans (hothers q' hq')

theorem sparing_pure (a : α) :
    Sparing files Opens entries (pure a : Prog (Event CE SE VE) W ε α) :=
  fun s => allSpared_nil s

theorem sparing_throw (e : ε) :
    Sparing files Opens entries (throw e : Prog (Event CE SE VE) W ε α) :=
  fun s => Or.inl (allSpared_nil s)

theorem Sparing.mapErr {g : ε → δ} {p : Prog (Event CE SE VE) W ε α}
    (h : Sparing files Opens entries p) : Sparing files Opens entries (p.mapErr g) := by
  refine fun s => wp_mapErr.2 (wp_mono (h s) fun r tr t hr => ?_)
  cases r <;> exact hr

/-- A sequence spares, if its parts do; of the first only the results that it can return matter. -/
theorem Sparing.bind {p : Prog (Event CE SE VE) W ε α} {f : α → Prog (Event CE SE VE) W ε β}
    (h : Sparing files Opens entries p) {P : α → Prop} (hp : p.Returns P)
    (hf : ∀ a, P a → Sparing files Opens entries (f a)) :
    Sparing files Opens entries (p >>= f) := by
  intro s
  have hret : p.wp (fun r _ _ => ∀ a, r = .ok a → P a) s := fun a ha =>
    hp.run (Prod.ext ha rfl)
  refine wp_bind.2 (wp_mono (wp_and (h s) hret) ?_)
  rintro r tr t ⟨hr, hresult⟩
  cases r with
  | error e => exact hr
  | ok a =>
    refine wp_mono (hf a (hresult a rfl) t) fun r tr' u hr' => ?_
    cases r with
    | ok b => exact hr.append hr'
    | error e => exact hr'.imp hr.append hr.append_oneHarmed

theorem Sparing.bind' {p : Prog (Event CE SE VE) W ε α} {f : α → Prog (Event CE SE VE) W ε β}
    (h : Sparing files Opens entries p) (hf : ∀ a, Sparing files Opens entries (f a)) :
    Sparing files Opens entries (p >>= f) :=
  h.bind (returns_true p) fun a _ => hf a

/-- A program that keeps the files, and calls neither `write` nor `remove`. -/
theorem sparing_of_keeps {p : Prog (Event CE SE VE) W ε α}
    (hfiles : ∀ s, files (p.run s).2 = files s)
    (htrace : ∀ s, ∀ call ∈ p.trace s, call.ev.target = none) : Sparing files Opens entries p := by
  intro s
  have hall : AllSpared files Opens entries s (p.trace s) (p.run s).2 := by
    refine ⟨fun q => Or.inl (congrFun (hfiles s) q), fun call hcall q hharm => ?_⟩
    have htarget := htrace s call hcall
    rcases hharm with ⟨d, e, hev⟩ | ⟨e, hev, -⟩
    all_goals
      rw [hev] at htarget
      cases htarget
  unfold wp
  cases (p.run s).1 with
  | ok a => exact hall
  | error e => exact Or.inl hall

theorem sparing_asking {p : Prog (Event CE SE VE) W ε α}
    (h : p.Steps (Asking fun s t => files t = files s)) : Sparing files Opens entries p :=
  sparing_of_keeps
    (Asking.keeps (R := fun s t => files t = files s) (fun _ => rfl)
      (fun _ _ _ hst htu => htu.trans hst) h)
    fun s call hcall => Event.target_of_changes (h.trace s call hcall).1

theorem sparing_orThrow {f : ε → δ} {x : Except ε α} :
    Sparing files Opens entries (orThrow f x : Prog (Event CE SE VE) W δ α) := by
  cases x with
  | ok a => exact sparing_pure a
  | error e => exact sparing_throw (f e)

end Rules

/-! ## The programs -/

theorem Asked.not_harms {tr : Trace W CE SE VE} (h : Asked files tr) :
    ∀ call ∈ tr, ∀ q, ¬ Harms files call q := by
  intro call hcall q hharm
  have hchanges := (h call hcall).1
  rcases hharm with ⟨d, e, hev⟩ | ⟨e, hev, -⟩
  all_goals
    rw [hev] at hchanges
    cases hchanges

section Programs

variable (h : OnMap store files) (hs : Shreds store files Opens)
include h hs

/-- **`insert_no_commit` spares** every path, unless the new blob cannot be written, or the old one
is removed half-way. -/
theorem sparing_insertNoCommit {b : BundleEntry} (hb : b ∈ entries) :
    Sparing files Opens entries (store.insertNoCommit b.path b.plaintext) := by
  intro s
  refine wp_mono (insertNoCommit_ends h b.path b.plaintext s) fun r tr t hend => ?_
  cases hend with
  | refused hasked ht => exact Or.inl ⟨fun q => Or.inl (congrFun ht q), hasked.not_harms⟩
  | @removeFailed e e' asked u t hasked hu hremove =>
    have hframe := h.remove_frame (entryToBlob b.path) u
    have hfails := hs.remove_fails (entryToBlob b.path) u e' (congrArg Prod.fst hremove)
    rw [hremove] at hframe hfails
    rw [hu] at hframe
    -- the call is at the blob, and harms it if it has changed it
    have hcall : ∀ q, Harms files
        (⟨.remove (entryToBlob b.path) (.error e'), u, t⟩ : Step (Event CE SE VE) W) q →
          q = entryToBlob b.path ∧ files t (entryToBlob b.path) ≠ files u (entryToBlob b.path) := by
      rintro q (⟨d, e, hev⟩ | ⟨e, hev, hne⟩)
      · cases hev
      · cases hev
        exact ⟨rfl, hne⟩
    by_cases hsame : files t (entryToBlob b.path) = files u (entryToBlob b.path)
    · refine Or.inl ⟨fun q => Or.inl ?_, ?_⟩
      · by_cases hq : q = entryToBlob b.path
        · rw [hq, hsame, hu]
        · exact hframe q hq
      · refine List.forall_mem_append.2 ⟨hasked.not_harms, List.forall_mem_singleton.2 ?_⟩
        exact fun q hharm => (hcall q hharm).2 hsame
    · refine Or.inr ⟨entryToBlob b.path, (hfails.resolve_left hsame).2,
        ⟨_, List.mem_append_right _ (List.mem_singleton_self _), Or.inr ⟨e', rfl, hsame⟩⟩, ?_,
        fun q hq => Or.inl (hframe q hq)⟩
      refine List.forall_mem_append.2 ⟨fun c hc q hq => absurd hq (hasked.not_harms c hc q), ?_⟩
      exact List.forall_mem_singleton.2 fun q hharm => (hcall q hharm).1
  | @writeFailed e e' c asked u v t hasked hu hremove hwrite =>
    have hv := h.remove_ok (entryToBlob b.path) u (congrArg Prod.fst hremove)
    have hframe := h.write_frame (entryToBlob b.path) c v
    have hfails := hs.write_fails (entryToBlob b.path) c v e' (congrArg Prod.fst hwrite)
    rw [hremove] at hv
    rw [hwrite] at hframe hfails
    refine Or.inr ⟨entryToBlob b.path, ?_, ⟨⟨.write (entryToBlob b.path) c (.error e'), v, t⟩,
      by simp, Or.inl ⟨c, e', rfl⟩⟩, ?_, fun q hq => Or.inl ?_⟩
    · -- nothing is left there
      rw [hfails, hv, Function.update_self]
      exact fun _ hc => nomatch hc
    · refine List.forall_mem_append.2 ⟨fun c hc q hq => absurd hq (hasked.not_harms c hc q), ?_⟩
      refine List.forall_mem_cons.2 ⟨?_, List.forall_mem_singleton.2 ?_⟩
      · rintro q (⟨d, e, hev⟩ | ⟨e, hev, -⟩) <;> cases hev
      · rintro q (⟨d, e, hev⟩ | ⟨e, hev, -⟩)
        · cases hev
          rfl
        · cases hev
    · rw [hframe q hq, hv, Function.update_of_ne hq, hu]
  | @done c rs w asked u v t hasked hu hrs hc hremove hwrite =>
    have hv := h.remove_ok (entryToBlob b.path) u (congrArg Prod.fst hremove)
    have ht := h.write_ok (entryToBlob b.path) c v (congrArg Prod.fst hwrite)
    rw [hremove] at hv
    rw [hwrite, hv, Function.update_idem, hu] at ht
    refine ⟨fun q => ?_, ?_⟩
    · by_cases hq : q = entryToBlob b.path
      · refine Or.inr ⟨b, hb, hq, c, ?_, hs.encrypts _ _ _ _ hc⟩
        rw [ht, hq, Function.update_self]
      · refine Or.inl ?_
        rw [ht, Function.update_of_ne hq]
    · refine List.forall_mem_append.2 ⟨hasked.not_harms, ?_⟩
      refine List.forall_mem_cons.2 ⟨?_, List.forall_mem_singleton.2 ?_⟩
      · rintro q (⟨d, e, hev⟩ | ⟨e, hev, -⟩) <;> cases hev
      · rintro q (⟨d, e, hev⟩ | ⟨e, hev, -⟩) <;> cases hev

/-- So does the loop of a restore, -/
theorem sparing_visits {visited : List BundleEntry} (hvisited : ∀ b ∈ visited, b ∈ entries) :
    Sparing files Opens entries (visited.mapM (restoreEntry store) :
      BundleM (Event CE SE VE) W IE TE (StoreError CE SE VE) _) := by
  induction visited with
  | nil => exact sparing_pure _
  | cons b visited ih =>
    obtain ⟨hb, hrest⟩ := List.forall_mem_cons.1 hvisited
    rw [List.mapM_cons]
    refine (sparing_insertNoCommit h hs hb).mapErr.bind' fun blob => ?_
    exact (ih hrest).bind' fun blobs => sparing_pure _

/-- and a whole restore, however the stream and the bundle end. -/
theorem sparing_restore {tar : Tar B IE} {toml : Toml TE} {stream : DecryptStream W CE}
    {dirty : Prog (Event CE SE VE) W Empty Bool}
    (hdirty : dirty.Steps (Asking fun s t => files t = files s)) {bundle : Bytes}
    (hstream : ∀ w, files (stream bundle w).2 = files w)
    (hentries : ∀ w, ∀ b ∈ restoredEntries store tar toml (stream bundle w).1.1, b ∈ entries)
    (inPlace : Bool) :
    Sparing files Opens entries (restore store tar toml stream dirty bundle inPlace) := by
  have hcommitted : ∀ touched, Sparing files Opens entries (commitRestored store inPlace touched :
      Prog (Event CE SE VE) W (RestoreError CE SE VE IE TE) Unit) := by
    intro touched
    unfold commitRestored
    split_ifs
    · exact sparing_pure ()
    · refine (sparing_asking (asking_resolve h.calm dummyEntry)).mapErr.bind' fun rs => ?_
      refine Sparing.mapErr (Sparing.mapErr (sparing_of_keeps (fun s => ?_) fun s => ?_))
      · exact h.commit_files _ _ s
      · exact List.forall_mem_singleton.2 rfl
  have hcall : Sparing files Opens entries (stream.call bundle :
      Prog (Event CE SE VE) W (RestoreError CE SE VE IE TE) _) :=
    sparing_of_keeps hstream fun s => List.forall_mem_singleton.2 rfl
  have hout : (stream.call bundle : Prog (Event CE SE VE) W (RestoreError CE SE VE IE TE) _).Returns
      fun out => ∃ w, out = (stream bundle w).1 := fun w => ⟨w, rfl⟩
  unfold restore
  refine (sparing_asking (asking_exists h.calm gpgIdPath).attempt).bind' fun present => ?_
  rcases present with e | present
  · exact sparing_throw _
  cases present with
  | false => exact sparing_throw _
  | true =>
    refine (sparing_asking (asking_restoreGuard h.calm hdirty inPlace)).bind' fun _ => ?_
    refine hcall.bind hout ?_
    rintro _ ⟨w, rfl⟩
    refine Sparing.bind' (Sparing.mapErr ?_) fun read => sparing_orThrow.bind' fun _ =>
      (hcommitted read.2).bind' fun _ => sparing_pure _
    rw [readBundle_eq]
    refine (sparing_visits h hs (hentries w)).bind' fun visited => ?_
    exact sparing_orThrow.bind' fun manifest => sparing_pure _

end Programs

/-! ## Every failure -/

/-- The entry exists, and opens. -/
def ReadableAt (Opens : Bytes → Bytes → Prop) (f : Files) (e : RelPath) : Prop :=
  ∃ c p, f (entryToBlob e) = some c ∧ Opens c p

/-- Every entry that could be read still opens, to the same plaintext or to one that the bundle has
for it. -/
def StillReads (Opens : Bytes → Bytes → Prop) (entries : List BundleEntry) (f g : Files) : Prop :=
  ∀ e c p, f (entryToBlob e) = some c → Opens c p → ∃ c', g (entryToBlob e) = some c' ∧
    (Opens c' p ∨ ∃ b ∈ entries, b.path = e ∧ Opens c' b.plaintext)

/-- No call of the trace has harmed an entry that could be read. -/
def Unharmed (files : W → Files) (Opens : Bytes → Bytes → Prop) (s : W) (tr : Trace W CE SE VE) :
    Prop :=
  ∀ call ∈ tr, ∀ e, ReadableAt Opens (files s) e → ¬ Harms files call (entryToBlob e)

/-- What has been spared still reads. -/
theorem stillReads_of_spared {f g : Files}
    (h : ∀ e, ReadableAt Opens f e → Spared Opens entries f g (entryToBlob e)) :
    StillReads Opens entries f g := by
  intro e c p hc hp
  rcases h e ⟨c, p, hc, hp⟩ with hsame | ⟨b, hb, hblob, c', hc', hopens⟩
  · exact ⟨c, hsame.trans hc, Or.inl hp⟩
  · exact ⟨c', hc', Or.inr ⟨b, hb, (entryToBlob_injective hblob).symm, hopens⟩⟩

/-- **A program that spares, and fails.** -/
theorem Sparing.stillReads_iff {ε α : Type} {p : Prog (Event CE SE VE) W ε α}
    (h : Sparing files Opens entries p) {s t : W} {e : ε} (hrun : p.run s = (.error e, t)) :
    StillReads Opens entries (files s) (files t) ↔ Unharmed files Opens s (p.trace s) := by
  have hend := h s
  rw [wp, hrun] at hend
  rcases hend with ⟨hspared, hnone⟩ | ⟨q, hruined, ⟨call, hcall, hharm⟩, honly, hothers⟩
  · refine iff_of_true (stillReads_of_spared fun e _ => hspared _) ?_
    exact fun call hcall e _ => hnone call hcall _
  · constructor
    · -- an entry at the path that was harmed would not open
      rintro hreads call' hcall' e ⟨c, p, hc, hp⟩ hharm'
      obtain rfl := honly call' hcall' _ hharm'
      obtain ⟨c', hc', hopens | ⟨b, -, -, hopens⟩⟩ := hreads e c p hc hp
      · exact hruined c' hc' _ hopens
      · exact hruined c' hc' _ hopens
    · intro hunharmed
      refine stillReads_of_spared fun e he => hothers _ fun hq => ?_
      exact hunharmed call hcall e he (hq ▸ hharm)

/-- **When a restore that fails has destroyed nothing**: if no write failed at the blob of an
entry that could be read, and no removal there got half-way. So it is for `insert_no_commit` on
its own. -/
theorem restore_spares_iff (h : OnMap store files) (hs : Shreds store files Opens) {tar : Tar B IE}
    {toml : Toml TE} {stream : DecryptStream W CE} {dirty : Prog (Event CE SE VE) W Empty Bool}
    (hdirty : dirty.Steps (Asking fun s t => files t = files s)) {bundle : Bytes}
    (hstream : ∀ w, files (stream bundle w).2 = files w)
    (hentries : ∀ w, ∀ b ∈ restoredEntries store tar toml (stream bundle w).1.1, b ∈ entries)
    (s : W) :
    (∀ inPlace e t, (restore store tar toml stream dirty bundle inPlace).run s = (.error e, t) →
      (StillReads Opens entries (files s) (files t) ↔ Unharmed files Opens s
        ((restore store tar toml stream dirty bundle inPlace).trace s))) ∧
      ∀ entry plaintext e t, (store.insertNoCommit entry plaintext).run s = (.error e, t) →
        (StillReads Opens [⟨entry, plaintext⟩] (files s) (files t) ↔
          Unharmed files Opens s ((store.insertNoCommit entry plaintext).trace s)) := by
  constructor
  · intro inPlace e t hrun
    exact (sparing_restore h hs hdirty hstream hentries inPlace).stillReads_iff hrun
  · intro entry plaintext e t hrun
    exact (sparing_insertNoCommit h hs (b := ⟨entry, plaintext⟩)
      (List.mem_singleton_self _)).stillReads_iff hrun

/-! ## A disk that is full -/

/-- The error of a write to a full disk. -/
inductive NoSpace where
  | noSpace
  deriving DecidableEq

/-- A storage in memory, on a disk that is full: every write fails, and nothing else does. -/
def fullStorage : Storage MemFiles NoSpace where
  readFn path w := (.ok w[path]?, w)
  writeFn _ _ w := (.error .noSpace, w)
  removeFn path w := (.ok (), w.erase path)
  existsFn path w := (.ok (w.contains path), w)
  listFn dir w := (.ok (w.keys.filter fun q => dir.all fun p => decide (p.Below q)), w)

def fullStore : Store MemFiles TaggedError NoSpace Empty where
  crypto := taggedCrypto
  storage := fullStorage
  vcs := noVcs

theorem fullStore_onMap : OnMap fullStore memFiles where
  encrypt_files _ _ _ := rfl
  decrypt_files c w := memStore_onMap.decrypt_files c w
  read_files _ _ := rfl
  read_ok _ _ _ hv := (Except.ok.inj hv).symm
  write_frame _ _ _ _ _ := rfl
  write_ok _ _ _ hok := nomatch hok
  remove_frame p w := memStore_onMap.remove_frame p w
  remove_ok p w _ := memFiles_erase w p
  exists_files _ _ := rfl
  exists_ok p w b hb := memStore_onMap.exists_ok p w b (congrArg Except.ok (Except.ok.inj hb))
  list_files _ _ := rfl
  list_nodup d w l hl := memStore_onMap.list_nodup d w l (congrArg Except.ok (Except.ok.inj hl))
  mem_list d w l hl := memStore_onMap.mem_list d w l (congrArg Except.ok (Except.ok.inj hl))
  commit_files _ _ _ := rfl

/-- What `TaggedCrypto` decrypts a ciphertext to. -/
def TaggedOpens (c p : Bytes) : Prop := (afterHeader c).map (·.map (· ^^^ 0xAA)) = some p

instance (c p : Bytes) : Decidable (TaggedOpens c p) := inferInstanceAs (Decidable (_ = _))

theorem taggedOpens_encrypt {W : Type} {p c : Bytes} {rs : List KeyId} {w : W}
    (h : (taggedCrypto.encryptFn p rs w).1 = .ok c) : TaggedOpens c p := by
  obtain rfl := Except.ok.inj h
  have hdec := congrArg Prod.fst (taggedCrypto_opens rs p w)
  have hopen : afterHeader (tagHeader rs ++ p.map (· ^^^ 0xAA)) = some (p.map (· ^^^ 0xAA)) :=
    afterHeader_append _ _
  simp only [taggedCrypto, hopen] at hdec
  rw [TaggedOpens, hopen, Option.map_some, Except.ok.inj hdec]

theorem fullStore_shreds : Shreds fullStore memFiles TaggedOpens where
  encrypts _ _ _ _ := taggedOpens_encrypt
  write_fails _ _ _ _ _ := rfl
  remove_fails _ _ _ hfail := nomatch hfail

/-- The rotation of the saved store, when the disk is full. -/
def fullRestore : Prog (Event TaggedError NoSpace Empty) MemFiles
    (RestoreError TaggedError NoSpace Empty Empty Empty) UInt32 :=
  restore fullStore plainTar plainToml memStream (pure false) savedBundle true

def savedStore : MemFiles := (memStore.runOps savedOps memFresh).2

/-- It removes the blob of an entry, which it cannot write again. -/
theorem restore_loses_entry :
    (fullRestore.run savedStore).1 = .error (.bundle (.source (.storage .noSpace))) ∧
      ¬ StillReads TaggedOpens
        (restoredEntries fullStore plainTar plainToml (memStream savedBundle savedStore).1.1)
        (memFiles savedStore) (memFiles (fullRestore.run savedStore).2) := by
  refine ⟨by decide +kernel, fun hreads => ?_⟩
  have hbefore : memFiles savedStore (entryToBlob ⟨"b".toList, by decide⟩) =
      some (tagHeader [⟨"ALICE".toList⟩]) := by decide +kernel
  obtain ⟨c', hc', -⟩ := hreads _ _ [] hbefore (by decide)
  have hafter : memFiles (fullRestore.run savedStore).2 (entryToBlob ⟨"b".toList, by decide⟩) =
      none := by decide +kernel
  rw [hafter] at hc'
  cases hc'

theorem restore_spares_full :
    (StillReads TaggedOpens (restoredEntries fullStore plainTar plainToml
        (memStream savedBundle savedStore).1.1) (memFiles savedStore)
          (memFiles (fullRestore.run savedStore).2) ↔
      Unharmed memFiles TaggedOpens savedStore (fullRestore.trace savedStore)) ∧
    (StillReads TaggedOpens [⟨⟨"b".toList, by decide⟩, [3]⟩] (memFiles savedStore)
        (memFiles ((fullStore.insertNoCommit ⟨"b".toList, by decide⟩ [3]).run savedStore).2) ↔
      Unharmed memFiles TaggedOpens savedStore
        ((fullStore.insertNoCommit ⟨"b".toList, by decide⟩ [3]).trace savedStore)) := by
  have hclean : (pure false : Prog (Event TaggedError NoSpace Empty) MemFiles Empty Bool).Steps
      (Asking fun s t => memFiles t = memFiles s) := steps_pure false
  have hstream : ∀ w, memFiles (memStream savedBundle w).2 = memFiles w := fun w => by
    unfold memStream
    cases afterHeader savedBundle <;> rfl
  have hout : ∀ w, (memStream savedBundle w).1.1 = (memStream savedBundle savedStore).1.1 := by
    intro w
    unfold memStream
    cases afterHeader savedBundle <;> rfl
  have hfails : (fullRestore.run savedStore).1 = .error (.bundle (.source (.storage .noSpace))) := by
    decide +kernel
  have hfails' : ((fullStore.insertNoCommit ⟨"b".toList, by decide⟩ [3]).run savedStore).1 =
      .error (.storage .noSpace) := by
    decide +kernel
  obtain ⟨hrestore, hinsert⟩ := restore_spares_iff fullStore_onMap fullStore_shreds hclean hstream
    (fun w b hb => hout w ▸ hb) savedStore
  exact ⟨hrestore true _ _ (Prod.ext hfails rfl), hinsert _ _ _ _ (Prod.ext hfails' rfl)⟩

end Bypass
