import Bypass.Core.Import

/-!
# When the paths of a batch are distinct

`prepare` numbers a path by how often its slug came before, and does not look whether the numbered
path is the slug of another entry. So the paths of a batch are distinct exactly when no numbered
path is a slug of the batch (`NoSuffixClash`), and exactly then the import stores one blob for each
entry (`import_distinct_iff`).

The numbering is read off a list without repetitions: each path with its occurrence number
(`occurrences`), of which `finalPaths` is an image.
-/

namespace Bypass

/-! ## Numbered paths -/

theorem suffixed_inj {b b' : RelPath} {n n' : ℕ} (h : suffixed b n = suffixed b' n') :
    b = b' ∧ n = n' := by
  have hdash : ∀ m, '-' ∉ Nat.toDigits 10 m := fun m hm => digit_ne hm '-' (by decide) rfl
  have hb : rsplitOnce '-' (suffixed b n).str = some (b.str, Nat.toDigits 10 n) :=
    rsplitOnce_eq_some.2 ⟨rfl, hdash n⟩
  have hb' : rsplitOnce '-' (suffixed b' n').str = some (b'.str, Nat.toDigits 10 n') :=
    rsplitOnce_eq_some.2 ⟨rfl, hdash n'⟩
  rw [h, hb'] at hb
  obtain ⟨hstr, hdigits⟩ := Prod.mk.inj (Option.some.inj hb)
  refine ⟨RelPath.ext hstr.symm, ?_⟩
  rw [← @Nat.ofDigitChars_ten_toDigits n, ← @Nat.ofDigitChars_ten_toDigits n', hdigits]

/-- The path of the `k`-th entry with the slug `b`. -/
def numbered : RelPath × ℕ → RelPath
  | (b, k) => if k % 2 ^ 32 = 1 then b else suffixed b (k % 2 ^ 32)

theorem numbered_of_eq_one {b : RelPath} {k : ℕ} (h : k % 2 ^ 32 = 1) : numbered (b, k) = b :=
  if_pos h

theorem numbered_of_ne_one {b : RelPath} {k : ℕ} (h : k % 2 ^ 32 ≠ 1) :
    numbered (b, k) = suffixed b (k % 2 ^ 32) :=
  if_neg h

/-- Each path with its occurrence number, after `seen` occurrences of each. -/
def occurrences : (RelPath → ℕ) → List RelPath → List (RelPath × ℕ)
  | _, [] => []
  | seen, b :: bs => (b, seen b + 1) :: occurrences (Function.update seen b (seen b + 1)) bs

theorem finalPaths_eq {counts : Std.ExtTreeMap RelPath ℕ compare} {seen : RelPath → ℕ}
    (h : ∀ b, counts.getD b 0 = seen b % 2 ^ 32) (desired : List RelPath) :
    finalPaths counts desired = (occurrences seen desired).map numbered := by
  induction desired generalizing counts seen with
  | nil => rfl
  | cons b bs ih =>
    have hn : (counts.getD b 0 + 1) % 2 ^ 32 = (seen b + 1) % 2 ^ 32 := by rw [h b]; omega
    rw [finalPaths, occurrences, List.map_cons, numbered, hn]
    refine congrArg _ (ih fun b' => ?_)
    rw [Std.ExtTreeMap.getD_insert, Function.update_apply]
    simp only [Std.LawfulEqOrd.compare_eq_iff_eq, @eq_comm _ b b']
    split_ifs with hb
    · rfl
    · exact h b'

theorem mem_occurrences {seen : RelPath → ℕ} {l : List RelPath} {b : RelPath} {k : ℕ} :
    (b, k) ∈ occurrences seen l ↔ seen b < k ∧ k ≤ seen b + l.count b := by
  induction l generalizing seen with
  | nil =>
    simp only [occurrences, List.not_mem_nil, List.count_nil, false_iff]
    omega
  | cons x xs ih =>
    rw [occurrences, List.mem_cons, ih, Prod.mk.injEq]
    by_cases hb : b = x
    · subst hb
      rw [Function.update_self, List.count_cons_self]
      simp only [true_and]
      omega
    · rw [Function.update_of_ne hb, List.count_cons_of_ne (Ne.symm hb)]
      simp only [hb, false_and, false_or]

theorem nodup_occurrences (seen : RelPath → ℕ) (l : List RelPath) :
    (occurrences seen l).Nodup := by
  induction l generalizing seen with
  | nil => exact List.nodup_nil
  | cons x xs ih =>
    refine List.nodup_cons.2 ⟨fun hmem => ?_, ih _⟩
    have := (mem_occurrences.1 hmem).1
    rw [Function.update_self] at this
    omega

/-! ## The condition -/

/-- No slug occurs more often than a `u32` counts, and no numbered slug is a slug of the batch. -/
def NoSuffixClash (slugs : List Str) : Prop :=
  ∀ b ∈ slugs, slugs.count b ≤ 2 ^ 32 ∧ ∀ k, 2 ≤ k → k ≤ slugs.count b →
    b ++ '-' :: Nat.toDigits 10 (k % 2 ^ 32) ∉ slugs

theorem count_map_str (desired : List RelPath) (b : RelPath) :
    (desired.map RelPath.str).count b.str = desired.count b :=
  List.count_map_of_injective _ _ RelPath.str_injective _

theorem noSuffixClash_map_str {desired : List RelPath} :
    NoSuffixClash (desired.map RelPath.str) ↔ ∀ b ∈ desired, desired.count b ≤ 2 ^ 32 ∧
      ∀ k, 2 ≤ k → k ≤ desired.count b → suffixed b (k % 2 ^ 32) ∉ desired := by
  unfold NoSuffixClash
  rw [List.forall_mem_map]
  refine forall₂_congr fun b hb => ?_
  rw [count_map_str]
  refine and_congr_right fun _ => forall₃_congr fun k _ _ => not_congr ?_
  exact (List.mem_map_of_injective RelPath.str_injective (a := suffixed b (k % 2 ^ 32)))

/-- **The final paths are distinct when no numbered slug is a slug, and only then.** -/
theorem finalPaths_nodup_iff (desired : List RelPath) :
    (finalPaths ∅ desired).Nodup ↔ NoSuffixClash (desired.map RelPath.str) := by
  rw [@finalPaths_eq ∅ (fun _ => 0) (fun b => by simp) desired, noSuffixClash_map_str,
    List.nodup_map_iff_inj_on (nodup_occurrences _ _)]
  have hmem : ∀ b k, (b, k) ∈ occurrences (fun _ => 0) desired ↔ 1 ≤ k ∧ k ≤ desired.count b :=
    fun b k => by rw [mem_occurrences]; omega
  have hin : ∀ {b : RelPath} {k : ℕ}, 1 ≤ k → k ≤ desired.count b → b ∈ desired :=
    fun h h' => List.count_pos_iff.1 (by omega)
  have hself : ∀ {b}, b ∈ desired → (b, 1) ∈ occurrences (fun _ => 0) desired := fun hb =>
    (hmem _ 1).2 ⟨le_rfl, List.count_pos_iff.2 hb⟩
  constructor
  · intro hinj b hb
    refine ⟨?_, fun k hk hk' hclash => ?_⟩
    · -- past the last number of a `u32` the plain path comes again
      by_contra hcount
      have := hinj (b, 1) (hself hb) (b, 2 ^ 32 + 1) ((hmem _ _).2 ⟨by omega, by omega⟩) rfl
      simp at this
    · -- the entry whose slug is the numbered path got it first
      by_cases h1 : k % 2 ^ 32 = 1
      · have := hinj (b, 1) (hself hb) (b, k) ((hmem _ _).2 ⟨by omega, hk'⟩)
          (numbered_of_eq_one h1).symm
        have hk1 := (Prod.mk.inj this).2
        omega
      · have := hinj (suffixed b (k % 2 ^ 32), 1) (hself hclash) (b, k)
          ((hmem _ _).2 ⟨by omega, hk'⟩) (numbered_of_ne_one h1).symm
        have hk1 := (Prod.mk.inj this).2
        omega
  · rintro hno ⟨b, k⟩ hbk ⟨b', k'⟩ hbk' heq
    obtain ⟨hk, hc⟩ := (hmem b k).1 hbk
    obtain ⟨hk', hc'⟩ := (hmem b' k').1 hbk'
    obtain ⟨hmax, hclash⟩ := hno b (hin hk hc)
    obtain ⟨hmax', hclash'⟩ := hno b' (hin hk' hc')
    have hmod : ∀ j, 1 ≤ j → j ≤ 2 ^ 32 → j % 2 ^ 32 = 1 → j = 1 := fun j _ _ _ => by omega
    simp only [numbered] at heq
    split_ifs at heq with h1 h2 h2
    · rw [heq, hmod k hk (by omega) h1, hmod k' hk' (by omega) h2]
    · exact absurd (heq ▸ hin hk hc) (hclash' k' (by omega) hc')
    · exact absurd (heq ▸ hin hk' hc') (hclash k (by omega) hc)
    · obtain ⟨rfl, hkk⟩ := suffixed_inj heq
      congr 1
      omega

/-! ## The whole import -/

theorem desiredPaths_map_str {entries : List ImportedEntry} {idx : ℕ} {desired : List RelPath}
    (h : desiredPaths idx entries = some (.ok desired)) :
    desired.map RelPath.str = entries.map ImportedEntry.slug := by
  induction entries generalizing idx desired with
  | nil =>
    cases h
    rfl
  | cons e es ih =>
    rw [desiredPaths] at h
    split_ifs at h
    · cases Option.some.inj h
    · cases hp : RelPath.new e.slug with
      | error _ => simp [hp] at h
      | ok path =>
        rw [hp] at h
        cases hrest : desiredPaths (idx + 1) es with
        | none => simp [hrest] at h
        | some r =>
          cases r with
          | error _ => simp [hrest, Except.map] at h
          | ok rest =>
            obtain rfl : path :: rest = desired := by simpa [hrest, Except.map] using h
            rw [List.map_cons, List.map_cons, ih hrest, RelPath.new_eq_ok.1 hp]

theorem length_finalPaths (counts : Std.ExtTreeMap RelPath ℕ compare) (desired : List RelPath) :
    (finalPaths counts desired).length = desired.length := by
  induction desired generalizing counts with
  | nil => rfl
  | cons b bs ih => rw [finalPaths, List.length_cons, List.length_cons, ih]

section Bodies

variable {debug : Str → Str} {entries : List ImportedEntry}

/-- The third pass keeps the paths. -/
theorem prepared_path {final : List RelPath} (hlen : final.length = entries.length) :
    (List.zipWith (fun p (b : Bytes × List LossinessNote) => PreparedEntry.mk p b.1) final
      (List.zipWith (fun e p => serialiseBody debug e p.str) entries final)).map
        PreparedEntry.path = final := by
  induction entries generalizing final with
  | nil =>
    obtain rfl := List.length_eq_zero_iff.1 hlen
    rfl
  | cons e es ih =>
    obtain ⟨p, ps, rfl⟩ := List.exists_cons_of_length_eq_add_one hlen
    have hrest := ih (Nat.succ.inj hlen)
    rw [List.zipWith_cons_cons, List.zipWith_cons_cons, List.map_cons, hrest]

/-- The third pass makes the body of each entry at its path, and notes what it alters. -/
theorem prepared_body {final : List RelPath} (hlen : final.length = entries.length) :
    List.Forall₂ (fun e q => q.body = (serialiseBody debug e q.path.str).1 ∧
        ∀ note ∈ (serialiseBody debug e q.path.str).2, note ∈ (List.zipWith
          (fun e p => serialiseBody debug e p.str) entries final).flatMap (·.2)) entries
      (List.zipWith (fun p (b : Bytes × List LossinessNote) => PreparedEntry.mk p b.1) final
        (List.zipWith (fun e p => serialiseBody debug e p.str) entries final)) := by
  induction entries generalizing final with
  | nil =>
    obtain rfl := List.length_eq_zero_iff.1 hlen
    exact List.Forall₂.nil
  | cons e es ih =>
    obtain ⟨p, ps, rfl⟩ := List.exists_cons_of_length_eq_add_one hlen
    have hrest := ih (Nat.succ.inj hlen)
    simp only [List.zipWith_cons_cons, List.flatMap_cons]
    refine List.Forall₂.cons ⟨rfl, fun note hnote => List.mem_append_left _ hnote⟩ ?_
    exact hrest.imp fun e' q ⟨hbody, hnotes⟩ =>
      ⟨hbody, fun note hnote => List.mem_append_right _ (hnotes note hnote)⟩

theorem length_finalPaths_of_desired {desired : List RelPath}
    (h : desiredPaths 0 entries = some (.ok desired)) :
    (finalPaths ∅ desired).length = entries.length := by
  rw [length_finalPaths]
  simpa using congrArg List.length (desiredPaths_map_str h)

/-- **What `prepare` returned**: the final paths of the batch, none of them in the store, with the
body of each entry; and the report has the notes on them. -/
theorem prepare_eq_ok {existing : List RelPath} {prepared : List PreparedEntry}
    {report : List LossinessNote}
    (h : prepare debug entries existing = some (.ok (prepared, report))) :
    ∃ desired, desiredPaths 0 entries = some (.ok desired) ∧
      prepared.map PreparedEntry.path = finalPaths ∅ desired ∧
      (∀ p ∈ finalPaths ∅ desired, p ∉ existing) ∧
      List.Forall₂ (fun e q => q.body = (serialiseBody debug e q.path.str).1 ∧
        ∀ note ∈ (serialiseBody debug e q.path.str).2, note ∈ report) entries prepared := by
  unfold prepare at h
  cases hd : desiredPaths 0 entries with
  | none => simp [hd] at h
  | some r =>
    cases r with
    | error e => simp [hd] at h
    | ok desired =>
      simp only [hd] at h
      split_ifs at h with hcol
      · cases Option.some.inj h
      have hlen := length_finalPaths_of_desired hd
      obtain ⟨rfl, rfl⟩ := Prod.mk.inj (Except.ok.inj (Option.some.inj h))
      refine ⟨desired, rfl, prepared_path hlen, fun p hp hin => ?_, ?_⟩
      · have hcol' : ((finalPaths ∅ desired).filter (· ∈ existing)).map RelPath.str = [] := by
          simpa using hcol
        rw [List.map_eq_nil_iff, List.filter_eq_nil_iff] at hcol'
        exact hcol' p hp (by simpa using hin)
      · exact (prepared_body hlen).imp fun e q ⟨hbody, hnotes⟩ =>
          ⟨hbody, fun note hnote => List.mem_append_right _ (hnotes note hnote)⟩

end Bodies

section Loop

variable {W CE SE VE : Type} {store : Store W CE SE VE} {files : W → Files}

/-- An entry that was written without a commit is there, and the others are as they were. -/
theorem insertNoCommit_isSome (h : OnMap store files) (entry : RelPath) (plaintext : Bytes)
    (s : W) : (store.insertNoCommit entry plaintext).wp (fun r _ t => ∀ blob, r = .ok blob →
      ∀ e, (files t (entryToBlob e)).isSome = true ↔
        (files s (entryToBlob e)).isSome = true ∨ e = entry) s := by
  intro blob hok e
  obtain ⟨-, c, _, _, hup, -⟩ := insertNoCommit_ok h (Prod.ext hok rfl)
  rw [hup, Function.update_apply]
  by_cases he : e = entry <;> simp [he]

/-- **The loop writes the entries it is given**, and no others. -/
theorem insertAll_isSome (h : OnMap store files) (prepared : List PreparedEntry) (s : W) :
    (store.insertAll prepared).wp (fun r _ t => ∀ blobs, r = .ok blobs →
      ∀ e, (files t (entryToBlob e)).isSome = true ↔
        (files s (entryToBlob e)).isSome = true ∨ e ∈ prepared.map PreparedEntry.path) s := by
  induction prepared generalizing s with
  | nil => exact fun _ _ e => by simp [Store.insertAll]
  | cons entry rest ih =>
    unfold Store.insertAll
    refine Prog.wp_bind.2 (Prog.wp_mono (insertNoCommit_isSome h entry.path entry.body s) ?_)
    intro r tr u hr
    cases r with
    | error e => exact fun blobs hb => by cases hb
    | ok blob =>
      refine Prog.wp_bind.2 (Prog.wp_mono (ih u) ?_)
      intro r' tr' t hr'
      cases r' with
      | error e => exact fun blobs hb => by cases hb
      | ok blobs =>
        intro _ _ e
        have hu := hr blob rfl e
        have ht := hr' blobs rfl e
        show (files t (entryToBlob e)).isSome = true ↔ _
        rw [ht, hu, List.map_cons, List.mem_cons, or_assoc]

/-- The number of entries grows by the number of distinct new ones. -/
theorem length_listed {f g : Files} {l l' paths : List RelPath} (hl : Listed f none l)
    (hl' : Listed g none l') (hnew : ∀ p ∈ paths, p ∉ l)
    (hg : ∀ e, (g (entryToBlob e)).isSome = true ↔ (f (entryToBlob e)).isSome = true ∨ e ∈ paths) :
    l'.length = l.length + paths.dedup.length := by
  obtain ⟨-, hnd, hmem⟩ := hl
  obtain ⟨-, hnd', hmem'⟩ := hl'
  have hnd₂ : (l ++ paths.dedup).Nodup :=
    List.nodup_append.2 ⟨hnd, paths.nodup_dedup, fun a ha b hb hab =>
      hnew b (List.mem_dedup.1 hb) (hab ▸ ha)⟩
  have hperm : List.Perm l' (l ++ paths.dedup) := by
    rw [List.perm_ext_iff_of_nodup hnd' hnd₂]
    intro e
    have h₁ := hmem e
    have h₂ := hmem' e
    have h₃ := hg e
    simp only [Option.mem_def, reduceCtorEq, false_implies, implies_true, and_true] at h₁ h₂
    rw [h₂, h₃, List.mem_append, h₁, List.mem_dedup]
  rw [hperm.length_eq, List.length_append]

end Loop

theorem length_dedup_eq_iff {l : List RelPath} : l.dedup.length = l.length ↔ l.Nodup := by
  constructor
  · intro h
    rw [← (List.dedup_sublist l).eq_of_length h]
    exact l.nodup_dedup
  · intro h
    rw [h.dedup]

/-- **When imported entries stay apart.** A batch that `prepare` accepts has pairwise distinct
paths exactly when none of its slugs is the numbered path of another; and exactly then the loop of
the import, on any store whose entries were those given to `prepare`, adds one entry for each. -/
theorem import_distinct_iff {debug : Str → Str} {entries : List ImportedEntry}
    {existing : List RelPath} {prepared : List PreparedEntry} {report : List LossinessNote}
    (hprep : prepare debug entries existing = some (.ok (prepared, report))) :
    ((prepared.map PreparedEntry.path).Nodup ↔
        NoSuffixClash (entries.map ImportedEntry.slug)) ∧
      ∀ {W CE SE VE : Type} (store : Store W CE SE VE) (files : W → Files), OnMap store files →
        ∀ s t blobs after, Listed (files s) none existing →
          (store.insertAll prepared).run s = (.ok blobs, t) → Listed (files t) none after →
          (after.length = existing.length + prepared.length ↔
            NoSuffixClash (entries.map ImportedEntry.slug)) := by
  obtain ⟨desired, hdesired, hpaths, hnew, -⟩ := prepare_eq_ok hprep
  have hslugs := desiredPaths_map_str hdesired
  have hiff : (prepared.map PreparedEntry.path).Nodup ↔
      NoSuffixClash (entries.map ImportedEntry.slug) := by
    rw [hpaths, ← hslugs]
    exact finalPaths_nodup_iff desired
  refine ⟨hiff, fun store files h s t blobs after hl hrun hl' => ?_⟩
  have hloop := insertAll_isSome h prepared s
  unfold Prog.wp at hloop
  rw [hrun] at hloop
  rw [length_listed hl hl' (hpaths ▸ hnew) (hloop blobs rfl), ← hiff, ← length_dedup_eq_iff,
    List.length_map]
  omega

/-- Entries with a name and nothing else. -/
def namedEntries (names : List String) : List ImportedEntry :=
  names.map fun name =>
    { folder := [], name := name.toList, password := [], username := none, fields := [],
      totp := none, notes := none, uris := [] }

/-- What `namedEntries` become, at the given paths. -/
def preparedAt (paths : List RelPath) : List PreparedEntry := paths.map fun p => ⟨p, [10]⟩

theorem import_distinct_iff_work :
    ((preparedAt [⟨"work".toList, by decide⟩, ⟨"work-2".toList, by decide⟩,
        ⟨"work-3".toList, by decide⟩]).map PreparedEntry.path).Nodup ↔
      NoSuffixClash ((namedEntries ["Work", "work", "work"]).map ImportedEntry.slug) :=
  (@import_distinct_iff id _ [] _
    (suffixNotes ⟨"work".toList, by decide⟩ ⟨"work-2".toList, by decide⟩ ++
      suffixNotes ⟨"work".toList, by decide⟩ ⟨"work-3".toList, by decide⟩)
    (by decide +kernel)).1

/-- **Imported entries can collapse**: `foo`, `foo` and `foo-2` become two paths. -/
theorem import_can_collapse :
    ¬ ∀ debug entries existing prepared report,
      prepare debug entries existing = some (.ok (prepared, report)) →
        (prepared.map PreparedEntry.path).Nodup := by
  intro h
  have hnd := h id (namedEntries ["foo", "foo", "foo-2"]) []
    (preparedAt [⟨"foo".toList, by decide⟩, ⟨"foo-2".toList, by decide⟩,
      ⟨"foo-2".toList, by decide⟩])
    (suffixNotes ⟨"foo".toList, by decide⟩ ⟨"foo-2".toList, by decide⟩) (by decide +kernel)
  revert hnd
  decide +kernel

end Bypass
