import Bypass.Core.ImportPaths

/-!
# What an import reports about collisions

`prepare` numbers the equal slugs of a batch, refuses a batch whose final paths meet the store, and
notes each entry that it numbered. The counters are of type `u32`: after `2 ^ 32` equal slugs they
start again.

* `dedupAdjacent_spec`: the list of a refusal is sorted and has no duplicates.
* `finalPaths_str`: the final paths, as the slugs of the batch and how often each came before.
* `reports_collisions_iff`: **when the report is exact**: with every store, if no counter wraps.
-/

namespace Bypass

/-! ## The list of a refusal -/

theorem StrLE.antisymm {a b : Str} (h : StrLE a b) (h' : StrLE b a) : a = b :=
  Std.LawfulEqCmp.eq_of_compare (Std.OrientedCmp.isLE_antisymm h h')

theorem dedupAdjacent_sublist (l : List Str) : (dedupAdjacent l).Sublist l := by
  fun_induction dedupAdjacent l with
  | case1 => exact List.Sublist.slnil
  | case2 x => exact List.Sublist.refl _
  | case3 y rest ih => exact ih.cons y
  | case4 x y rest hne ih => exact ih.cons_cons x

theorem mem_dedupAdjacent {a : Str} {l : List Str} : a ∈ dedupAdjacent l ↔ a ∈ l := by
  fun_induction dedupAdjacent l with
  | case1 => rfl
  | case2 x => rfl
  | case3 y rest ih => simp [ih]
  | case4 x y rest hne ih => simp [ih]

/-- Of a sorted list, no element is left twice. -/
theorem nodup_dedupAdjacent {l : List Str} (h : l.Pairwise StrLE) : (dedupAdjacent l).Nodup := by
  fun_induction dedupAdjacent l with
  | case1 => exact List.nodup_nil
  | case2 x => exact List.nodup_singleton x
  | case3 y rest ih => exact ih h.tail
  | case4 x y rest hne ih =>
    obtain ⟨hx, hrest⟩ := List.pairwise_cons.1 h
    refine List.nodup_cons.2 ⟨fun hmem => ?_, ih hrest⟩
    rcases List.mem_cons.1 (mem_dedupAdjacent.1 hmem) with heq | hin
    · exact hne heq
    · exact hne ((hx y List.mem_cons_self).antisymm ((List.pairwise_cons.1 hrest).1 x hin))

/-- **A refusal lists the paths that it was given**, sorted, and each once. -/
theorem dedupAdjacent_spec (l : List Str) :
    (dedupAdjacent (l.insertionSort StrLE)).Pairwise StrLE ∧
      (dedupAdjacent (l.insertionSort StrLE)).Nodup ∧
        ∀ a, a ∈ dedupAdjacent (l.insertionSort StrLE) ↔ a ∈ l := by
  have hsorted : (l.insertionSort StrLE).Pairwise StrLE := List.pairwise_insertionSort _ _
  refine ⟨hsorted.sublist (dedupAdjacent_sublist _), nodup_dedupAdjacent hsorted, fun a => ?_⟩
  rw [mem_dedupAdjacent, List.mem_insertionSort]

/-! ## The final paths -/

/-- A slug, and from the second time on the number of times that it has come. -/
def numberedSlug (slug : Str) (k : ℕ) : Str :=
  if k = 1 then slug else slug ++ '-' :: Nat.toDigits 10 k

/-- Each slug with the number of equal ones up to and including it, as `count` tells it. -/
def numberedSlugs (count : ℕ → ℕ) (slugs : List Str) : List Str :=
  slugs.zipIdx.map fun slug =>
    numberedSlug slug.1 (count ((slugs.take (slug.2 + 1)).count slug.1))

theorem occurrences_eq (seen : RelPath → ℕ) (l : List RelPath) : occurrences seen l =
    l.zipIdx.map fun b => (b.1, seen b.1 + (l.take (b.2 + 1)).count b.1) := by
  induction l generalizing seen with
  | nil => rfl
  | cons x xs ih =>
    rw [occurrences, ih, List.zipIdx_cons, List.map_cons, List.zipIdx_succ, List.map_map]
    refine List.cons_eq_cons.2 ⟨by simp, List.map_congr_left fun b _ => ?_⟩
    simp only [Function.comp_apply, List.take_succ_cons, Prod.mk.injEq, true_and]
    by_cases hb : b.1 = x
    · rw [hb, Function.update_self, List.count_cons_self]
      omega
    · rw [Function.update_of_ne hb, List.count_cons_of_ne (Ne.symm hb)]

theorem str_numbered (b : RelPath) (k : ℕ) :
    (numbered (b, k)).str = numberedSlug b.str (k % 2 ^ 32) := by
  rw [numbered, numberedSlug]
  split_ifs <;> rfl

theorem map_occurrences (f : Str → ℕ → Str) (desired : List RelPath) :
    (occurrences (fun _ => 0) desired).map (fun b => f b.1.str b.2) =
      (desired.map RelPath.str).zipIdx.map fun slug =>
        f slug.1 (((desired.map RelPath.str).take (slug.2 + 1)).count slug.1) := by
  rw [occurrences_eq, List.map_map, List.zipIdx_map, List.map_map]
  refine List.map_congr_left fun b _ => ?_
  simp [← List.map_take, count_map_str]

/-- **The final paths** are the slugs, numbered modulo `2 ^ 32`. -/
theorem finalPaths_str (desired : List RelPath) : (finalPaths ∅ desired).map RelPath.str =
    numberedSlugs (· % 2 ^ 32) (desired.map RelPath.str) := by
  rw [@finalPaths_eq ∅ (fun _ => 0) (fun b => by simp) desired, List.map_map, numberedSlugs,
    ← map_occurrences fun slug k => numberedSlug slug (k % 2 ^ 32)]
  exact List.map_congr_left fun b _ => str_numbered b.1 b.2

/-- No slug comes as often as a counter can count. -/
def NoWrap (slugs : List Str) : Prop := ∀ slug, slugs.count slug < 2 ^ 32

theorem str_suffixed (b : RelPath) (n : ℕ) :
    (suffixed b n).str = b.str ++ '-' :: Nat.toDigits 10 n := rfl

/-- The numbers are right exactly when no counter wraps. -/
theorem numberedSlugs_mod_eq_iff (desired : List RelPath) :
    numberedSlugs (· % 2 ^ 32) (desired.map RelPath.str) =
      numberedSlugs id (desired.map RelPath.str) ↔ NoWrap (desired.map RelPath.str) := by
  rw [numberedSlugs, numberedSlugs, ← map_occurrences fun slug k => numberedSlug slug (k % 2 ^ 32),
    ← map_occurrences fun slug k => numberedSlug slug (id k), List.map_inj_left]
  constructor
  · intro h slug
    by_contra hcount
    -- the counter of the entry with the number `2 ^ 32` is back at zero
    have hmem : slug ∈ desired.map RelPath.str := List.count_pos_iff.1 (by omega)
    obtain ⟨b, -, rfl⟩ := List.mem_map.1 hmem
    rw [count_map_str] at hcount
    have hwrap := h (b, 2 ^ 32) (mem_occurrences.2 ⟨by simp, by omega⟩)
    have hzero : 2 ^ 32 % 2 ^ 32 ≠ 1 ∧ 2 ^ 32 ≠ 1 ∧ 2 ^ 32 % 2 ^ 32 ≠ 2 ^ 32 := by omega
    generalize 2 ^ 32 % 2 ^ 32 = m at hwrap hzero
    generalize 2 ^ 32 = n at hwrap hzero
    obtain ⟨hm, hn, hmn⟩ := hzero
    rw [numberedSlug, numberedSlug, if_neg hm, id, if_neg hn, ← str_suffixed, ← str_suffixed] at hwrap
    exact hmn (suffixed_inj (RelPath.ext hwrap)).2
  · rintro h ⟨b, k⟩ hbk
    have hk := (mem_occurrences.1 hbk).2
    have hb := h b.str
    rw [count_map_str] at hb
    rw [Nat.mod_eq_of_lt (by omega), id]

/-! ## The outcome of `prepare` -/

/-- The note of the second pass on an entry that it numbered. -/
def isCollisionNote (note : LossinessNote) : Bool :=
  decide ("in-batch path collision with ".toList <+: note.message)

/-- A note for each path that is not the slug it was made of. -/
def collisionNotes (slugs paths : List Str) : List LossinessNote :=
  (slugs.zip paths).filterMap fun pair => if pair.2 = pair.1 then none else
    some ⟨pair.2, "in-batch path collision with ".toList ++ pair.1 ++
      ": suffixed to disambiguate".toList⟩

/-- Some path of the batch is in the store. -/
def Meets (existing : List RelPath) (paths : List Str) : Prop := ∃ p ∈ existing, p.str ∈ paths

theorem collisionNotes_eq (desired final : List RelPath) :
    (List.zipWith suffixNotes desired final).flatten =
      collisionNotes (desired.map RelPath.str) (final.map RelPath.str) := by
  induction desired generalizing final with
  | nil => rfl
  | cons b bs ih =>
    cases final with
    | nil => rfl
    | cons p ps =>
      rw [List.zipWith_cons_cons, List.flatten_cons, ih, suffixNotes]
      unfold collisionNotes
      rw [List.map_cons, List.map_cons, List.zip_cons_cons, List.filterMap_cons]
      by_cases hp : p = b
      · rw [if_pos hp, if_pos (congrArg RelPath.str hp), List.nil_append]
      · rw [if_neg hp, if_neg fun he => hp (RelPath.ext he), List.singleton_append]

theorem collisionNotes_filter (slugs paths : List Str) :
    (collisionNotes slugs paths).filter isCollisionNote = collisionNotes slugs paths := by
  rw [List.filter_eq_self]
  intro note hnote
  obtain ⟨pair, -, hpair⟩ := List.mem_filterMap.1 hnote
  split_ifs at hpair
  obtain rfl := Option.some.inj hpair
  rw [isCollisionNote, decide_eq_true_eq]
  exact ⟨_, by rw [List.append_assoc]⟩

/-- The notes on a body are filed under its path, and speak of its password and its fields. -/
theorem note_of_mem_serialiseBody {debug : Str → Str} {e : ImportedEntry} {path : Str}
    {note : LossinessNote} (h : note ∈ (serialiseBody debug e path).2) :
    note.entry = path ∧ (note.message.head? = some 'p' ∨ note.message.head? = some 'f') := by
  have hkv : ∀ k v, note ∈ (pushKv debug k v path).2 →
      note.entry = path ∧ (note.message.head? = some 'p' ∨ note.message.head? = some 'f') := by
    intro k v hnote
    rw [pushKv] at hnote
    split_ifs at hnote
    · obtain rfl := List.mem_singleton.1 hnote
      exact ⟨rfl, Or.inr rfl⟩
    · cases hnote
  simp only [serialiseBody, List.mem_flatMap, List.mem_append, List.mem_cons, List.mem_map] at h
  obtain ⟨part, hpart, hnote⟩ := h
  rcases hpart with (((rfl | ⟨u, -, rfl⟩) | ⟨⟨k, v⟩, -, rfl⟩) | ⟨t, -, rfl⟩) | ⟨⟨uri, i⟩, -, rfl⟩
  · rw [passwordLine, List.mem_append] at hnote
    rcases hnote with hnote | hnote
    all_goals
      split_ifs at hnote
      · obtain rfl := List.mem_singleton.1 hnote
        exact ⟨rfl, Or.inl rfl⟩
      · cases hnote
  · exact hkv _ _ hnote
  · rw [fieldLine] at hnote
    split_ifs at hnote
    · obtain rfl := List.mem_singleton.1 hnote
      exact ⟨rfl, Or.inr rfl⟩
    · exact hkv _ _ hnote
  · exact hkv _ _ hnote
  · exact hkv _ _ hnote

theorem isCollisionNote_body {debug : Str → Str} {e : ImportedEntry} {path : Str}
    {note : LossinessNote} (h : note ∈ (serialiseBody debug e path).2) :
    isCollisionNote note = false := by
  rw [isCollisionNote, decide_eq_false_iff_not]
  rintro ⟨rest, hrest⟩
  have hhead := (note_of_mem_serialiseBody h).2
  rw [← hrest] at hhead
  simp at hhead

/-- The first pass succeeds when the slugs are paths. -/
theorem desiredPaths_of_valid {entries : List ImportedEntry}
    (h : ∀ e ∈ entries, validate e.slug = .ok ()) (idx : ℕ) :
    ∃ desired, desiredPaths idx entries = some (.ok desired) := by
  induction entries generalizing idx with
  | nil => exact ⟨[], rfl⟩
  | cons e es ih =>
    obtain ⟨he, hes⟩ := List.forall_mem_cons.1 h
    obtain ⟨rest, hrest⟩ := ih hes (idx + 1)
    have hne : e.slug ≠ [] := fun hnil => by
      rw [hnil] at he
      cases he
    refine ⟨⟨e.slug, he⟩ :: rest, ?_⟩
    rw [desiredPaths, if_neg hne, RelPath.new_of_valid he]
    simp [hrest, Except.map]

section Outcome

variable {debug : Str → Str} {entries : List ImportedEntry} {existing : List RelPath}

/-- The outcome for a batch whose slugs are paths. -/
theorem prepare_of_valid (hvalid : ∀ e ∈ entries, validate e.slug = .ok ()) :
    (Meets existing (numberedSlugs (· % 2 ^ 32) (entries.map ImportedEntry.slug)) →
      ∃ paths, prepare debug entries existing = some (.error (.storeCollision paths)) ∧
        paths.Pairwise StrLE ∧ paths.Nodup ∧
          ∀ s, s ∈ paths ↔ s ∈ existing.map RelPath.str ∧
            s ∈ numberedSlugs (· % 2 ^ 32) (entries.map ImportedEntry.slug)) ∧
    (¬ Meets existing (numberedSlugs (· % 2 ^ 32) (entries.map ImportedEntry.slug)) →
      ∃ prepared notes, prepare debug entries existing = some (.ok (prepared, notes)) ∧
        prepared.map (·.path.str) = numberedSlugs (· % 2 ^ 32) (entries.map ImportedEntry.slug) ∧
          (∀ q ∈ prepared, q.path ∉ existing) ∧
            List.Forall₂ (fun e q => q.body = (serialiseBody debug e q.path.str).1)
              entries prepared ∧
            notes.filter isCollisionNote = collisionNotes (entries.map ImportedEntry.slug)
              (numberedSlugs (· % 2 ^ 32) (entries.map ImportedEntry.slug))) := by
  obtain ⟨desired, hdesired⟩ := desiredPaths_of_valid hvalid 0
  have hslugs := desiredPaths_map_str hdesired
  have hfinal := finalPaths_str desired
  rw [hslugs] at hfinal
  rw [← hfinal]
  have hmeets : Meets existing ((finalPaths ∅ desired).map RelPath.str) ↔
      ((finalPaths ∅ desired).filter (· ∈ existing)).map RelPath.str ≠ [] := by
    rw [Ne, List.map_eq_nil_iff, List.filter_eq_nil_iff, Meets]
    push Not
    constructor
    · rintro ⟨p, hp, hpstr⟩
      obtain ⟨q, hq, hqp⟩ := List.mem_map.1 hpstr
      obtain rfl := RelPath.ext hqp
      exact ⟨q, hq, by simpa using hp⟩
    · rintro ⟨p, hp, hex⟩
      exact ⟨p, by simpa using hex, List.mem_map_of_mem hp⟩
  unfold prepare
  simp only [hdesired]
  refine ⟨fun h => ?_, fun h => ?_⟩
  · rw [if_pos (hmeets.1 h)]
    refine ⟨_, rfl, ?_⟩
    obtain ⟨hsorted, hnodup, hmem⟩ :=
      dedupAdjacent_spec (((finalPaths ∅ desired).filter (· ∈ existing)).map RelPath.str)
    refine ⟨hsorted, hnodup, fun s => ?_⟩
    rw [hmem, List.mem_map, List.mem_map]
    constructor
    · rintro ⟨p, hp, rfl⟩
      obtain ⟨hp, hex⟩ := List.mem_filter.1 hp
      exact ⟨⟨p, by simpa using hex, rfl⟩, List.mem_map_of_mem hp⟩
    · rintro ⟨⟨p, hp, rfl⟩, hfin⟩
      obtain ⟨q, hq, hqp⟩ := List.mem_map.1 hfin
      obtain rfl := RelPath.ext hqp
      exact ⟨q, List.mem_filter.2 ⟨hq, by simpa using hp⟩, rfl⟩
  · rw [if_neg (hmeets.not.1 h)]
    have hlen := length_finalPaths_of_desired hdesired
    have hpaths := @prepared_path debug entries _ hlen
    refine ⟨_, _, rfl, ?_, fun q hq hex => ?_, ?_, ?_⟩
    · have hstr := congrArg (List.map RelPath.str) hpaths
      rwa [List.map_map] at hstr
    · refine h ⟨q.path, hex, List.mem_map_of_mem ?_⟩
      rw [← hpaths]
      exact List.mem_map_of_mem hq
    · exact (prepared_body hlen).imp fun e q ⟨hbody, _⟩ => hbody
    · have hbodies : (List.flatMap (·.2) (List.zipWith (fun e p => serialiseBody debug e p.str) entries
          (finalPaths ∅ desired))).filter isCollisionNote = [] := by
        rw [List.filter_eq_nil_iff]
        intro note hnote
        obtain ⟨body, hbody, hnote⟩ := List.mem_flatMap.1 hnote
        rw [← List.map_uncurry_zip_eq_zipWith, List.mem_map] at hbody
        obtain ⟨⟨e, p⟩, -, rfl⟩ := hbody
        simp [isCollisionNote_body hnote]
      rw [List.filter_append, hbodies, List.append_nil, collisionNotes_eq, hslugs,
        collisionNotes_filter]

/-- **The report on collisions is exact.** `prepare` refuses the batch exactly when one of the
numbered slugs is in the store, and lists those that are. Otherwise it returns an entry for each of
the batch, in order, at the numbered slugs, and has a collision note for each one with a number. -/
structure ReportsCollisions (debug : Str → Str) (entries : List ImportedEntry)
    (existing : List RelPath) : Prop where
  refused : (∃ paths, prepare debug entries existing = some (.error (.storeCollision paths))) ↔
    Meets existing (numberedSlugs id (entries.map ImportedEntry.slug))
  listed : ∀ paths, prepare debug entries existing = some (.error (.storeCollision paths)) →
    paths.Pairwise StrLE ∧ paths.Nodup ∧ ∀ s, s ∈ paths ↔ s ∈ existing.map RelPath.str ∧
      s ∈ numberedSlugs id (entries.map ImportedEntry.slug)
  accepted : ¬ Meets existing (numberedSlugs id (entries.map ImportedEntry.slug)) →
    ∃ prepared notes, prepare debug entries existing = some (.ok (prepared, notes)) ∧
      prepared.map (·.path.str) = numberedSlugs id (entries.map ImportedEntry.slug) ∧
        (∀ q ∈ prepared, q.path ∉ existing) ∧
          List.Forall₂ (fun e q => q.body = (serialiseBody debug e q.path.str).1)
            entries prepared ∧
          notes.filter isCollisionNote = collisionNotes (entries.map ImportedEntry.slug)
            (numberedSlugs id (entries.map ImportedEntry.slug))

/-- Without wrapping counters, the final paths are the numbered slugs. -/
theorem numberedSlugs_eq_iff (hvalid : ∀ e ∈ entries, validate e.slug = .ok ()) :
    numberedSlugs (· % 2 ^ 32) (entries.map ImportedEntry.slug) =
      numberedSlugs id (entries.map ImportedEntry.slug) ↔
        NoWrap (entries.map ImportedEntry.slug) := by
  obtain ⟨desired, hdesired⟩ := desiredPaths_of_valid hvalid 0
  rw [← desiredPaths_map_str hdesired]
  exact numberedSlugs_mod_eq_iff desired

theorem ReportsCollisions.noWrap (hvalid : ∀ e ∈ entries, validate e.slug = .ok ())
    (h : ReportsCollisions debug entries existing)
    (hfree : ¬ Meets existing (numberedSlugs id (entries.map ImportedEntry.slug))) :
    NoWrap (entries.map ImportedEntry.slug) := by
  obtain ⟨hmeets, hnone⟩ := @prepare_of_valid debug entries existing hvalid
  obtain ⟨prepared, notes, hprep, hpaths, -⟩ := h.accepted hfree
  refine (numberedSlugs_eq_iff hvalid).1 ?_
  by_cases hfinal : Meets existing (numberedSlugs (· % 2 ^ 32) (entries.map ImportedEntry.slug))
  · obtain ⟨paths, herr, -⟩ := hmeets hfinal
    rw [hprep] at herr
    cases herr
  · obtain ⟨prepared', notes', hok, hpaths', -⟩ := hnone hfinal
    rw [hprep] at hok
    cases hok
    rw [← hpaths', hpaths]

/-- The paths of the store that are numbered slugs are the same with counters that wrap. -/
def SameHits (existing : List RelPath) (slugs : List Str) : Prop :=
  Meets existing (numberedSlugs id slugs) ∧ ∀ p ∈ existing,
    p.str ∈ numberedSlugs (· % 2 ^ 32) slugs ↔ p.str ∈ numberedSlugs id slugs

/-- **When the report on collisions is exact.** For a batch whose slugs are paths, it is exact
when no slug comes as often as a `u32` counts; and else just when the batch is refused for the same
paths of the store as if the counters did not wrap. -/
theorem reports_collisions_iff (debug : Str → Str) (entries : List ImportedEntry)
    (existing : List RelPath) (hvalid : ∀ e ∈ entries, validate e.slug = .ok ()) :
    ReportsCollisions debug entries existing ↔
      NoWrap (entries.map ImportedEntry.slug) ∨
        SameHits existing (entries.map ImportedEntry.slug) := by
  obtain ⟨hmeets, hnone⟩ := @prepare_of_valid debug entries existing hvalid
  constructor
  · intro h
    by_cases hfree : Meets existing (numberedSlugs id (entries.map ImportedEntry.slug))
    · refine Or.inr ⟨hfree, fun p hp => ?_⟩
      obtain ⟨paths, hpaths⟩ := h.refused.2 hfree
      have hmem := (h.listed paths hpaths).2.2 p.str
      have hp' : p.str ∈ existing.map RelPath.str := List.mem_map_of_mem hp
      by_cases hfinal :
          Meets existing (numberedSlugs (· % 2 ^ 32) (entries.map ImportedEntry.slug))
      · obtain ⟨paths', herr, -, -, hmem'⟩ := hmeets hfinal
        rw [hpaths] at herr
        cases herr
        have hmem' := hmem' p.str
        tauto
      · obtain ⟨prepared, notes, hok, -⟩ := hnone hfinal
        rw [hpaths] at hok
        cases hok
    · exact Or.inl (h.noWrap hvalid hfree)
  · rintro (hwrap | ⟨⟨p, hp, hpstr⟩, hsame⟩)
    · rw [(numberedSlugs_eq_iff hvalid).2 hwrap] at hmeets hnone
      refine ⟨⟨fun ⟨paths, hpaths⟩ => ?_, fun hhit => ?_⟩, fun paths hpaths => ?_, hnone⟩
      · by_contra hfree
        obtain ⟨prepared, notes, hok, -⟩ := hnone hfree
        rw [hpaths] at hok
        cases hok
      · obtain ⟨paths, hpaths, -⟩ := hmeets hhit
        exact ⟨paths, hpaths⟩
      · by_cases hhit : Meets existing (numberedSlugs id (entries.map ImportedEntry.slug))
        · obtain ⟨paths', herr, hspec⟩ := hmeets hhit
          rw [hpaths] at herr
          cases herr
          exact hspec
        · obtain ⟨prepared, notes, hok, -⟩ := hnone hhit
          rw [hpaths] at hok
          cases hok
    · obtain ⟨paths, hpaths, hsorted, hnodup, hmem⟩ := hmeets ⟨p, hp, (hsame p hp).2 hpstr⟩
      refine ⟨⟨fun _ => ⟨p, hp, hpstr⟩, fun _ => ⟨paths, hpaths⟩⟩, fun paths' hpaths' => ?_,
        fun hfree => absurd ⟨p, hp, hpstr⟩ hfree⟩
      rw [hpaths] at hpaths'
      cases hpaths'
      refine ⟨hsorted, hnodup, fun s => (hmem s).trans (and_congr_right fun hs => ?_)⟩
      obtain ⟨q, hq, rfl⟩ := List.mem_map.1 hs
      exact hsame q hq

end Outcome

theorem reports_collisions_iff_work :
    ReportsCollisions id (namedEntries ["Work", "work"]) [] ↔
      NoWrap ((namedEntries ["Work", "work"]).map ImportedEntry.slug) ∨
        SameHits [] ((namedEntries ["Work", "work"]).map ImportedEntry.slug) :=
  reports_collisions_iff _ _ _ (by decide +kernel)

/-- The report on as many entries with one name as given is exact for less than `2 ^ 32` of them. -/
theorem lt_of_reports {n : ℕ} (e : ImportedEntry) (hvalid : validate e.slug = .ok ())
    (h : ReportsCollisions id (List.replicate n e) []) : n < 2 ^ 32 := by
  have hall : ∀ x ∈ List.replicate n e, validate x.slug = .ok () := fun x hx => by
    rwa [List.eq_of_mem_replicate hx]
  have hfree : ¬ Meets [] (numberedSlugs id ((List.replicate n e).map ImportedEntry.slug)) := by
    rintro ⟨p, hp, -⟩
    cases hp
  have hcount := h.noWrap hall hfree e.slug
  rwa [List.map_replicate, List.count_replicate_self] at hcount

/-- **The counters can wrap**: of `2 ^ 32` entries with one slug, the last is not numbered so. -/
theorem counters_can_wrap :
    ¬ ∀ debug entries existing, (∀ e ∈ entries, validate e.slug = .ok ()) →
      ReportsCollisions debug entries existing := by
  intro h
  have hvalid : validate (ImportedEntry.slug ⟨[], ['a'], [], none, [], none, none, []⟩) = .ok () := by
    decide +kernel
  refine absurd (lt_of_reports _ hvalid (h id (List.replicate (2 ^ 32) _) [] fun x hx => ?_))
    (lt_irrefl _)
  rwa [List.eq_of_mem_replicate hx]

end Bypass
