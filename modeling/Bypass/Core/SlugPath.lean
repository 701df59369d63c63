import Bypass.Core.Slug

/-!
# When a slug is a path of the store

`prepare` (`import.rs`) takes every slug for a path, with an `expect`. A slug keeps the dots of what
was slugged, and `RelPath::validate` refuses a segment of one dot or two: such a segment is the one
obstacle, and an import that reaches it panics.

* `dots_iff`: what becomes a segment of dots.
* `validate_slugPath`: when a slug is a path.
* `prepare_panics_iff`: **when an import panics**.
-/

namespace Bypass

/-! ## Segments of dots -/

/-- Nothing but dashes. -/
def AllDash (s : Str) : Prop := ∀ c ∈ s, c = '-'

theorem dropWhile_collapseDashes (lastDash : Bool) (seg : Str) :
    (collapseDashes lastDash seg).dropWhile (· = '-') =
      collapseDashes false (seg.dropWhile (· = '-')) := by
  induction seg generalizing lastDash with
  | nil => rfl
  | cons c cs ih =>
    by_cases hc : c = '-'
    · cases lastDash <;> simp [collapseDashes, hc, ih]
    · simp [collapseDashes, hc]

theorem mem_collapseDashes {lastDash : Bool} {seg : Str} {c : Char} (hc : c ≠ '-') (h : c ∈ seg) :
    c ∈ collapseDashes lastDash seg := by
  induction seg generalizing lastDash with
  | nil => exact h
  | cons d ds ih =>
    rw [collapseDashes]
    rcases List.mem_cons.1 h with rfl | h
    · simp [hc]
    · split_ifs
      · exact ih h
      · exact List.mem_cons_of_mem _ (ih h)
      · exact List.mem_cons_of_mem _ (ih h)

/-- What has no dash at its start was there as it is. -/
theorem collapseDashes_eq_append {seg d y : Str} (hd : '-' ∉ d) (hy : AllDash y)
    (h : collapseDashes false seg = d ++ y) : ∃ y', AllDash y' ∧ seg = d ++ y' := by
  induction d generalizing seg with
  | nil =>
    refine ⟨seg, fun c hc => ?_, rfl⟩
    by_contra hne
    have hmem : c ∈ collapseDashes false seg := mem_collapseDashes hne hc
    exact hne (hy c (by simpa [h] using hmem))
  | cons c d ih =>
    obtain ⟨hc, hd'⟩ := not_or.1 (List.mem_cons.not.1 hd)
    cases seg with
    | nil => simp [collapseDashes] at h
    | cons e es =>
      by_cases he : e = '-'
      · rw [collapseDashes, if_pos he, if_neg (by simp), he] at h
        exact absurd (List.cons.inj h).1 hc
      · rw [collapseDashes, if_neg he] at h
        obtain ⟨rfl, hrest⟩ := List.cons.inj h
        obtain ⟨y', hy', rfl⟩ := ih hd' hrest
        exact ⟨y', hy', rfl⟩

theorem collapseDashes_append {d : Str} (hd : '-' ∉ d) (y : Str) :
    collapseDashes false (d ++ y) = d ++ collapseDashes false y := by
  induction d with
  | nil => rfl
  | cons c d ih =>
    obtain ⟨hc, hd⟩ := not_or.1 (List.mem_cons.not.1 hd)
    rw [List.cons_append, collapseDashes, if_neg (Ne.symm hc), ih hd, List.cons_append]

theorem rdropWhile_append_allDash {d y : Str} (hy : AllDash y) :
    (d ++ y).rdropWhile (· = '-') = d.rdropWhile (· = '-') := by
  rw [List.rdropWhile, List.reverse_append,
    List.dropWhile_append_of_pos fun c hc => by simpa using hy c (List.mem_reverse.1 hc)]
  rfl

/-- The second pass leaves a text without dashes of a segment that has just dashes around it. -/
theorem normSegment_eq_iff {seg d : Str} (hne : d ≠ []) (hd : '-' ∉ d) :
    normSegment seg = d ↔ ∃ x y, AllDash x ∧ AllDash y ∧ seg = x ++ (d ++ y) := by
  rw [normSegment, dropWhile_collapseDashes]
  constructor
  · intro h
    have hlast : AllDash ((collapseDashes false (seg.dropWhile (· = '-'))).rtakeWhile (· = '-')) :=
      fun c hc => by simpa using List.mem_rtakeWhile_imp hc
    have hparts := List.rdropWhile_append_rtakeWhile (p := fun c : Char => decide (c = '-'))
      (l := collapseDashes false (seg.dropWhile (· = '-')))
    rw [h] at hparts
    obtain ⟨y, hy, hseg⟩ := collapseDashes_eq_append hd hlast hparts.symm
    refine ⟨seg.takeWhile (· = '-'), y, fun c hc => by simpa using List.mem_takeWhile_imp hc, hy, ?_⟩
    rw [← hseg, List.takeWhile_append_dropWhile]
  · rintro ⟨x, y, hx, hy, rfl⟩
    obtain ⟨c, d, rfl⟩ := List.exists_cons_of_ne_nil hne
    have hc : c ≠ '-' := fun he => hd (he ▸ List.mem_cons_self)
    have hy' : AllDash (collapseDashes false y) :=
      fun c hc => hy c ((collapseDashes_sublist false y).mem hc)
    rw [List.dropWhile_append_of_pos fun c hc => by simpa using hx c hc, List.cons_append,
      List.dropWhile_cons_of_neg (by simpa using hc), ← List.cons_append,
      collapseDashes_append hd, rdropWhile_append_allDash hy', List.rdropWhile_eq_self_iff]
    intro _ hlast
    exact hd ((by simpa using hlast : (c :: d).getLast _ = '-') ▸ List.getLast_mem _)

/-- Slugging drops these characters. -/
def Dropped (s : Str) : Prop := ∀ c ∈ s, slugChar c = none

/-- Slugging drops these characters or makes them dashes. -/
def Blank (s : Str) : Prop := ∀ c ∈ s, slugChar c = none ∨ slugChar c = some '-'

/-- One dot, or two next to each other, and nothing else but what slugging drops or makes dashes;
between the dots, just what it drops. -/
def Dots (piece : Str) : Prop :=
  ∃ l r, Blank l ∧ Blank r ∧
    (piece = l ++ '.' :: r ∨ ∃ m, Dropped m ∧ piece = l ++ '.' :: (m ++ '.' :: r))

theorem allDash_filterMap {s : Str} : AllDash (s.filterMap slugChar) ↔ Blank s := by
  constructor
  · intro h c hc
    cases hd : slugChar c with
    | none => exact Or.inl rfl
    | some d => exact Or.inr (congrArg some (h d (List.mem_filterMap.2 ⟨c, hc, hd⟩)))
  · intro h d hd
    obtain ⟨c, hc, hcd⟩ := List.mem_filterMap.1 hd
    rcases h c hc with hnone | hdash
    · simp [hnone] at hcd
    · exact (Option.some.inj (hcd.symm.trans hdash))

theorem Dropped.filterMap {s : Str} (h : Dropped s) : s.filterMap slugChar = [] :=
  List.filterMap_eq_nil_iff.2 h

theorem Dropped.blank {s : Str} (h : Dropped s) : Blank s := fun c hc => Or.inl (h c hc)

theorem Blank.append {s t : Str} (hs : Blank s) (ht : Blank t) : Blank (s ++ t) := fun c hc =>
  (List.mem_append.1 hc).elim (hs c) (ht c)

/-- What becomes a text that starts with a dot. -/
theorem filterMap_eq_dot {s d : Str} (h : s.filterMap slugChar = '.' :: d) :
    ∃ m t, Dropped m ∧ s = m ++ '.' :: t ∧ t.filterMap slugChar = d := by
  obtain ⟨m, c, t, rfl, hm, hc, ht⟩ := List.filterMap_eq_cons_iff.1 h
  obtain rfl := slugChar_eq_dot.1 hc
  exact ⟨m, t, hm, rfl, ht⟩

/-- **The pieces that become a segment of dots.** -/
theorem dots_iff {piece : Str} : Dots piece ↔
    normSegment (piece.filterMap slugChar) = ['.'] ∨
      normSegment (piece.filterMap slugChar) = ['.', '.'] := by
  rw [normSegment_eq_iff (by simp) (by decide), normSegment_eq_iff (by simp) (by decide)]
  have hdot : slugChar '.' = some '.' := by decide
  constructor
  · rintro ⟨l, r, hl, hr, rfl | ⟨m, hm, rfl⟩⟩
    · refine Or.inl ⟨_, _, allDash_filterMap.2 hl, allDash_filterMap.2 hr, ?_⟩
      simp [hdot]
    · refine Or.inr ⟨_, _, allDash_filterMap.2 hl, allDash_filterMap.2 hr, ?_⟩
      simp [hdot, hm.filterMap]
  · rintro (⟨x, y, hx, hy, hpiece⟩ | ⟨x, y, hx, hy, hpiece⟩)
    · obtain ⟨l, t, rfl, rfl, ht⟩ := List.filterMap_eq_append_iff.1 hpiece
      obtain ⟨m, r, hm, rfl, rfl⟩ := filterMap_eq_dot ht
      exact ⟨l ++ m, r, (allDash_filterMap.1 hx).append hm.blank, allDash_filterMap.1 hy,
        Or.inl (by simp)⟩
    · obtain ⟨l, t, rfl, rfl, ht⟩ := List.filterMap_eq_append_iff.1 hpiece
      obtain ⟨m, r, hm, rfl, hr⟩ := filterMap_eq_dot ht
      obtain ⟨m', r', hm', rfl, rfl⟩ := filterMap_eq_dot hr
      exact ⟨l ++ m, r', (allDash_filterMap.1 hx).append hm.blank, allDash_filterMap.1 hy,
        Or.inr ⟨m', hm', by simp⟩⟩

/-- **When a slug is a path of the store**: when no piece of the string is made of dots. -/
theorem validate_slugPath {s : Str} (hne : slugPath s ≠ []) :
    validate (slugPath s) = .ok () ↔ ∀ piece ∈ s.splitOn '/', ¬ Dots piece := by
  have hsegs : slugSegments s ≠ [] := fun hnil => hne (by rw [slugPath_eq, hnil]; rfl)
  have hnormal : ∀ seg ∈ slugSegments s, NormalSegment seg := fun _ h => normalSegment_of_mem h
  have hchars : ∀ c ∈ slugPath s, isSlugChar c = true ∨ c = '/' := fun c hc => by
    rcases mem_of_mem_intercalate hc with hsep | ⟨seg, hseg, hc⟩
    · exact Or.inr (by simpa using hsep)
    · exact Or.inl ((hnormal seg hseg).chars c hc)
  have hnul : '\x00' ∉ slugPath s := fun h => absurd (hchars _ h) (by decide)
  have hback : '\\' ∉ slugPath s := fun h => absurd (hchars _ h) (by decide)
  rw [validate_eq_ok, slugPath_eq,
    List.splitOn_intercalate '/' (fun seg hseg => (hnormal seg hseg).no_slash) hsegs, ← slugPath_eq]
  constructor
  · rintro ⟨-, -, hvalid⟩ piece hpiece hdots
    have hmem : ∀ d : Str, d ≠ [] → normSegment (piece.filterMap slugChar) = d →
        d ∈ slugSegments s := by
      rintro d hd rfl
      rw [slugSegments_eq, List.mem_filter]
      exact ⟨List.mem_map.2 ⟨piece, hpiece, rfl⟩, by simpa using hd⟩
    rcases dots_iff.1 hdots with hone | htwo
    · exact (hvalid _ (hmem _ (by simp) hone)).2.1 rfl
    · exact (hvalid _ (hmem _ (by simp) htwo)).2.2 rfl
  · intro hno
    refine ⟨hnul, hback, fun seg hseg => ⟨(hnormal seg hseg).ne_nil, fun hdot => ?_, fun hdot => ?_⟩⟩
    all_goals
      rw [slugSegments_eq, List.mem_filter, List.mem_map] at hseg
      obtain ⟨⟨piece, hpiece, rfl⟩, -⟩ := hseg
      exact hno piece hpiece (dots_iff.2 (by simp [hdot]))

/-! ## Batches -/

/-- What is slugged: the folders and the name of an entry that are not empty, joined. -/
def ImportedEntry.rawPath (e : ImportedEntry) : Str :=
  ['/'].intercalate ((e.folder ++ [e.name]).filter (· ≠ []))

theorem ImportedEntry.slug_eq (e : ImportedEntry) : e.slug = slugPath e.rawPath := rfl

/-- A piece of the entry's path is made of dots. -/
def ImportedEntry.HasDots (e : ImportedEntry) : Prop :=
  ∃ piece ∈ e.rawPath.splitOn '/', Dots piece

theorem ImportedEntry.validate_slug {e : ImportedEntry} (hne : e.slug ≠ []) :
    validate e.slug = .ok () ↔ ¬ e.HasDots := by
  have hiff := validate_slugPath hne
  rw [e.slug_eq]
  refine hiff.trans ⟨fun h => ?_, fun h piece hpiece hdots => h ⟨piece, hpiece, hdots⟩⟩
  rintro ⟨piece, hpiece, hdots⟩
  exact h piece hpiece hdots

/-- A slug with a segment of dots is not empty. -/
theorem ImportedEntry.HasDots.slug_ne_nil {e : ImportedEntry} (h : e.HasDots) : e.slug ≠ [] := by
  obtain ⟨piece, hpiece, hdots⟩ := h
  have hseg : normSegment (piece.filterMap slugChar) ∈ slugSegments e.rawPath := by
    rw [slugSegments_eq, List.mem_filter]
    refine ⟨List.mem_map.2 ⟨piece, hpiece, rfl⟩, ?_⟩
    rcases dots_iff.1 hdots with hone | htwo
    · simp [hone]
    · simp [htwo]
  rw [e.slug_eq, slugPath_eq]
  intro hnil
  rw [intercalate_eq_nil fun seg hmem => (normalSegment_of_mem hmem).ne_nil] at hnil
  rw [hnil] at hseg
  cases hseg

/-- Some entry has a segment of dots, and none before it lacks a name. -/
def ReachesDots (entries : List ImportedEntry) : Prop :=
  ∃ before e after, entries = before ++ e :: after ∧ (∀ x ∈ before, x.slug ≠ []) ∧ e.HasDots

theorem reachesDots_cons {e : ImportedEntry} {es : List ImportedEntry} :
    ReachesDots (e :: es) ↔ e.HasDots ∨ e.slug ≠ [] ∧ ReachesDots es := by
  constructor
  · rintro ⟨before, e', after, heq, hnamed, hdots⟩
    cases before with
    | nil =>
      obtain ⟨rfl, -⟩ := List.cons.inj heq
      exact Or.inl hdots
    | cons x before =>
      obtain ⟨rfl, rfl⟩ := List.cons.inj heq
      obtain ⟨hx, hnamed⟩ := List.forall_mem_cons.1 hnamed
      exact Or.inr ⟨hx, before, e', after, rfl, hnamed, hdots⟩
  · rintro (hdots | ⟨he, before, e', after, rfl, hnamed, hdots⟩)
    · exact ⟨[], e, es, rfl, by simp, hdots⟩
    · exact ⟨e :: before, e', after, rfl, List.forall_mem_cons.2 ⟨he, hnamed⟩, hdots⟩

/-- The first pass panics at the first segment of dots, if no entry without a name comes before. -/
theorem desiredPaths_eq_none {idx : ℕ} {entries : List ImportedEntry} :
    desiredPaths idx entries = none ↔ ReachesDots entries := by
  induction entries generalizing idx with
  | nil => simp [desiredPaths, ReachesDots]
  | cons e es ih =>
    rw [reachesDots_cons, desiredPaths]
    by_cases hslug : e.slug = []
    · have hdots : ¬ e.HasDots := fun h => h.slug_ne_nil hslug
      simp [hslug, hdots]
    · rw [if_neg hslug]
      by_cases hdots : e.HasDots
      · cases hp : RelPath.new e.slug with
        | error err => simp [hdots]
        | ok path =>
          have hvalid := path.valid
          rw [RelPath.new_eq_ok.1 hp] at hvalid
          exact absurd hdots ((e.validate_slug hslug).1 hvalid)
      · rw [RelPath.new_of_valid ((e.validate_slug hslug).2 hdots)]
        simp [hslug, hdots, ih]

theorem prepare_eq_none {debug : Str → Str} {entries : List ImportedEntry}
    {existing : List RelPath} :
    prepare debug entries existing = none ↔ desiredPaths 0 entries = none := by
  unfold prepare
  cases hd : desiredPaths 0 entries with
  | none => simp
  | some r =>
    cases r with
    | error e => simp
    | ok desired =>
      simp only [reduceCtorEq, iff_false]
      split_ifs <;> simp

/-- **When an import panics.** `prepare` returns exactly when no entry that it reaches, one before
which none lacks a name, has a piece of its path made of dots. A slug, and the slug with a number
after it, are paths of the store exactly when no piece of what was slugged is. -/
theorem prepare_panics_iff (debug : Str → Str) (entries : List ImportedEntry)
    (existing : List RelPath) (s : Str) :
    (prepare debug entries existing ≠ none ↔ ¬ ReachesDots entries) ∧
      (slugPath s ≠ [] →
        ((validate (slugPath s) = .ok () ∧
            ∀ n, 0 < n → validate (slugPath s ++ '-' :: Nat.toDigits 10 n) = .ok ()) ↔
          ∀ piece ∈ s.splitOn '/', ¬ Dots piece)) := by
  refine ⟨?_, fun hne => ?_⟩
  · exact not_congr (prepare_eq_none.trans desiredPaths_eq_none)
  · rw [← validate_slugPath hne, and_iff_left_iff_imp]
    intro hvalid n _
    exact (suffixed ⟨slugPath s, hvalid⟩ n).valid

theorem prepare_panics_iff_etc :
    (validate (slugPath "/Etc ".toList) = .ok () ∧
        ∀ n, 0 < n → validate (slugPath "/Etc ".toList ++ '-' :: Nat.toDigits 10 n) = .ok ()) ↔
      ∀ piece ∈ "/Etc ".toList.splitOn '/', ¬ Dots piece :=
  (prepare_panics_iff id [] [] "/Etc ".toList).2 (by decide)

/-- **An import can panic**: at an entry with the name `.`. -/
theorem prepare_can_panic : ¬ ∀ debug entries existing, prepare debug entries existing ≠ none := by
  intro h
  exact h id [⟨[], ['.'], [], none, [], none, none, []⟩] [] (by decide +kernel)

end Bypass
