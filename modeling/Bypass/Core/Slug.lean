import Bypass.Core.Import
import Bypass.Foundations.Joins

/-!
# Slugs

`slug_path` (`import.rs`) keeps the characters of a path that a store name may have, makes white
space a dash, and then normalises each segment. A slug is a list of normal segments (`NormalSlug`),
joined by separators; the list of segments is what the lemmas are about.

* `normalSegment_normSegment`: what is left of a segment is normal.
* `slugSegments_join`: joined strings have the segments of each.
* `slugPath_normal_form`: **slugs are a normal form**, and slugging goes through joined strings.
-/

namespace Bypass

/-! ## Characters -/

/-- The characters of the segments of a slug. -/
def isSlugChar (c : Char) : Bool :=
  c.isLower || c.isDigit || c = '.' || c = '_' || c = '-'

theorem slugChar_slash : slugChar '/' = some '/' := by decide

theorem not_isUpper_of_isDigit {c : Char} (h : c.isDigit = true) : ¬ c.isUpper := by
  simp only [Char.isUpper, Char.isDigit, Bool.and_eq_true, decide_eq_true_eq, ge_iff_le,
    UInt32.le_iff_toNat_le] at h ⊢
  have hlt : '9'.val.toNat < 'A'.val.toNat := by decide
  omega

/-- Letters and digits become small letters and digits. -/
theorem toLower_of_isAlphanum {c : Char} (h : c.isAlphanum = true) :
    c.toLower.isLower = true ∨ c.toLower.isDigit = true := by
  simp only [Char.isAlphanum, Bool.or_eq_true] at h
  rcases h with halpha | hdigit
  · exact Or.inl (by simp [halpha])
  · have hlower : c.toLower = c := Char.toLower_eq_of_not_isUpper (not_isUpper_of_isDigit hdigit)
    exact Or.inr (by simp [hlower, hdigit])

/-- Characters of slugs are left alone. -/
theorem slugChar_eq_self {c : Char} (h : isSlugChar c = true) : slugChar c = some c := by
  simp only [isSlugChar, Bool.or_eq_true, decide_eq_true_eq] at h
  rcases h with ((hletter | rfl) | rfl) | rfl
  · have halnum : c.isAlphanum = true := by
      simp only [Char.isAlphanum, Char.isAlpha, Bool.or_eq_true]
      tauto
    have hupper : ¬ c.isUpper :=
      hletter.elim (fun h => Char.not_isUpper_of_isLower h) not_isUpper_of_isDigit
    rw [slugChar, if_pos halnum, Char.toLower_eq_of_not_isUpper hupper]
  all_goals decide

/-- The first pass leaves characters of slugs, and the separators that were there. -/
theorem slugChar_eq_some {c d : Char} (h : slugChar c = some d) :
    isSlugChar d = true ∨ c = '/' ∧ d = '/' := by
  rw [slugChar] at h
  split_ifs at h with halnum hpunct hspace
  · obtain rfl := Option.some.inj h
    have hlower := toLower_of_isAlphanum halnum
    simp only [isSlugChar, Bool.or_eq_true]
    tauto
  · obtain rfl := Option.some.inj h
    rcases hpunct with rfl | rfl | rfl | rfl <;> decide
  · exact Or.inl (Option.some.inj h ▸ by decide)

/-- What is no letter, digit or dash was there before. -/
theorem eq_of_slugChar {c d : Char} (h : slugChar c = some d) (hd : d.isAlphanum = false)
    (hdash : d ≠ '-') : c = d := by
  rw [slugChar] at h
  split_ifs at h with halnum hpunct hspace
  · obtain rfl := Option.some.inj h
    have hlower := toLower_of_isAlphanum halnum
    simp only [Char.isAlphanum, Char.isAlpha, Bool.or_eq_false_iff] at hd
    simp [hd] at hlower
  · exact Option.some.inj h
  · exact absurd (Option.some.inj h).symm hdash

theorem slugChar_eq_slash {c : Char} : slugChar c = some '/' ↔ c = '/' :=
  ⟨fun h => eq_of_slugChar h (by decide) (by decide), fun h => h ▸ slugChar_slash⟩

theorem slugChar_eq_dot {c : Char} : slugChar c = some '.' ↔ c = '.' :=
  ⟨fun h => eq_of_slugChar h (by decide) (by decide), fun h => h ▸ (by decide : slugChar '.' = some '.')⟩

/-! ## Segments -/

/-- The second pass of `slug_path`, on one segment. -/
def normSegment (seg : Str) : Str :=
  ((collapseDashes false seg).dropWhile (· = '-')).rdropWhile (· = '-')

/-- A segment of a slug: it is not empty, and a dash in it stands between two other characters. -/
structure NormalSegment (seg : Str) : Prop where
  ne_nil : seg ≠ []
  chars : ∀ c ∈ seg, isSlugChar c = true
  head : seg.head? ≠ some '-'
  last : seg.getLast? ≠ some '-'
  no_run : ¬ ['-', '-'] <:+: seg

/-- No two dashes follow each other. -/
def NoRun (seg : Str) : Prop := seg.IsChain fun a b => ¬ (a = '-' ∧ b = '-')

theorem noRun_iff {seg : Str} : NoRun seg ↔ ¬ ['-', '-'] <:+: seg := by
  rw [NoRun, List.isChain_iff_forall_rel_of_append_cons_cons]
  constructor
  · rintro h ⟨l₁, l₂, rfl⟩
    exact @h '-' '-' l₁ l₂ (by simp) ⟨rfl, rfl⟩
  · rintro h a b l₁ l₂ rfl ⟨rfl, rfl⟩
    exact h ⟨l₁, l₂, by simp⟩

theorem collapseDashes_sublist (lastDash : Bool) (seg : Str) :
    (collapseDashes lastDash seg).Sublist seg := by
  induction seg generalizing lastDash with
  | nil => exact List.Sublist.slnil
  | cons c cs ih =>
    rw [collapseDashes]
    split_ifs with hc hl
    · exact (ih true).cons c
    · exact (ih true).cons_cons c
    · exact (ih false).cons_cons c

/-- After a dash there is none. -/
theorem head?_collapseDashes (seg : Str) : (collapseDashes true seg).head? ≠ some '-' := by
  induction seg with
  | nil => exact nofun
  | cons c cs ih =>
    by_cases hc : c = '-'
    · rw [collapseDashes, if_pos hc, if_pos rfl]
      exact ih
    · rw [collapseDashes, if_neg hc]
      simpa using hc

theorem noRun_collapseDashes (lastDash : Bool) (seg : Str) :
    NoRun (collapseDashes lastDash seg) := by
  induction seg generalizing lastDash with
  | nil => exact List.isChain_nil
  | cons c cs ih =>
    rw [collapseDashes]
    split_ifs with hc hl
    · exact ih true
    · refine List.isChain_cons.2 ⟨fun y hy hdash => ?_, ih true⟩
      exact head?_collapseDashes cs (hdash.2 ▸ hy)
    · exact List.isChain_cons.2 ⟨fun y _ hdash => hc hdash.1, ih false⟩

/-- Without runs there is nothing to collapse. -/
theorem collapseDashes_eq_self (lastDash : Bool) {seg : Str} (h : NoRun seg)
    (hhead : lastDash = true → seg.head? ≠ some '-') : collapseDashes lastDash seg = seg := by
  induction seg generalizing lastDash with
  | nil => rfl
  | cons c cs ih =>
    obtain ⟨hnext, hrun⟩ := List.isChain_cons.1 h
    rw [collapseDashes]
    split_ifs with hc hl
    · exact absurd (by rw [hc]; rfl) (hhead hl)
    · rw [ih true hrun fun _ hd => hnext '-' hd ⟨hc, rfl⟩]
    · rw [ih false hrun nofun]

theorem normSegment_isInfix (seg : Str) : normSegment seg <:+: collapseDashes false seg :=
  (List.rdropWhile_prefix _ _).isInfix.trans (List.dropWhile_suffix _).isInfix

theorem mem_normSegment {c : Char} {seg : Str} (h : c ∈ normSegment seg) : c ∈ seg :=
  (collapseDashes_sublist false seg).mem ((normSegment_isInfix seg).mem h)

/-- **What the second pass leaves of a segment is normal**, if anything is left. -/
theorem normalSegment_normSegment {seg : Str} (hchars : ∀ c ∈ seg, isSlugChar c = true)
    (hne : normSegment seg ≠ []) : NormalSegment (normSegment seg) where
  ne_nil := hne
  chars c hc := hchars c (mem_normSegment hc)
  head hhead := by
    have hpre : normSegment seg <+: (collapseDashes false seg).dropWhile (· = '-') :=
      List.rdropWhile_prefix _ _
    have hdrop := List.head?_dropWhile_not (fun c : Char => decide (c = '-'))
      (collapseDashes false seg)
    obtain ⟨w, hw⟩ := hpre
    rw [← hw, List.head?_append, hhead] at hdrop
    simp at hdrop
  last hlast := by
    obtain ⟨w, hw⟩ := List.getLast?_eq_some_iff.1 hlast
    have hkeep := List.rdropWhile_last_not (p := fun c : Char => decide (c = '-'))
      (l := (collapseDashes false seg).dropWhile (· = '-')) hne
    apply hkeep
    have hget : (normSegment seg).getLast hne = '-' := by
      simp only [hw, List.getLast_append_singleton]
    simpa [normSegment] using hget
  no_run hrun := noRun_iff.1 (noRun_collapseDashes false seg)
    (hrun.trans (normSegment_isInfix seg))

/-- A normal segment is left alone. -/
theorem NormalSegment.normSegment_eq {seg : Str} (h : NormalSegment seg) :
    normSegment seg = seg := by
  rw [normSegment, collapseDashes_eq_self false (noRun_iff.2 h.no_run) nofun]
  have hdrop : seg.dropWhile (· = '-') = seg := by
    cases seg with
    | nil => rfl
    | cons c cs =>
      refine List.dropWhile_cons_of_neg ?_
      simpa using h.head
  rw [hdrop, List.rdropWhile_eq_self_iff]
  intro hne hlast
  refine h.last ?_
  rw [List.getLast?_eq_getLast_of_ne_nil hne]
  simpa using hlast

/-! ## The segments of a slug -/

/-- What the second pass leaves: the segments that did not become empty. -/
def slugSegments (s : Str) : List Str :=
  (((s.filterMap slugChar).splitOn '/').map normSegment).filter (· ≠ [])

theorem slugPath_eq (s : Str) : slugPath s = ['/'].intercalate (slugSegments s) := rfl

/-- A slug: normal segments, joined by separators. -/
def NormalSlug (s : Str) : Prop :=
  ∃ segs : List Str, (∀ seg ∈ segs, NormalSegment seg) ∧ s = ['/'].intercalate segs

/-- The first pass goes through separators. -/
theorem splitOn_filterMap_slugChar (s : Str) : (s.filterMap slugChar).splitOn '/' =
    (s.splitOn '/').map fun piece => piece.filterMap slugChar := by
  induction s with
  | nil => rfl
  | cons c cs ih =>
    obtain ⟨piece, pieces, hsplit⟩ := List.exists_cons_of_ne_nil (List.splitOn_ne_nil '/' cs)
    rw [hsplit, List.map_cons] at ih
    by_cases hc : c = '/'
    · rw [hc, List.filterMap_cons_some slugChar_slash]
      simp [List.splitOn_cons_eq_if_modifyHead, ih, hsplit]
    · cases hd : slugChar c with
      | none => simp [List.splitOn_cons_eq_if_modifyHead, ih, hsplit, hc, hd]
      | some d =>
        have hdc : d ≠ '/' := fun he => hc (slugChar_eq_slash.1 (he ▸ hd))
        simp [List.splitOn_cons_eq_if_modifyHead, ih, hsplit, hc, hd, hdc]

theorem slugSegments_eq (s : Str) : slugSegments s =
    ((s.splitOn '/').map fun piece => normSegment (piece.filterMap slugChar)).filter (· ≠ []) := by
  rw [slugSegments, splitOn_filterMap_slugChar, List.map_map]
  rfl

/-- **The segments of a slug are normal.** -/
theorem normalSegment_of_mem {s seg : Str} (h : seg ∈ slugSegments s) : NormalSegment seg := by
  rw [slugSegments_eq, List.mem_filter, List.mem_map] at h
  obtain ⟨⟨piece, hpiece, rfl⟩, hne⟩ := h
  refine normalSegment_normSegment (fun c hc => ?_) (by simpa using hne)
  obtain ⟨d, hd, hdc⟩ := List.mem_filterMap.1 hc
  refine (slugChar_eq_some hdc).resolve_right fun hslash => ?_
  exact not_mem_of_mem_splitOn hpiece (hslash.1 ▸ hd)

theorem NormalSegment.no_slash {seg : Str} (h : NormalSegment seg) : '/' ∉ seg := fun hmem =>
  absurd (h.chars _ hmem) (by decide)

/-- The segments of joined normal segments are just those. -/
theorem slugSegments_intercalate {segs : List Str} (h : ∀ seg ∈ segs, NormalSegment seg) :
    slugSegments (['/'].intercalate segs) = segs := by
  rcases List.eq_nil_or_concat segs with rfl | hne
  · rfl
  · have hne : segs ≠ [] := by
      obtain ⟨l, a, rfl⟩ := hne
      simp
    have hself : ∀ seg ∈ segs, normSegment (seg.filterMap slugChar) = seg := fun seg hseg => by
      have hkeep : seg.filterMap slugChar = seg := by
        rw [List.filterMap_congr fun c hc => slugChar_eq_self ((h seg hseg).chars c hc)]
        exact List.filterMap_some
      rw [hkeep, (h seg hseg).normSegment_eq]
    rw [slugSegments_eq, List.splitOn_intercalate '/' (fun seg hseg => (h seg hseg).no_slash) hne,
      List.map_congr_left hself, List.map_id', List.filter_eq_self]
    exact fun seg hseg => by simpa using (h seg hseg).ne_nil

/-- Joined strings have the segments of each. -/
theorem slugSegments_join (ss : List Str) :
    slugSegments (['/'].intercalate ss) = ss.flatMap slugSegments := by
  induction ss with
  | nil => rfl
  | cons s ss ih =>
    cases ss with
    | nil => simp
    | cons s' ss =>
      rw [List.flatMap_cons, ← ih, List.intercalate_cons_cons]
      simp only [slugSegments_eq, List.append_assoc, List.singleton_append,
        List.splitOn_append_cons_self, List.map_append, List.filter_append]

/-! ## The normal form -/

theorem normalSlug_slugPath (s : Str) : NormalSlug (slugPath s) :=
  ⟨slugSegments s, fun _ h => normalSegment_of_mem h, slugPath_eq s⟩

theorem NormalSlug.slugPath_eq {s : Str} (h : NormalSlug s) : slugPath s = s := by
  obtain ⟨segs, hsegs, rfl⟩ := h
  rw [Bypass.slugPath_eq, slugSegments_intercalate hsegs]

/-- **Slugs are a normal form.** Slugging twice is slugging once; the strings that slugging leaves
alone are the joins of normal segments, which is what it returns; and the slug of joined strings is
the join of their slugs, without those that are empty. -/
theorem slugPath_normal_form :
    (∀ s, slugPath (slugPath s) = slugPath s) ∧ (∀ s, slugPath s = s ↔ NormalSlug s) ∧
      (∀ s, NormalSlug (slugPath s)) ∧
        ∀ ss : List Str, slugPath (['/'].intercalate ss) =
          ['/'].intercalate ((ss.map slugPath).filter (· ≠ [])) := by
  refine ⟨fun s => (normalSlug_slugPath s).slugPath_eq, fun s => ⟨fun h => ?_, fun h => ?_⟩,
    normalSlug_slugPath, fun ss => ?_⟩
  · exact h ▸ normalSlug_slugPath s
  · exact h.slugPath_eq
  · rw [slugPath_eq, slugSegments_join]
    exact intercalate_flatMap _ _ _ fun s _ seg hseg => (normalSegment_of_mem hseg).ne_nil

end Bypass
