import Bypass.Core.Path
import Bypass.Foundations.Joins
import Bypass.Foundations.Utf8

/-!
# Paths on disk

On disk a name is a byte string, which need not be well-formed UTF-8. A path of the store is the
list of the names of its segments.

* `RelPath.bytes`, `RelPath.ofBytes`: a path as one byte string.
* `FileName`, `RelPath.names`: as a list of names.
* `RelPath.names_eq_iff`, `RelPath.below_iff_names`: **the names tell the path**, and what is below
  it.
-/

namespace Bypass

/-! ## Bytes -/

/-- The name of a path, on disk and in trees. -/
def RelPath.bytes (p : RelPath) : Bytes := utf8Encode p.str

theorem RelPath.bytes_injective : Function.Injective RelPath.bytes :=
  utf8Encode_injective.comp RelPath.str_injective

@[simp] theorem RelPath.bytes_inj {p q : RelPath} : p.bytes = q.bytes ↔ p = q :=
  RelPath.bytes_injective.eq_iff

/-- The path of a name, if it is one. -/
def RelPath.ofBytes (b : Bytes) : Option RelPath :=
  (utf8Decode? b).bind fun s =>
    if h : validate s = .ok () ∧ utf8Encode s = b then some ⟨s, h.1⟩ else none

theorem RelPath.ofBytes_eq_some {b : Bytes} {p : RelPath} :
    RelPath.ofBytes b = some p ↔ p.bytes = b := by
  rw [RelPath.ofBytes, Option.bind_eq_some_iff]
  constructor
  · rintro ⟨s, -, hs⟩
    split at hs
    · next h =>
      cases hs
      exact h.2
    · cases hs
  · rintro rfl
    exact ⟨p.str, utf8Decode?_encode p.str, dif_pos ⟨p.valid, rfl⟩⟩

/-! ## Names -/

/-- No separator, and no NUL. -/
def NoSeparator (b : Bytes) : Prop := 0x2f ∉ b ∧ 0 ∉ b

instance (b : Bytes) : Decidable (NoSeparator b) := inferInstanceAs (Decidable (_ ∧ _))

theorem noSeparator_append {b b' : Bytes} :
    NoSeparator (b ++ b') ↔ NoSeparator b ∧ NoSeparator b' := by
  simp only [NoSeparator, List.mem_append, not_or]
  tauto

theorem noSeparator_utf8Encode {s : Str} : NoSeparator (utf8Encode s) ↔ '/' ∉ s ∧ '\x00' ∉ s :=
  and_congr (not_congr (mem_utf8Encode (by decide))) (not_congr (mem_utf8Encode (by decide)))

/-- What is replaced is no separator. -/
theorem NoSeparator.utf8Lossy {b : Bytes} (h : NoSeparator b) :
    '/' ∉ utf8Lossy b ∧ '\x00' ∉ utf8Lossy b :=
  ⟨fun hmem => h.1 (mem_of_mem_utf8Lossy (b := 0x2f) (by decide) hmem),
    fun hmem => h.2 (mem_of_mem_utf8Lossy (b := 0) (by decide) hmem)⟩

/-- What can be a name in a directory. -/
def ValidName (b : Bytes) : Prop := b ≠ [] ∧ b ≠ [0x2e] ∧ b ≠ [0x2e, 0x2e] ∧ NoSeparator b

instance (b : Bytes) : Decidable (ValidName b) := inferInstanceAs (Decidable (_ ∧ _))

/-- What is longer than `..` need only have no separator. -/
theorem NoSeparator.validName {b : Bytes} (h : NoSeparator b) (hlen : 2 < b.length) :
    ValidName b := by
  refine ⟨?_, ?_, ?_, h⟩ <;>
  · rintro rfl
    simp at hlen

/-- A name in a directory. -/
structure FileName where
  bytes : Bytes
  valid : ValidName bytes

namespace FileName

@[ext] theorem ext {m n : FileName} (h : m.bytes = n.bytes) : m = n := by
  cases m
  cases n
  cases h
  rfl

theorem bytes_injective : Function.Injective bytes := fun _ _ => ext

instance : DecidableEq FileName := fun m n =>
  decidable_of_iff (m.bytes = n.bytes) FileName.ext_iff.symm

/-- Names are ordered as their bytes are. -/
instance : Ord FileName := ⟨fun m n => compare m.bytes n.bytes⟩

instance : Std.TransOrd FileName where
  eq_swap {m n} := @Std.OrientedCmp.eq_swap Bytes compare _ m.bytes n.bytes
  isLE_trans {m n o} := @Std.TransCmp.isLE_trans Bytes compare _ m.bytes n.bytes o.bytes

instance : Std.LawfulEqOrd FileName where
  compare_self {m} := @Std.ReflCmp.compare_self Bytes compare _ m.bytes
  eq_of_compare {m n} h := ext (@Std.LawfulEqCmp.eq_of_compare Bytes compare _ m.bytes n.bytes h)

end FileName

/-- A path of names, as one byte string. -/
def joinNames (l : List FileName) : Bytes := [0x2f].intercalate (l.map FileName.bytes)

theorem joinNames_append {l l' : List FileName} (h : l ≠ []) (h' : l' ≠ []) :
    joinNames (l ++ l') = joinNames l ++ 0x2f :: joinNames l' := by
  rw [joinNames, List.map_append, intercalate_append [0x2f] (by simpa using h) (by simpa using h'),
    List.append_assoc, List.singleton_append]
  rfl

theorem joinNames_eq_nil {l : List FileName} : joinNames l = [] ↔ l = [] := by
  rw [joinNames, intercalate_eq_nil, List.map_eq_nil_iff]
  intro b hb
  obtain ⟨n, -, rfl⟩ := List.mem_map.1 hb
  exact n.valid.1

theorem splitOn_joinNames {l : List FileName} (h : l ≠ []) :
    (joinNames l).splitOn 0x2f = l.map FileName.bytes := by
  rw [joinNames, List.splitOn_intercalate]
  · intro b hb
    obtain ⟨n, -, rfl⟩ := List.mem_map.1 hb
    exact n.valid.2.2.2.1
  · simpa using h

/-- Names are told apart when they are joined. -/
theorem joinNames_injective : Function.Injective joinNames := by
  intro l l' h
  by_cases hl : l = []
  · rw [hl] at h ⊢
    exact (joinNames_eq_nil.1 h.symm).symm
  · have hl' : l' ≠ [] := fun hnil => by
      rw [hnil] at h
      exact hl (joinNames_eq_nil.1 h)
    apply List.map_injective_iff.2 FileName.bytes_injective
    rw [← splitOn_joinNames hl, h, splitOn_joinNames hl']

/-! ## Names of paths -/

/-- A segment of a path is a name. -/
theorem ValidSegment.validName {seg : Str} (h : ValidSegment seg)
    (hsep : '/' ∉ seg ∧ '\x00' ∉ seg) : ValidName (utf8Encode seg) := by
  have hne {t : Str} (ht : seg ≠ t) : utf8Encode seg ≠ utf8Encode t := fun heq =>
    ht (utf8Encode_injective heq)
  exact ⟨hne h.1, hne h.2.1, hne h.2.2, noSeparator_utf8Encode.2 hsep⟩

namespace RelPath

/-- A path is made of its segments. -/
theorem join_segments (p : RelPath) : ['/'].intercalate p.segments = p.str :=
  List.intercalate_splitOn '/'

theorem segment_valid (p : RelPath) :
    ∀ seg ∈ p.segments, ValidSegment seg ∧ '/' ∉ seg ∧ '\x00' ∉ seg := by
  intro seg hseg
  obtain ⟨hnul, -, hsegs⟩ := validate_eq_ok.1 p.valid
  refine ⟨hsegs seg hseg, not_mem_of_mem_splitOn hseg, fun hmem => hnul ?_⟩
  rw [← p.join_segments]
  exact mem_intercalate_of_mem hseg hmem

/-- The names of a path on disk, one for each segment. -/
def names (p : RelPath) : List FileName :=
  p.segments.pmap (fun seg h => ⟨utf8Encode seg, h.1.validName h.2⟩) p.segment_valid

theorem map_bytes_names (p : RelPath) : p.names.map FileName.bytes = p.segments.map utf8Encode := by
  rw [names, List.map_pmap, List.pmap_eq_map]

theorem names_ne_nil (p : RelPath) : p.names ≠ [] := by
  intro h
  have hmap := p.map_bytes_names
  rw [h, List.map_nil, eq_comm, List.map_eq_nil_iff] at hmap
  exact List.splitOn_ne_nil _ _ hmap

/-- `Path::file_name` of a path on disk. -/
def leaf (p : RelPath) : FileName := p.names.getLast p.names_ne_nil

theorem dropLast_append_leaf (p : RelPath) : p.names.dropLast ++ [p.leaf] = p.names :=
  List.dropLast_append_getLast p.names_ne_nil

@[simp] theorem joinNames_names (p : RelPath) : joinNames p.names = p.bytes := by
  rw [joinNames, map_bytes_names, bytes, ← utf8Encode_intercalate, segments, List.intercalate_splitOn]

/-- **The names tell the path.** -/
theorem names_eq_iff {p : RelPath} {l : List FileName} : p.names = l ↔ p.bytes = joinNames l := by
  rw [← joinNames_names, joinNames_injective.eq_iff]

theorem names_injective : Function.Injective names := fun _ q h =>
  bytes_injective ((names_eq_iff.1 h).trans q.joinNames_names)

theorem map_bytes_dropLast (p : RelPath) :
    p.names.dropLast.map FileName.bytes = p.segments.dropLast.map utf8Encode := by
  rw [List.map_dropLast, map_bytes_names, List.map_dropLast]

theorem dropLast_append_fileName (p : RelPath) : p.segments.dropLast ++ [p.fileName] = p.segments := by
  rw [segments, fileName]
  cases h : rsplitOnce '/' p.str with
  | none =>
    rw [List.splitOn_eq_singleton (rsplitOnce_eq_none.1 h), List.dropLast_singleton,
      List.nil_append]
  | some parts =>
    obtain ⟨head, tail⟩ := parts
    obtain ⟨hstr, htail⟩ := rsplitOnce_eq_some.1 h
    rw [hstr, splitOn_append_last htail, List.dropLast_concat]

theorem fileName_noSeparator (p : RelPath) :
    '/' ∉ p.fileName ∧ '\x00' ∉ p.fileName ∧ '\\' ∉ p.fileName := by
  have hmem : p.fileName ∈ p.segments := by
    rw [← p.dropLast_append_fileName]
    simp
  obtain ⟨-, hslash, hnul⟩ := p.segment_valid p.fileName hmem
  refine ⟨hslash, hnul, fun hback => (validate_eq_ok.1 p.valid).2.1 ?_⟩
  rw [← p.join_segments]
  exact mem_intercalate_of_mem hmem hback

/-- The name of a path is that of its last segment. -/
theorem leaf_bytes (p : RelPath) : p.leaf.bytes = utf8Encode p.fileName := by
  have hmap := p.map_bytes_names
  rw [← p.dropLast_append_leaf, ← p.dropLast_append_fileName, List.map_append, List.map_append] at hmap
  have hlast := congrArg List.getLast? hmap
  rw [List.map_singleton, List.map_singleton, List.getLast?_concat, List.getLast?_concat] at hlast
  exact Option.some.inj hlast

/-- Another file in the directory of a path. -/
theorem exists_sibling (p : RelPath) {seg : Str} (h : ValidSegment seg) (hslash : '/' ∉ seg)
    (hnul : '\x00' ∉ seg) (hback : '\\' ∉ seg) : ∃ q : RelPath,
      q.segments = p.segments.dropLast ++ [seg] := by
  have hsegs : ∀ s ∈ p.segments.dropLast ++ [seg], ValidSegment s ∧ '/' ∉ s ∧ '\x00' ∉ s := by
    intro s hs
    rcases List.mem_append.1 hs with hs | hs
    · exact p.segment_valid s (List.mem_of_mem_dropLast hs)
    · rw [List.mem_singleton.1 hs]
      exact ⟨h, hslash, hnul⟩
  have hsplit : (['/'].intercalate (p.segments.dropLast ++ [seg])).splitOn '/' =
      p.segments.dropLast ++ [seg] :=
    List.splitOn_intercalate '/' (fun s hs => (hsegs s hs).2.1) (by simp)
  refine ⟨⟨['/'].intercalate (p.segments.dropLast ++ [seg]), validate_eq_ok.2 ⟨?_, ?_, ?_⟩⟩, hsplit⟩
  · intro hmem
    rcases mem_of_mem_intercalate hmem with hmem | ⟨s, hs, hmem⟩
    · simp at hmem
    · exact (hsegs s hs).2.2 hmem
  · intro hmem
    rcases mem_of_mem_intercalate hmem with hmem | ⟨s, hs, hmem⟩
    · simp at hmem
    · rcases List.mem_append.1 hs with hs | hs
      · refine (validate_eq_ok.1 p.valid).2.1 ?_
        rw [← p.join_segments]
        exact mem_intercalate_of_mem (List.mem_of_mem_dropLast hs) hmem
      · rw [List.mem_singleton.1 hs] at hmem
        exact hback hmem
  · rw [hsplit]
    exact fun s hs => (hsegs s hs).1

/-- A name beside a path, and a path beside it. -/
theorem names_sibling {p q : RelPath} {n : FileName} {seg : Str} (hn : n.bytes = utf8Encode seg) :
    q.names = p.names.dropLast ++ [n] ↔ q.segments = p.segments.dropLast ++ [seg] := by
  have hleft : q.names = p.names.dropLast ++ [n] ↔
      q.segments.map utf8Encode = (p.segments.dropLast ++ [seg]).map utf8Encode := by
    rw [← q.map_bytes_names, List.map_append, ← p.map_bytes_dropLast, List.map_singleton, ← hn,
      ← List.map_singleton, ← List.map_append,
      (List.map_injective_iff.2 FileName.bytes_injective).eq_iff]
  rw [hleft, (List.map_injective_iff.2 utf8Encode_injective).eq_iff]

/-- The blob of an entry has its segments, and a suffix. -/
theorem segments_entryToBlob (e : RelPath) :
    (entryToBlob e).segments = e.segments.dropLast ++ [e.fileName ++ ".gpg".toList] := by
  obtain ⟨l, x, hl, hblob⟩ := splitOn_append_of_not_mem (s := e.str) (t := ".gpg".toList) (c := '/')
    (by decide)
  have hsegs := e.dropLast_append_fileName
  rw [segments, hl, List.dropLast_concat] at hsegs
  have hlast : e.fileName = x := by
    have hinj := List.append_inj_right' hsegs rfl
    exact List.singleton_inj.1 hinj
  rw [segments, segments, str_entryToBlob, hl, hblob, List.dropLast_concat, hlast]

theorem segments_ne_nil (p : RelPath) : p.segments ≠ [] := List.splitOn_ne_nil _ _

/-- What is below a path has its segments first. -/
theorem below_iff_segments {p q : RelPath} :
    p.Below q ↔ ∃ l, l ≠ [] ∧ q.segments = p.segments ++ l := by
  constructor
  · rintro ⟨w, hw⟩
    refine ⟨w.splitOn '/', List.splitOn_ne_nil _ _, ?_⟩
    rw [segments, ← hw, List.append_assoc, List.singleton_append, List.splitOn_append_cons_self]
    rfl
  · rintro ⟨l, hl, hsegs⟩
    refine ⟨['/'].intercalate l, ?_⟩
    rw [← p.join_segments, ← q.join_segments, hsegs, intercalate_append _ p.segments_ne_nil hl]

/-- **What is below a path** has its names first. -/
theorem below_iff_names {p q : RelPath} : p.Below q ↔ ∃ l, l ≠ [] ∧ q.names = p.names ++ l := by
  rw [below_iff_segments]
  constructor
  · rintro ⟨segs, hne, hsegs⟩
    have hmap := q.map_bytes_names
    rw [hsegs, List.map_append, ← map_bytes_names] at hmap
    obtain ⟨l₁, l₂, hnames, h₁, h₂⟩ := List.map_eq_append_iff.1 hmap
    obtain rfl := List.map_injective_iff.2 FileName.bytes_injective h₁
    refine ⟨l₂, fun hnil => ?_, hnames⟩
    rw [hnil, List.map_nil, eq_comm, List.map_eq_nil_iff] at h₂
    exact hne h₂
  · rintro ⟨l, hl, hnames⟩
    have hmap := q.map_bytes_names
    rw [hnames, List.map_append, map_bytes_names, eq_comm] at hmap
    obtain ⟨s₁, s₂, hsegs, h₁, h₂⟩ := List.map_eq_append_iff.1 hmap
    obtain rfl := List.map_injective_iff.2 utf8Encode_injective h₁
    refine ⟨s₂, fun hnil => ?_, hsegs⟩
    rw [hnil, List.map_nil, eq_comm, List.map_eq_nil_iff] at h₂
    exact hl h₂

end RelPath

/-! ## Below a root -/

/-- The directory of a path below a root. -/
def parentOf (root : List FileName) (p : RelPath) : List FileName := root ++ p.names.dropLast

/-- Where a listing below a root starts. -/
def startOf (root : List FileName) (dir : Option RelPath) : List FileName :=
  root ++ dir.elim [] RelPath.names

variable {root : List FileName} {p : RelPath}

theorem parentOf_append_leaf : parentOf root p ++ [p.leaf] = root ++ p.names := by
  rw [parentOf, List.append_assoc, p.dropLast_append_leaf]

theorem dropLast_append_names : (root ++ p.names).dropLast = parentOf root p := by
  rw [← parentOf_append_leaf, List.dropLast_concat]

end Bypass
