import Bypass.Foundations.Text

/-!
# Traversal-safe relative paths

`RelPath` is the address of an entry, or of any blob, inside a storage (`path.rs`). It carries the
outcome of `RelPath::validate` as a field, so a path that escapes the store cannot be built. The
source calls `expect` where it takes a path for valid without a check; each such place is a path
built here with its proof, and a theorem that the checked constructor returns it.

* `validate_eq_ok`: what `validate` accepts, segment by segment.
* `RelPath.parent`, `RelPath.join`, `RelPath.fileName` and how they compose.
* `entryToBlob`, `blobToEntry`: an entry `email/work` is the blob `email/work.gpg`, one to one.
-/

namespace Bypass

/-! ## Validation -/

/-- `Error::InvalidPath`, one constructor for each of its messages. -/
inductive PathError where
  | empty
  | absolute (s : Str)
  | trailingSlash (s : Str)
  | containsNul (s : Str)
  | containsBackslash (s : Str)
  | emptySegment (s : Str)
  | dotSegment (segment s : Str)
  | joinContainsSlash (segment : Str)
  deriving DecidableEq

/-- The message; `debug` is the standard library's `{:?}` of a string. -/
def PathError.message (debug : Str → Str) : PathError → Str
  | empty => "path is empty".toList
  | absolute s => "path is absolute: ".toList ++ debug s
  | trailingSlash s => "path has trailing slash: ".toList ++ debug s
  | containsNul s => "path contains NUL: ".toList ++ debug s
  | containsBackslash s => "path contains backslash: ".toList ++ debug s
  | emptySegment s => "path has empty segment: ".toList ++ debug s
  | dotSegment segment s =>
    "path has `".toList ++ segment ++ "` segment: ".toList ++ debug s
  | joinContainsSlash segment => "join segment contains `/`: ".toList ++ debug segment

/-- A segment that is not empty, `.` or `..`. -/
def ValidSegment (seg : Str) : Prop := seg ≠ [] ∧ seg ≠ ['.'] ∧ seg ≠ ['.', '.']

/-- The loop of `validate` over the segments of `s`. -/
def validateSegments (s : Str) : List Str → Except PathError Unit
  | [] => .ok ()
  | seg :: rest =>
    if seg = [] then .error (.emptySegment s)
    else if seg = ['.'] ∨ seg = ['.', '.'] then .error (.dotSegment seg s)
    else validateSegments s rest

/-- `RelPath::validate`. -/
def validate (s : Str) : Except PathError Unit :=
  if s = [] then .error .empty
  else if s.head? = some '/' then .error (.absolute s)
  else if s.getLast? = some '/' then .error (.trailingSlash s)
  else if '\x00' ∈ s then .error (.containsNul s)
  else if '\\' ∈ s then .error (.containsBackslash s)
  else validateSegments s (s.splitOn '/')

theorem validateSegments_eq_ok {s : Str} {segs : List Str} :
    validateSegments s segs = .ok () ↔ ∀ seg ∈ segs, ValidSegment seg := by
  induction segs with
  | nil => simp [validateSegments]
  | cons seg rest ih =>
    rw [validateSegments, List.forall_mem_cons, ← ih, ValidSegment]
    split_ifs with h₁ h₂
    · simp [h₁]
    · simp only [false_iff, not_and]
      tauto
    · simp only [h₁, not_or.1 h₂, not_false_eq_true, ne_eq, and_self, true_and]

/-- **What `validate` accepts**: no NUL, no backslash, and no empty, `.` or `..` segment. -/
theorem validate_eq_ok {s : Str} :
    validate s = .ok () ↔ '\x00' ∉ s ∧ '\\' ∉ s ∧ ∀ seg ∈ s.splitOn '/', ValidSegment seg := by
  rw [validate]
  split_ifs with h₁ h₂ h₃ h₄ h₅
  · simp [h₁, ValidSegment]
  · obtain ⟨t, rfl⟩ : ∃ t, s = '/' :: t := by
      cases s with
      | nil => simp at h₁
      | cons c t => exact ⟨t, by simpa using h₂⟩
    simp [List.splitOn_cons_eq_if_modifyHead, ValidSegment]
  · obtain ⟨t, rfl⟩ := List.getLast?_eq_some_iff.1 h₃
    simp [List.splitOn_append_cons_self, ValidSegment]
  · simp [h₄]
  · simp [h₅]
  · simp [h₄, h₅, validateSegments_eq_ok]

/-- Appending a suffix without separators that does not end in a dot keeps a path valid. -/
theorem validate_append {s t : Str} (hs : validate s = .ok ()) (ht : t ≠ [])
    (hdot : t.getLast? ≠ some '.') (hsep : ∀ c ∈ t, c ≠ '/' ∧ c ≠ '\\' ∧ c ≠ '\x00') :
    validate (s ++ t) = .ok () := by
  obtain ⟨hn, hb, hseg⟩ := validate_eq_ok.1 hs
  obtain ⟨l, x, hl, hl'⟩ := splitOn_append_of_not_mem (s := s) fun h => (hsep '/' h).1 rfl
  have hn' : '\x00' ∉ t := fun h => (hsep _ h).2.2 rfl
  have hb' : '\\' ∉ t := fun h => (hsep _ h).2.1 rfl
  refine validate_eq_ok.2 ⟨by simp [hn, hn'], by simp [hb, hb'], ?_⟩
  have hlast : (x ++ t).getLast? ≠ some '.' := by
    rwa [List.getLast?_append_of_ne_nil _ ht]
  rw [hl']
  intro seg hmem
  rcases List.mem_append.1 hmem with hm | hm
  · exact hseg seg (by rw [hl]; exact List.mem_append_left _ hm)
  · obtain rfl := List.mem_singleton.1 hm
    refine ⟨by simp [ht], fun h => ?_, fun h => ?_⟩ <;> simp [h] at hlast

/-! ## Paths -/

/-- A path relative to the store root, valid by construction. -/
structure RelPath where
  str : Str
  valid : validate str = .ok ()

namespace RelPath

@[ext] theorem ext {p q : RelPath} (h : p.str = q.str) : p = q := by
  cases p
  cases q
  cases h
  rfl

theorem str_injective : Function.Injective str := fun _ _ => ext

instance : DecidableEq RelPath := fun p q =>
  decidable_of_iff (p.str = q.str) RelPath.ext_iff.symm

/-- Paths are ordered as their strings are. -/
instance : Ord RelPath := ⟨fun p q => compare p.str q.str⟩

instance : Std.TransOrd RelPath where
  eq_swap {p q} := @Std.OrientedCmp.eq_swap Str compare _ p.str q.str
  isLE_trans {p q r} := @Std.TransCmp.isLE_trans Str compare _ p.str q.str r.str

instance : Std.LawfulEqOrd RelPath where
  compare_self {p} := @Std.ReflCmp.compare_self Str compare _ p.str
  eq_of_compare {p q} h := ext (@Std.LawfulEqCmp.eq_of_compare Str compare _ p.str q.str h)

/-- `RelPath::new`. -/
def new (s : Str) : Except PathError RelPath :=
  match h : validate s with
  | .ok () => .ok ⟨s, h⟩
  | .error e => .error e

theorem new_of_valid {s : Str} (h : validate s = .ok ()) : new s = .ok ⟨s, h⟩ := by
  rw [new]
  split
  · rfl
  · next e he => simp [h] at he

theorem new_eq_ok {s : Str} {p : RelPath} : new s = .ok p ↔ p.str = s := by
  constructor
  · intro h
    rw [new] at h
    split at h
    · cases h
      rfl
    · cases h
  · rintro rfl
    exact new_of_valid p.valid

theorem str_ne_nil (p : RelPath) : p.str ≠ [] := fun h => by
  have := p.valid
  rw [h] at this
  cases this

/-- A valid path does not end in a separator. -/
theorem getLast?_ne_slash (p : RelPath) : p.str.getLast? ≠ some '/' := fun h => by
  obtain ⟨t, ht⟩ := List.getLast?_eq_some_iff.1 h
  have := (validate_eq_ok.1 p.valid).2.2 [] (by simp [ht, List.splitOn_append_cons_self])
  exact this.1 rfl

/-- `RelPath::segments`. -/
def segments (p : RelPath) : List Str := p.str.splitOn '/'

/-- `RelPath::parent`: everything before the last separator, or nothing for a top-level entry. -/
def parent (p : RelPath) : Option RelPath :=
  match h : rsplitOnce '/' p.str with
  | none => none
  | some (head, _) => some ⟨head, by
      obtain ⟨hp, -⟩ := rsplitOnce_eq_some.1 h
      have hv := validate_eq_ok.1 p.valid
      simp only [hp, mem_splitOn_append, List.mem_append, not_or] at hv
      exact validate_eq_ok.2 ⟨hv.1.1, hv.2.1.1, fun seg hs => hv.2.2 seg (Or.inl hs)⟩⟩

/-- `RelPath::file_name`: the last segment. -/
def fileName (p : RelPath) : Str :=
  match rsplitOnce '/' p.str with
  | some (_, tail) => tail
  | none => p.str

/-- `RelPath::join`. -/
def join (p : RelPath) (segment : Str) : Except PathError RelPath :=
  if '/' ∈ segment then .error (.joinContainsSlash segment)
  else new (p.str ++ '/' :: segment)

theorem parent_eq_none {p : RelPath} : p.parent = none ↔ '/' ∉ p.str := by
  rw [parent, ← rsplitOnce_eq_none]
  split <;> simp_all

theorem parent_eq_some {p q : RelPath} :
    p.parent = some q ↔ ∃ t, p.str = q.str ++ '/' :: t ∧ '/' ∉ t := by
  rw [parent]
  split
  · next h =>
    have := rsplitOnce_eq_none.1 h
    simp only [reduceCtorEq, false_iff, not_exists, not_and]
    rintro t ht
    simp [ht] at this
  · next head tail h =>
    simp only [Option.some.injEq, RelPath.ext_iff]
    constructor
    · rintro rfl
      exact ⟨tail, rsplitOnce_eq_some.1 h⟩
    · rintro ⟨t, ht⟩
      have := rsplitOnce_eq_some.2 ht
      rw [h] at this
      simp only [Option.some.injEq, Prod.mk.injEq] at this
      exact this.1

/-- The walk from an entry up to the root ends. -/
theorem length_parent_lt {p q : RelPath} (h : p.parent = some q) : q.str.length < p.str.length := by
  obtain ⟨t, ht, -⟩ := parent_eq_some.1 h
  simp [ht]

/-- A joined segment is the file name of the path it makes, whose parent is the path joined to. -/
theorem parent_fileName_join {p q : RelPath} {segment : Str} (h : p.join segment = .ok q) :
    q.parent = some p ∧ q.fileName = segment := by
  rw [join] at h
  split_ifs at h with hs
  have hq := new_eq_ok.1 h
  refine ⟨parent_eq_some.2 ⟨segment, hq, hs⟩, ?_⟩
  rw [fileName, rsplitOnce_eq_some.2 ⟨hq, hs⟩]

/-- `q` lies strictly below `p`. -/
def Below (p q : RelPath) : Prop := (p.str ++ ['/']) <+: q.str

instance (p q : RelPath) : Decidable (Below p q) :=
  inferInstanceAs (Decidable ((p.str ++ ['/']) <+: q.str))

end RelPath

/-! ## The names of the store's files -/

theorem validate_gpg_id : validate ".gpg-id".toList = .ok () := by decide

/-- `gpg_id_path`: the recipients file at the store root. -/
def gpgIdPath : RelPath := ⟨".gpg-id".toList, validate_gpg_id⟩

/-- `gitattributes_path`. -/
def gitattributesPath : RelPath := ⟨".gitattributes".toList, by decide⟩

/-- The recipients file in the directory `dir`, or at the root. -/
def gpgIdIn : Option RelPath → RelPath
  | none => gpgIdPath
  | some p => ⟨p.str ++ '/' :: ".gpg-id".toList, by
      have hp := validate_eq_ok.1 p.valid
      refine validate_eq_ok.2 ⟨by simp [hp.1], by simp [hp.2.1], fun seg hs => ?_⟩
      rcases mem_splitOn_append.1 hs with hs | hs
      · exact hp.2.2 seg hs
      · rw [List.splitOn_eq_singleton (by decide), List.mem_singleton] at hs
        subst hs
        exact ⟨by decide, by decide, by decide⟩⟩

/-- `p.join(".gpg-id")` does not fail. -/
theorem join_gpg_id (p : RelPath) : p.join ".gpg-id".toList = .ok (gpgIdIn (some p)) := by
  rw [RelPath.join, if_neg (by decide)]
  exact RelPath.new_eq_ok.2 rfl

/-- `entry_to_blob`: the blob that holds an entry. -/
def entryToBlob (entry : RelPath) : RelPath :=
  ⟨entry.str ++ ".gpg".toList, validate_append entry.valid (by simp) (by simp) (by simp)⟩

/-- Appending `.gpg` to a valid path does not fail. -/
theorem new_append_gpg (entry : RelPath) :
    RelPath.new (entry.str ++ ".gpg".toList) = .ok (entryToBlob entry) :=
  RelPath.new_eq_ok.2 rfl

/-- `blob_to_entry`: the entry held by a blob, if it is the blob of one. -/
def blobToEntry (blob : RelPath) : Option RelPath :=
  match stripSuffix blob.str ".gpg".toList with
  | none => none
  | some stem => (RelPath.new stem).toOption

@[simp] theorem str_entryToBlob (e : RelPath) : (entryToBlob e).str = e.str ++ ".gpg".toList := rfl

theorem entryToBlob_injective : Function.Injective entryToBlob := fun e f h => by
  have := congrArg RelPath.str h
  exact RelPath.ext (List.append_cancel_right this)

@[simp] theorem entryToBlob_inj {e f : RelPath} : entryToBlob e = entryToBlob f ↔ e = f :=
  entryToBlob_injective.eq_iff

/-- **Entries and their blobs correspond one to one.** -/
theorem blobToEntry_eq_some {b e : RelPath} : blobToEntry b = some e ↔ b = entryToBlob e := by
  rw [blobToEntry]
  constructor
  · intro h
    split at h
    · cases h
    · next stem hs =>
      cases hn : RelPath.new stem with
      | error _ => simp [hn, Except.toOption] at h
      | ok p =>
        obtain rfl : p = e := by simpa [hn, Except.toOption] using h
        exact RelPath.ext ((stripSuffix_eq_some.1 hs).trans (by rw [← RelPath.new_eq_ok.1 hn]; rfl))
  · rintro rfl
    have hs : stripSuffix (entryToBlob e).str ".gpg".toList = some e.str :=
      stripSuffix_eq_some.2 rfl
    simp only [hs, RelPath.new_of_valid e.valid, Except.toOption]

@[simp] theorem blobToEntry_entryToBlob (e : RelPath) : blobToEntry (entryToBlob e) = some e :=
  blobToEntry_eq_some.2 rfl

/-- A recipients file is not the blob of an entry. -/
theorem gpgIdIn_ne_entryToBlob (d : Option RelPath) (e : RelPath) : gpgIdIn d ≠ entryToBlob e := by
  intro h
  have hs : (gpgIdIn d).str.getLast? = some 'd' := by
    cases d with
    | none => decide
    | some p => simp [gpgIdIn]
  simp [h] at hs

/-- `.gitattributes` is not the blob of an entry. -/
theorem gitattributesPath_ne_entryToBlob (e : RelPath) : gitattributesPath ≠ entryToBlob e := by
  intro h
  have hs : gitattributesPath.str.getLast? = some 's' := by decide
  simp [h] at hs

/-- A blob lies below `p` when its entry does. -/
theorem below_entryToBlob {p e : RelPath} : p.Below (entryToBlob e) ↔ p.Below e := by
  refine ⟨fun h => ?_, fun h => h.trans (List.prefix_append _ _)⟩
  obtain ⟨w, hw⟩ := h
  rcases List.append_eq_append_iff.1 hw with ⟨t, ht, -⟩ | ⟨t, ht, hgpg⟩
  · exact ⟨t, ht.symm⟩
  · -- the separator that ends `p/` is not the end of `e`, and there is none in `.gpg`
    exfalso
    have hlast : (e.str ++ t).getLast? = some '/' := by simp [← ht]
    rcases List.eq_nil_or_concat t with rfl | ⟨t', c, rfl⟩
    · exact e.getLast?_ne_slash (by simpa using hlast)
    · obtain rfl : c = '/' := by simpa using hlast
      have hm : '/' ∈ ".gpg".toList := by simp [hgpg]
      simp at hm

/-! ## Some paths -/

theorem validate_a : validate "a".toList = .ok () := by decide

theorem validate_b : validate "b".toList = .ok () := by decide

theorem validate_c : validate "c".toList = .ok () := by decide

theorem validate_a_b : validate "a/b".toList = .ok () := by decide

theorem validate_web : validate "web".toList = .ok () := by decide

theorem validate_web_a : validate "web/a".toList = .ok () := by decide

theorem validate_web_b : validate "web/b".toList = .ok () := by decide

theorem validate_mail : validate "mail".toList = .ok () := by decide

theorem validate_a_gpg : validate "a.gpg".toList = .ok () := by decide

theorem validate_git : validate ".git".toList = .ok () := by decide

end Bypass
