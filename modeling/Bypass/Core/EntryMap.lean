import Bypass.Core.Run

/-!
# A store as a map

What a store is for, with nothing of how it does it: a finite map from entries to plaintexts. The
operations are those of the store (`EntryMap.step`); their errors are that an entry is missing, or
in the way.

* `EntryMap.step_frame`: an operation changes the entries it names only.
* `EntryMap.entriesBelow_sorted`, `EntryMap.mem_entriesBelow`: listing is the sorted key set.
-/

namespace Bypass

/-- A finite map from entries to plaintexts. -/
abbrev EntryMap := Std.ExtTreeMap RelPath Bytes compare

/-- The errors of the map's operations. -/
inductive MapError where
  | notFound (entry : Str)
  | alreadyExists (entry : Str)
  deriving DecidableEq

/-- The same error, as the store reports it. -/
def MapError.toStore {CE SE VE : Type} : MapError → StoreError CE SE VE
  | .notFound entry => .notFound entry
  | .alreadyExists entry => .alreadyExists entry

namespace EntryMap

/-- The entries below a directory, or all of them, in order. -/
def entriesBelow (m : EntryMap) (subpath : Option RelPath) : List RelPath :=
  m.keys.filter fun e => subpath.all fun p => decide (p.Below e)

/-- Delete a list of entries. -/
def eraseAll (m : EntryMap) (entries : List RelPath) : EntryMap := entries.foldl (·.erase ·) m

/-- Put the plaintext of `source` at `dest`: a destination in the way is reported before a missing
source. -/
def transfer (m : EntryMap) (source dest : RelPath) (overwrite : Bool) : Except MapError EntryMap :=
  if !overwrite && m.contains dest then .error (.alreadyExists dest.str)
  else match m[source]? with
    | none => .error (.notFound source.str)
    | some plaintext => .ok (m.insert dest plaintext)

/-- An operation on the map: its result, and the map after it. -/
def step (m : EntryMap) : Op → Except MapError Output × EntryMap
  | .insert entry plaintext overwrite =>
    if !overwrite && m.contains entry then (.error (.alreadyExists entry.str), m)
    else (.ok .unit, m.insert entry plaintext)
  | .insertNoCommit entry plaintext => (.ok (.path (entryToBlob entry)), m.insert entry plaintext)
  | .show entry =>
    match m[entry]? with
    | none => (.error (.notFound entry.str), m)
    | some plaintext => (.ok (.plaintext plaintext), m)
  | .list subpath => (.ok (.entries (m.entriesBelow subpath)), m)
  | .find pattern =>
    (.ok (.entries ((m.entriesBelow none).filter fun e => decide (pattern <:+: e.str))), m)
  | .remove entry =>
    if m.contains entry then (.ok .unit, m.erase entry) else (.error (.notFound entry.str), m)
  | .copy source dest overwrite =>
    match m.transfer source dest overwrite with
    | .error e => (.error e, m)
    | .ok m' => (.ok .unit, m')
  | .rename source dest overwrite =>
    if source = dest then (.ok .unit, m)
    else match m.transfer source dest overwrite with
      | .error e => (.error e, m)
      | .ok m' => (.ok .unit, m'.erase source)
  | .removeRecursive dir =>
    if m.entriesBelow (some dir) = [] then (.error (.notFound dir.str), m)
    else (.ok (.entries (m.entriesBelow (some dir))), m.eraseAll (m.entriesBelow (some dir)))

/-- A sequence of operations on the map. -/
def steps (m : EntryMap) : List Op → List (Except MapError Output) × EntryMap
  | [] => ([], m)
  | op :: ops => ((m.step op).1 :: (steps (m.step op).2 ops).1, (steps (m.step op).2 ops).2)

/-! ## Listing -/

theorem mem_entriesBelow {m : EntryMap} {subpath : Option RelPath} {e : RelPath} :
    e ∈ m.entriesBelow subpath ↔ e ∈ m ∧ ∀ p ∈ subpath, p.Below e := by
  rw [entriesBelow, List.mem_filter, Std.ExtTreeMap.mem_keys]
  cases subpath <;> simp

/-- **Listing is sorted**, strictly: no entry comes twice. -/
theorem entriesBelow_sorted (m : EntryMap) (subpath : Option RelPath) :
    (m.entriesBelow subpath).Pairwise fun e f => compare e f = .lt :=
  m.ordered_keys.filter _

theorem entriesBelow_nodup (m : EntryMap) (subpath : Option RelPath) :
    (m.entriesBelow subpath).Nodup :=
  m.nodup_keys.filter _

/-! ## Frame -/

/-- An operation names an entry: as an argument, or as one below the directory it removes. -/
def Names (op : Op) (e : RelPath) : Prop :=
  match op with
  | .insert entry _ _ => e = entry
  | .insertNoCommit entry _ => e = entry
  | .remove entry => e = entry
  | .copy _ dest _ => e = dest
  | .rename source dest _ => e = source ∨ e = dest
  | .removeRecursive dir => dir.Below e
  | .show _ => False
  | .list _ => False
  | .find _ => False

theorem getElem?_insert_of_ne {m : EntryMap} {e k : RelPath} {p : Bytes} (h : e ≠ k) :
    (m.insert k p)[e]? = m[e]? := by
  rw [Std.ExtTreeMap.getElem?_insert, if_neg]
  exact fun hk => h (Std.LawfulEqOrd.eq_of_compare hk).symm

theorem getElem?_erase_of_ne {m : EntryMap} {e k : RelPath} (h : e ≠ k) :
    (m.erase k)[e]? = m[e]? := by
  rw [Std.ExtTreeMap.getElem?_erase, if_neg]
  exact fun hk => h (Std.LawfulEqOrd.eq_of_compare hk).symm

theorem getElem?_eraseAll {m : EntryMap} {entries : List RelPath} {e : RelPath} :
    (m.eraseAll entries)[e]? = if e ∈ entries then none else m[e]? := by
  induction entries generalizing m with
  | nil => rfl
  | cons k ks ih =>
    have hstep : m.eraseAll (k :: ks) = eraseAll (m.erase k) ks := rfl
    rw [hstep, ih]
    by_cases hks : e ∈ ks
    · simp [hks]
    · by_cases hk : e = k
      · simp [hk]
      · simp [hks, hk, getElem?_erase_of_ne hk]

theorem transfer_frame {m m' : EntryMap} {source dest e : RelPath} {overwrite : Bool}
    (h : m.transfer source dest overwrite = .ok m') (hne : e ≠ dest) : m'[e]? = m[e]? := by
  unfold transfer at h
  split at h
  · cases h
  · split at h
    · cases h
    · cases h
      exact getElem?_insert_of_ne hne

/-- **An operation changes the entries it names only.** -/
theorem step_frame (m : EntryMap) (op : Op) {e : RelPath} (he : ¬ Names op e) :
    (m.step op).2[e]? = m[e]? := by
  cases op with
  | insert entry plaintext overwrite =>
    simp only [step]
    split
    · rfl
    · exact getElem?_insert_of_ne he
  | insertNoCommit entry plaintext => exact getElem?_insert_of_ne he
  | «show» entry =>
    simp only [step]
    split <;> rfl
  | list subpath => rfl
  | find pattern => rfl
  | remove entry =>
    simp only [step]
    split
    · exact getElem?_erase_of_ne he
    · rfl
  | copy source dest overwrite =>
    simp only [step]
    split
    · rfl
    · next h => exact transfer_frame h he
  | rename source dest overwrite =>
    have hne : e ≠ source ∧ e ≠ dest := not_or.1 he
    simp only [step]
    split
    · rfl
    · split
      · rfl
      · next h => rw [getElem?_erase_of_ne hne.1, transfer_frame h hne.2]
  | removeRecursive dir =>
    have hmem : e ∉ m.entriesBelow (some dir) := fun hm => he ((mem_entriesBelow.1 hm).2 dir rfl)
    simp only [step]
    split
    · rfl
    · rw [getElem?_eraseAll, if_neg hmem]

end EntryMap

end Bypass
