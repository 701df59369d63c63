import Mathlib

/-!
# Strings and their bytes

A string is a list of Unicode scalar values, ordered lexicographically, which is the order of the
UTF-8 bytes. This file has the operations of the standard library that the store needs, on lists:

* `rsplitOnce`, `stripSuffix`, `trim`, `lines`, `split`, with the lemmas of `split` on paths;
* `utf8Encode`, and `utf8Decode?`, which refuses what is not well-formed UTF-8.
-/

namespace Bypass

/-- A string, as its characters. -/
abbrev Str := List Char

/-- A byte string. -/
abbrev Bytes := List UInt8

instance lawfulBEq_bytes : LawfulBEq Bytes := inferInstance

/-! ## Splitting -/

section Split

variable {α : Type} [DecidableEq α] {c : α} {s h t : List α}

/-- Split at the last `c`. -/
def rsplitOnce (c : α) : List α → Option (List α × List α)
  | [] => none
  | x :: xs =>
    match rsplitOnce c xs with
    | some (h, t) => some (x :: h, t)
    | none => if x = c then some ([], xs) else none

theorem rsplitOnce_eq_none : rsplitOnce c s = none ↔ c ∉ s := by
  induction s with
  | nil => simp [rsplitOnce]
  | cons x xs ih =>
    rw [rsplitOnce]
    cases hx : rsplitOnce c xs with
    | none =>
      have hc := ih.1 hx
      by_cases h : x = c
      · simp [h]
      · simp [h, hc, Ne.symm h]
    | some p =>
      have hc : c ∈ xs := by
        by_contra hc
        rw [ih.2 hc] at hx
        cases hx
      simp [hc]

theorem rsplitOnce_eq_some : rsplitOnce c s = some (h, t) ↔ s = h ++ c :: t ∧ c ∉ t := by
  induction s generalizing h t with
  | nil => simp [rsplitOnce]
  | cons x xs ih =>
    rw [rsplitOnce]
    cases hx : rsplitOnce c xs with
    | none =>
      have hc := rsplitOnce_eq_none.1 hx
      cases h with
      | nil =>
        by_cases hxc : x = c
        · simp only [hxc, if_true, Option.some.injEq, Prod.mk.injEq, true_and, List.nil_append,
            List.cons.injEq]
          exact ⟨fun e => ⟨e, e ▸ hc⟩, And.left⟩
        · simp [hxc]
      | cons y h =>
        have hne : ∀ w, xs ≠ h ++ c :: w := fun w e => hc (by simp [e])
        by_cases hxc : x = c <;> simp [hxc, hne]
    | some p =>
      obtain ⟨h', t'⟩ := p
      obtain ⟨rfl, ht'⟩ := ih.1 hx
      cases h with
      | nil =>
        simp only [Option.some.injEq, Prod.mk.injEq, reduceCtorEq, false_and, List.nil_append,
          List.cons.injEq, false_iff, not_and, not_not]
        rintro ⟨-, rfl⟩
        simp
      | cons y h =>
        have := @ih h t
        rw [hx] at this
        simp only [Option.some.injEq, Prod.mk.injEq] at this
        simp only [Option.some.injEq, Prod.mk.injEq, List.cons.injEq, List.cons_append, and_assoc,
          this]

/-- The part of `s` before the suffix `suf`, if it has it. -/
def stripSuffix (s suf : List α) : Option (List α) :=
  if s.drop (s.length - suf.length) = suf then some (s.take (s.length - suf.length)) else none

theorem stripSuffix_eq_some : stripSuffix s t = some h ↔ s = h ++ t := by
  rw [stripSuffix]
  constructor
  · intro e
    split at e
    · next hd =>
      cases e
      calc s = s.take (s.length - t.length) ++ s.drop (s.length - t.length) :=
            (List.take_append_drop _ s).symm
        _ = s.take (s.length - t.length) ++ t := by rw [hd]
    · cases e
  · rintro rfl
    simp

/-- The segments of `h ++ c :: t` are those of `h`, then those of `t`. -/
theorem mem_splitOn_append {x : List α} :
    x ∈ (h ++ c :: t).splitOn c ↔ x ∈ h.splitOn c ∨ x ∈ t.splitOn c := by
  rw [List.splitOn_append_cons_self, List.mem_append]

/-- The last segment is what follows the last separator. -/
theorem splitOn_append_last (ht : c ∉ t) : (h ++ c :: t).splitOn c = h.splitOn c ++ [t] := by
  rw [List.splitOn_append_cons_self, List.splitOn_eq_singleton ht]

/-- Text without separators glued to the end lengthens the last segment only. -/
theorem splitOn_append_of_not_mem (ht : c ∉ t) :
    ∃ l x, s.splitOn c = l ++ [x] ∧ (s ++ t).splitOn c = l ++ [x ++ t] := by
  cases hs : rsplitOnce c s with
  | none =>
    have hc := rsplitOnce_eq_none.1 hs
    exact ⟨[], s, List.splitOn_eq_singleton hc, List.splitOn_eq_singleton (by simp [hc, ht])⟩
  | some p =>
    obtain ⟨h, w⟩ := p
    obtain ⟨rfl, hw⟩ := rsplitOnce_eq_some.1 hs
    refine ⟨h.splitOn c, w, splitOn_append_last hw, ?_⟩
    rw [List.append_assoc, List.cons_append]
    exact splitOn_append_last (by simp [hw, ht])

end Split

/-! ## Lines and white space -/

/-- `char::is_whitespace`: the Unicode property `White_Space`. -/
def isWhitespace (c : Char) : Bool :=
  let n := c.toNat
  (9 ≤ n && n ≤ 13) || n = 0x20 || n = 0x85 || n = 0xa0 || n = 0x1680 ||
    (0x2000 ≤ n && n ≤ 0x200a) || n = 0x2028 || n = 0x2029 || n = 0x202f || n = 0x205f ||
    n = 0x3000

/-- `str::trim`. -/
def trim (s : Str) : Str := (s.dropWhile isWhitespace).rdropWhile isWhitespace

/-- `str::lines`: a line ends with `\n` or `\r\n`, the last one may lack its end. -/
def lines (s : Str) : List Str :=
  let parts := s.splitOn '\n'
  parts.dropLast.map (fun l => (stripSuffix l ['\r']).getD l) ++ parts.getLast?.toList.filter (· ≠ [])

theorem trim_cons_of_isWhitespace {c : Char} (hc : isWhitespace c = true) (s : Str) :
    trim (c :: s) = trim s := by
  rw [trim, trim, List.dropWhile_cons_of_pos hc]

theorem trim_concat_of_isWhitespace {c : Char} (hc : isWhitespace c = true) (s : Str) :
    trim (s ++ [c]) = trim s := by
  rw [trim, trim, List.dropWhile_append]
  split_ifs with hall
  · have hnil : s.dropWhile isWhitespace = [] := by simpa using hall
    rw [hnil, List.dropWhile_cons_of_pos hc]
    rfl
  · exact List.rdropWhile_concat_pos _ _ _ hc

theorem dropWhile_isWhitespace {s : Str} (h : ∀ c ∈ s.head?, isWhitespace c = false) :
    s.dropWhile isWhitespace = s := by
  cases s with
  | nil => rfl
  | cons c s => exact List.dropWhile_cons_of_neg (by simp [h c rfl])

/-- What does not start with white space keeps its start. -/
theorem trim_prefix {s : Str} (h : ∀ c ∈ s.head?, isWhitespace c = false) : trim s <+: s := by
  rw [trim, dropWhile_isWhitespace h]
  exact List.rdropWhile_prefix _ _

theorem trim_eq_self {s : Str} (h : ∀ c ∈ s, isWhitespace c = false) : trim s = s := by
  rw [trim, dropWhile_isWhitespace fun c hc => h c (List.mem_of_mem_head? hc),
    List.rdropWhile_eq_self_iff]
  intro hne
  simp [h _ (List.getLast_mem hne)]

/-- Nothing is left to trim. -/
theorem trim_trim (s : Str) : trim (trim s) = trim s := by
  have hdrop : (trim s).dropWhile isWhitespace = trim s := by
    refine dropWhile_isWhitespace fun c hc => ?_
    -- the first character is the one at which `dropWhile` stopped
    obtain ⟨w, hw⟩ : trim s <+: s.dropWhile isWhitespace := List.rdropWhile_prefix _ _
    have hhead := List.head?_dropWhile_not isWhitespace s
    rw [← hw, List.head?_append, Option.mem_def.1 hc] at hhead
    simpa using hhead
  rw [trim, hdrop]
  exact List.rdropWhile_idempotent _ _

theorem not_mem_trim {c : Char} {s : Str} (h : c ∉ s) : c ∉ trim s := fun hc =>
  h ((List.dropWhile_sublist _).mem ((List.rdropWhile_prefix _ _).subset hc))

/-- No end of line, nor a carriage return. -/
def OneLine (s : Str) : Prop := '\n' ∉ s ∧ '\r' ∉ s

instance (s : Str) : Decidable (OneLine s) := inferInstanceAs (Decidable (_ ∧ _))

theorem OneLine.trim {s : Str} (h : OneLine s) : OneLine (trim s) :=
  ⟨not_mem_trim h.1, not_mem_trim h.2⟩

theorem OneLine.stripSuffix_cr {l : Str} (h : OneLine l) : (stripSuffix l ['\r']).getD l = l := by
  cases hs : stripSuffix l ['\r'] with
  | none => rfl
  | some w =>
    obtain rfl := stripSuffix_eq_some.1 hs
    exact absurd (by simp) h.2

/-- Pieces that each end a line are split apart. -/
theorem splitOn_flatMap (ls : List Str) (rest : Str) :
    ((ls.flatMap fun l => l ++ ['\n']) ++ rest).splitOn '\n' =
      ls.flatMap (fun l => l.splitOn '\n') ++ rest.splitOn '\n' := by
  induction ls with
  | nil => rfl
  | cons l ls ih =>
    simp only [List.flatMap_cons, List.append_assoc, List.cons_append, List.nil_append]
    rw [List.splitOn_append_cons_self, ih]

/-- Single lines read back, after the last of which there is an empty one. -/
theorem splitOn_lines {ls : List Str} (h : ∀ l ∈ ls, '\n' ∉ l) :
    (ls.flatMap fun l => l ++ ['\n']).splitOn '\n' = ls ++ [[]] := by
  have hone : ∀ l ∈ ls, l.splitOn '\n' = [l] := fun l hl => List.splitOn_eq_singleton (h l hl)
  have happend := splitOn_flatMap ls []
  rw [List.append_nil] at happend
  rw [happend, List.flatMap_congr hone, List.flatMap_singleton']
  rfl

/-- Lines read back, when none holds an end of line. -/
theorem lines_flatMap {ls : List Str} (h : ∀ l ∈ ls, OneLine l) :
    lines (ls.flatMap fun l => l ++ ['\n']) = ls := by
  calc lines (ls.flatMap fun l => l ++ ['\n'])
      = ls.map (fun l => (stripSuffix l ['\r']).getD l) ++ [] := by
        simp only [lines, splitOn_lines fun l hl => (h l hl).1, List.dropLast_concat, List.getLast?_concat]
        rfl
    _ = ls.map id := by
        rw [List.append_nil, List.map_congr_left fun l hl => (h l hl).stripSuffix_cr]
        rfl
    _ = ls := List.map_id _

/-! ## UTF-8 -/

/-- The bytes of a string. -/
def utf8Encode (s : Str) : Bytes := s.flatMap String.utf8EncodeChar

/-- Decode at most `fuel` characters. -/
def utf8DecodeFuel : ℕ → Bytes → Option Str
  | _, [] => some []
  | 0, _ :: _ => none
  | fuel + 1, b :: bs =>
    match (b :: bs).toByteArray.utf8DecodeChar? 0 with
    | none => none
    | some c => (utf8DecodeFuel fuel ((b :: bs).drop c.utf8Size)).map (c :: ·)

/-- `str::from_utf8`, which decodes well-formed UTF-8 only. -/
def utf8Decode? (b : Bytes) : Option Str := utf8DecodeFuel b.length b

/-- The first character of an encoded string, and what follows it. -/
theorem utf8Encode_cons (c : Char) (s : Str) : ∃ b bs, utf8Encode (c :: s) = b :: bs ∧
    (b :: bs).toByteArray.utf8DecodeChar? 0 = some c ∧
      (b :: bs).drop c.utf8Size = utf8Encode s := by
  have he : utf8Encode (c :: s) = String.utf8EncodeChar c ++ utf8Encode s := rfl
  obtain ⟨b, bs, hb⟩ := List.exists_cons_of_ne_nil (String.utf8EncodeChar_ne_nil (c := c))
  have hcons : utf8Encode (c :: s) = b :: (bs ++ utf8Encode s) := by
    rw [he, hb, List.cons_append]
  refine ⟨b, bs ++ utf8Encode s, hcons, ?_, ?_⟩
  · rw [← hcons, he, List.toByteArray_append]
    exact ByteArray.utf8DecodeChar?_utf8EncodeChar_append
  · rw [← hcons, he]
    exact List.drop_left' (String.length_utf8EncodeChar c)

theorem utf8DecodeFuel_encode (s : Str) {fuel : ℕ} (h : s.length ≤ fuel) :
    utf8DecodeFuel fuel (utf8Encode s) = some s := by
  induction s generalizing fuel with
  | nil => cases fuel <;> rfl
  | cons c s ih =>
    obtain ⟨n, rfl⟩ : ∃ n, fuel = n + 1 := ⟨fuel - 1, by simp at h; omega⟩
    obtain ⟨b, bs, hcons, hdec, hdrop⟩ := utf8Encode_cons c s
    rw [hcons, utf8DecodeFuel]
    simp only [hdec, hdrop]
    rw [ih (by simpa using h)]
    rfl

theorem length_le_length_utf8Encode (s : Str) : s.length ≤ (utf8Encode s).length := by
  induction s with
  | nil => simp
  | cons c s ih =>
    have := c.utf8Size_pos
    have hc := String.length_utf8EncodeChar c
    simp only [utf8Encode, List.flatMap_cons, List.length_append, List.length_cons] at ih ⊢
    omega

/-- Decoding what was encoded gives it back. -/
theorem utf8Decode?_encode (s : Str) : utf8Decode? (utf8Encode s) = some s :=
  utf8DecodeFuel_encode s (length_le_length_utf8Encode s)

/-- How many bytes at the head of `b`, which do not start a character, are replaced as one. -/
def invalidLen : Bytes → ℕ
  | [] => 0
  | [_] => 1
  | b :: c :: rest =>
    let cont := fun x : UInt8 => 0x80 ≤ x && x ≤ 0xbf
    let third := rest.head?.any cont
    if (b = 0xe0 && 0xa0 ≤ c && c ≤ 0xbf) || (0xe1 ≤ b && b ≤ 0xec && cont c) ||
        (b = 0xed && 0x80 ≤ c && c ≤ 0x9f) || (0xee ≤ b && b ≤ 0xef && cont c) then 2
    else if (b = 0xf0 && 0x90 ≤ c && c ≤ 0xbf) || (0xf1 ≤ b && b ≤ 0xf3 && cont c) ||
        (b = 0xf4 && 0x80 ≤ c && c ≤ 0x8f) then if third then 3 else 2
    else 1

/-- Decode at most `fuel` characters, with U+FFFD for what is not one. -/
def utf8LossyFuel : ℕ → Bytes → Str
  | _, [] => []
  | 0, _ :: _ => []
  | fuel + 1, b :: bs =>
    match (b :: bs).toByteArray.utf8DecodeChar? 0 with
    | some c => c :: utf8LossyFuel fuel ((b :: bs).drop c.utf8Size)
    | none => Char.ofNat 0xfffd :: utf8LossyFuel fuel ((b :: bs).drop (invalidLen (b :: bs)))

/-- `String::from_utf8_lossy`. -/
def utf8Lossy (b : Bytes) : Str := utf8LossyFuel b.length b

theorem utf8LossyFuel_encode (s : Str) {fuel : ℕ} (h : s.length ≤ fuel) :
    utf8LossyFuel fuel (utf8Encode s) = s := by
  induction s generalizing fuel with
  | nil => cases fuel <;> rfl
  | cons c s ih =>
    obtain ⟨n, rfl⟩ : ∃ n, fuel = n + 1 := ⟨fuel - 1, by simp at h; omega⟩
    obtain ⟨b, bs, hcons, hdec, hdrop⟩ := utf8Encode_cons c s
    rw [hcons, utf8LossyFuel]
    simp only [hdec, hdrop]
    rw [ih (by simpa using h)]

/-- Nothing is lost of what was encoded. -/
theorem utf8Lossy_encode (s : Str) : utf8Lossy (utf8Encode s) = s :=
  utf8LossyFuel_encode s (length_le_length_utf8Encode s)

theorem utf8Encode_injective : Function.Injective utf8Encode := fun s t h => by
  have := utf8Decode?_encode s
  rw [h, utf8Decode?_encode] at this
  exact (Option.some.inj this).symm

end Bypass
