import Bypass.Foundations.Text

/-!
# UTF-8 around an ASCII byte

An ASCII byte is a character of its own, wherever it stands in a byte string. So bytes can be
decoded piece by piece around it, also where they are not well-formed.

* `utf8Decode?_eq_some`: what decodes is what was encoded.
* `utf8Decode?_append`, `utf8Lossy_append`: **bytes are decoded apart** at an ASCII byte.
* `mem_utf8Encode`: the ASCII bytes of a string are its ASCII characters.
-/

namespace Bypass

/-! ## Single characters -/

theorem utf8EncodeChar_ascii {x : UInt8} (h : x < 0x80) :
    String.utf8EncodeChar (Char.ofNat x.toNat) = [x] := by
  have hall : ∀ x : UInt8, x < 0x80 → String.utf8EncodeChar (Char.ofNat x.toNat) = [x] := by
    decide +kernel
  exact hall x h

/-- The first character of a byte string is one whose bytes come first. -/
theorem utf8DecodeChar?_eq_some {l : Bytes} {c : Char} :
    l.toByteArray.utf8DecodeChar? 0 = some c ↔ String.utf8EncodeChar c <+: l := by
  constructor
  · intro h
    obtain ⟨rest, hrest⟩ := ByteArray.exists_of_utf8DecodeChar?_eq_some h
    refine ⟨rest.data.toList, ?_⟩
    have hdata := congrArg (fun b : ByteArray => b.data.toList) hrest
    simpa using hdata.symm
  · rintro ⟨rest, rfl⟩
    rw [List.toByteArray_append]
    exact ByteArray.utf8DecodeChar?_utf8EncodeChar_append

/-- No character's bytes begin another's. -/
theorem eq_of_utf8EncodeChar_prefix {c d : Char} {l : Bytes} (hc : String.utf8EncodeChar c <+: l)
    (hd : String.utf8EncodeChar d <+: l) : c = d := by
  have h := utf8DecodeChar?_eq_some.2 hc
  rw [utf8DecodeChar?_eq_some.2 hd] at h
  exact (Option.some.inj h).symm

/-- Of the bytes of a character, only the first can be ASCII. -/
theorem ascii_index {c : Char} {i : ℕ} (hi : i < (String.utf8EncodeChar c).length)
    (h : (String.utf8EncodeChar c)[i] < 0x80) : i = 0 := by
  have hall : ∀ b : UInt8, b < 0x80 → b.IsUTF8FirstByte := by decide +kernel
  exact UInt8.isUTF8FirstByte_getElem_utf8EncodeChar.1 (hall _ h)

/-- An ASCII byte is the whole of its character. -/
theorem utf8EncodeChar_of_mem {c : Char} {b : UInt8} (hb : b < 0x80)
    (h : b ∈ String.utf8EncodeChar c) : c = Char.ofNat b.toNat := by
  obtain ⟨i, hi, rfl⟩ := List.mem_iff_getElem.1 h
  obtain rfl := ascii_index hi hb
  refine eq_of_utf8EncodeChar_prefix (List.prefix_refl _) ?_
  rw [utf8EncodeChar_ascii hb]
  obtain ⟨b, bs, hcons⟩ := List.exists_cons_of_ne_nil (String.utf8EncodeChar_ne_nil (c := c))
  simp [hcons]

/-- A text starts with an ASCII byte when its first character is one. -/
theorem utf8Encode_head_ascii {c : Char} {s : Str} {b : UInt8} {bs : Bytes}
    (h : utf8Encode (c :: s) = b :: bs) : b < 0x80 ↔ c.toNat < 0x80 := by
  have hchar : String.utf8EncodeChar c ++ utf8Encode s = b :: bs := h
  constructor
  · intro hb
    have hmem : b ∈ String.utf8EncodeChar c := by
      obtain ⟨x, xs, hx⟩ := List.exists_cons_of_ne_nil (String.utf8EncodeChar_ne_nil (c := c))
      rw [hx, List.cons_append] at hchar
      rw [hx, (List.cons.inj hchar).1]
      exact List.mem_cons_self
    have hall : ∀ x : UInt8, x < 0x80 → (Char.ofNat x.toNat).toNat < 0x80 := by decide +kernel
    rw [utf8EncodeChar_of_mem hb hmem]
    exact hall b hb
  · intro hc
    have hbyte : UInt8.ofNat c.toNat < 0x80 := by
      rw [UInt8.lt_iff_toNat_lt, UInt8.toNat_ofNat']
      exact (Nat.mod_le _ _).trans_lt hc
    have hself : Char.ofNat (UInt8.ofNat c.toNat).toNat = c := by
      rw [UInt8.toNat_ofNat', Nat.mod_eq_of_lt (by omega), Char.ofNat_toNat]
    have henc := utf8EncodeChar_ascii hbyte
    rw [hself] at henc
    rw [henc] at hchar
    rwa [← (List.cons.inj hchar).1]

/-- Whether a character comes first is settled before the next ASCII byte. -/
theorem utf8EncodeChar_prefix_append {c : Char} {a bs : Bytes} {b : UInt8} (ha : a ≠ [])
    (hb : b < 0x80) :
    String.utf8EncodeChar c <+: a ++ b :: bs ↔ String.utf8EncodeChar c <+: a := by
  refine ⟨fun h => ?_, fun h => h.trans (List.prefix_append _ _)⟩
  by_cases hlen : (String.utf8EncodeChar c).length ≤ a.length
  · exact List.prefix_of_prefix_length_le h (List.prefix_append _ _) hlen
  · have hlt : a.length < (String.utf8EncodeChar c).length := by omega
    have hget : (String.utf8EncodeChar c)[a.length] = b := by
      rw [h.getElem]
      simp
    have hzero := ascii_index hlt (by rwa [hget])
    exact absurd (List.length_eq_zero_iff.1 hzero) ha

/-! ## Strings -/

@[simp] theorem utf8Encode_append (s t : Str) : utf8Encode (s ++ t) = utf8Encode s ++ utf8Encode t :=
  List.flatMap_append

theorem utf8Encode_intercalate (segs : List Str) :
    utf8Encode (['/'].intercalate segs) = [0x2f].intercalate (segs.map utf8Encode) := by
  induction segs with
  | nil => rfl
  | cons s segs ih =>
    by_cases hsegs : segs = []
    · rw [hsegs, List.map_singleton, List.intercalate_singleton, List.intercalate_singleton]
    · rw [List.map_cons, List.intercalate_cons_of_ne_nil hsegs,
        List.intercalate_cons_of_ne_nil (by simpa using hsegs), utf8Encode_append,
        utf8Encode_append, ih]
      rfl

/-- The ASCII bytes of a string are its ASCII characters. -/
theorem mem_utf8Encode {s : Str} {b : UInt8} (hb : b < 0x80) :
    b ∈ utf8Encode s ↔ Char.ofNat b.toNat ∈ s := by
  rw [utf8Encode, List.mem_flatMap]
  constructor
  · rintro ⟨c, hc, hmem⟩
    exact utf8EncodeChar_of_mem hb hmem ▸ hc
  · intro h
    exact ⟨_, h, by rw [utf8EncodeChar_ascii hb]; exact List.mem_singleton_self b⟩

/-- **What decodes is what was encoded.** -/
theorem utf8Decode?_eq_some {l : Bytes} {s : Str} : utf8Decode? l = some s ↔ utf8Encode s = l := by
  constructor
  · rw [utf8Decode?]
    generalize l.length = fuel
    intro h
    induction fuel generalizing l s with
    | zero =>
      cases l with
      | nil =>
        obtain rfl := Option.some.inj h
        rfl
      | cons b bs => cases h
    | succ fuel ih =>
      cases l with
      | nil =>
        obtain rfl := Option.some.inj h
        rfl
      | cons b bs =>
        rw [utf8DecodeFuel] at h
        cases hc : (b :: bs).toByteArray.utf8DecodeChar? 0 with
        | none => simp [hc] at h
        | some c =>
          simp only [hc] at h
          obtain ⟨t, ht, rfl⟩ := Option.map_eq_some_iff.1 h
          obtain ⟨rest, hrest⟩ := utf8DecodeChar?_eq_some.1 hc
          have htail := ih ht
          rw [← hrest, ← String.length_utf8EncodeChar c, List.drop_left] at htail
          rw [← hrest, ← htail]
          rfl
  · rintro rfl
    exact utf8Decode?_encode s

/-- A string whose bytes have an ASCII byte falls apart there. -/
theorem utf8Encode_eq_append {s : Str} {a bs : Bytes} {b : UInt8} (hb : b < 0x80)
    (h : utf8Encode s = a ++ b :: bs) :
    ∃ t u, s = t ++ u ∧ utf8Encode t = a ∧ utf8Encode u = b :: bs := by
  induction s generalizing a with
  | nil => simp [utf8Encode] at h
  | cons c s ih =>
    by_cases ha : a = []
    · subst ha
      exact ⟨[], c :: s, rfl, rfl, h⟩
    · have hcons : utf8Encode (c :: s) = String.utf8EncodeChar c ++ utf8Encode s := rfl
      have hprefix : String.utf8EncodeChar c <+: a ++ b :: bs := by
        rw [← h, hcons]
        exact List.prefix_append _ _
      obtain ⟨a', rfl⟩ := (utf8EncodeChar_prefix_append ha hb).1 hprefix
      rw [hcons, List.append_assoc, List.append_cancel_left_eq] at h
      obtain ⟨t, u, rfl, rfl, hu⟩ := ih h
      exact ⟨c :: t, u, rfl, rfl, hu⟩

/-- **Bytes are decoded apart** at an ASCII byte. -/
theorem utf8Decode?_append (a : Bytes) {b : UInt8} (bs : Bytes) (hb : b < 0x80) :
    utf8Decode? (a ++ b :: bs) =
      (utf8Decode? a).bind fun s => (utf8Decode? (b :: bs)).map (s ++ ·) := by
  ext s
  rw [utf8Decode?_eq_some, Option.bind_eq_some_iff]
  constructor
  · intro h
    obtain ⟨t, u, rfl, ht, hu⟩ := utf8Encode_eq_append hb h
    exact ⟨t, utf8Decode?_eq_some.2 ht, by rw [utf8Decode?_eq_some.2 hu]; rfl⟩
  · rintro ⟨t, ht, hs⟩
    obtain ⟨u, hu, rfl⟩ := Option.map_eq_some_iff.1 hs
    rw [utf8Encode_append, utf8Decode?_eq_some.1 ht, utf8Decode?_eq_some.1 hu]

/-! ## Bytes that are not well-formed -/

/-- What is replaced as one does not reach past an ASCII byte. -/
theorem invalidLen_append {a : Bytes} (bs : Bytes) {b : UInt8} (ha : a ≠ []) (hb : b < 0x80) :
    invalidLen (a ++ b :: bs) = invalidLen a := by
  have hlt : ∀ n : UInt8, 0x80 ≤ n → ¬ n ≤ b := fun n hn hle =>
    absurd (UInt8.lt_of_lt_of_le hb (UInt8.le_trans hn hle)) (UInt8.lt_irrefl _)
  have h80 := hlt 0x80 (by decide)
  have h90 := hlt 0x90 (by decide)
  have ha0 := hlt 0xa0 (by decide)
  match a with
  | [] => exact absurd rfl ha
  | [x] => simp [invalidLen, h80, h90, ha0]
  | [x, y] => simp [invalidLen, h80]
  | x :: y :: z :: rest => rfl

theorem invalidLen_pos {a : Bytes} (ha : a ≠ []) : 0 < invalidLen a ∧ invalidLen a ≤ a.length := by
  match a with
  | [] => exact absurd rfl ha
  | [x] => exact ⟨Nat.one_pos, le_rfl⟩
  | [x, y] =>
    simp only [invalidLen, List.head?_nil, Option.any_none, Bool.false_eq_true, if_false]
    split_ifs <;> simp
  | x :: y :: z :: rest =>
    simp only [invalidLen, List.length_cons]
    split_ifs <;> omega

/-- The character at the head of a byte string, and how many bytes stand for it. -/
def lossyHead (l : Bytes) : Char × ℕ :=
  match l.toByteArray.utf8DecodeChar? 0 with
  | some c => (c, c.utf8Size)
  | none => (Char.ofNat 0xfffd, invalidLen l)

theorem utf8LossyFuel_succ (fuel : ℕ) {l : Bytes} (hl : l ≠ []) :
    utf8LossyFuel (fuel + 1) l =
      (lossyHead l).1 :: utf8LossyFuel fuel (l.drop (lossyHead l).2) := by
  obtain ⟨b, bs, rfl⟩ := List.exists_cons_of_ne_nil hl
  rw [utf8LossyFuel, lossyHead]
  cases (b :: bs).toByteArray.utf8DecodeChar? 0 <;> rfl

theorem lossyHead_bounds {l : Bytes} (hl : l ≠ []) :
    0 < (lossyHead l).2 ∧ (lossyHead l).2 ≤ l.length := by
  rw [lossyHead]
  cases hc : l.toByteArray.utf8DecodeChar? 0 with
  | none => exact invalidLen_pos hl
  | some c =>
    have hlen := (utf8DecodeChar?_eq_some.1 hc).length_le
    rw [String.length_utf8EncodeChar] at hlen
    exact ⟨c.utf8Size_pos, hlen⟩

theorem lossyHead_append {a : Bytes} (bs : Bytes) {b : UInt8} (ha : a ≠ []) (hb : b < 0x80) :
    lossyHead (a ++ b :: bs) = lossyHead a := by
  have hdecode : (a ++ b :: bs).toByteArray.utf8DecodeChar? 0 = a.toByteArray.utf8DecodeChar? 0 := by
    ext c
    rw [utf8DecodeChar?_eq_some, utf8DecodeChar?_eq_some, utf8EncodeChar_prefix_append ha hb]
  rw [lossyHead, hdecode, invalidLen_append bs ha hb, lossyHead]

/-- More fuel than bytes changes nothing. -/
theorem utf8LossyFuel_eq {fuel fuel' : ℕ} {l : Bytes} (h : l.length ≤ fuel)
    (h' : l.length ≤ fuel') : utf8LossyFuel fuel l = utf8LossyFuel fuel' l := by
  induction fuel generalizing fuel' l with
  | zero =>
    obtain rfl := List.length_eq_zero_iff.1 (Nat.le_zero.1 h)
    cases fuel' <;> rfl
  | succ fuel ih =>
    by_cases hl : l = []
    · subst hl
      cases fuel' <;> rfl
    · have hlen := List.length_pos_of_ne_nil hl
      obtain ⟨n, rfl⟩ : ∃ n, fuel' = n + 1 := ⟨fuel' - 1, by omega⟩
      have hpos := (lossyHead_bounds hl).1
      have hdrop : (l.drop (lossyHead l).2).length = l.length - (lossyHead l).2 := List.length_drop
      rw [utf8LossyFuel_succ fuel hl, utf8LossyFuel_succ n hl,
        @ih n (l.drop (lossyHead l).2) (by omega) (by omega)]

/-- A byte string is read from its head. -/
theorem utf8Lossy_eq {l : Bytes} (hl : l ≠ []) :
    utf8Lossy l = (lossyHead l).1 :: utf8Lossy (l.drop (lossyHead l).2) := by
  have hlen := List.length_pos_of_ne_nil hl
  have hpos := (lossyHead_bounds hl).1
  obtain ⟨n, hn⟩ : ∃ n, l.length = n + 1 := ⟨l.length - 1, by omega⟩
  have hdrop : (l.drop (lossyHead l).2).length = l.length - (lossyHead l).2 := List.length_drop
  rw [utf8Lossy, hn, utf8LossyFuel_succ n hl]
  exact congrArg _ (utf8LossyFuel_eq (by omega) le_rfl)

/-- An ASCII byte is read as its character. -/
theorem utf8Lossy_cons {b : UInt8} (bs : Bytes) (hb : b < 0x80) :
    utf8Lossy (b :: bs) = Char.ofNat b.toNat :: utf8Lossy bs := by
  have hencode := utf8EncodeChar_ascii hb
  have hdecode : (b :: bs).toByteArray.utf8DecodeChar? 0 = some (Char.ofNat b.toNat) := by
    rw [utf8DecodeChar?_eq_some, hencode]
    exact List.prefix_append [b] bs
  have hsize : (Char.ofNat b.toNat).utf8Size = 1 := by
    rw [← String.length_utf8EncodeChar, hencode, List.length_singleton]
  have hhead : lossyHead (b :: bs) = (Char.ofNat b.toNat, 1) := by
    rw [lossyHead, hdecode]
    dsimp only
    rw [hsize]
  rw [utf8Lossy_eq (by simp), hhead, List.drop_one, List.tail_cons]

/-- **Bytes are decoded apart** at an ASCII byte, also where something is replaced. -/
theorem utf8Lossy_append (a : Bytes) {b : UInt8} (bs : Bytes) (hb : b < 0x80) :
    utf8Lossy (a ++ b :: bs) = utf8Lossy a ++ utf8Lossy (b :: bs) := by
  induction hn : a.length using Nat.strong_induction_on generalizing a with
  | _ n ih =>
    by_cases ha : a = []
    · subst ha
      rfl
    · obtain ⟨hpos, hle⟩ := lossyHead_bounds ha
      have hrest := ih (a.length - (lossyHead a).2) (by omega) (a.drop (lossyHead a).2)
        List.length_drop
      rw [utf8Lossy_eq (by simp), lossyHead_append bs ha hb, List.drop_append_of_le_length hle,
        hrest, utf8Lossy_eq ha, List.cons_append]

/-- No ASCII character is read that is not there. -/
theorem mem_of_mem_utf8Lossy {l : Bytes} {b : UInt8} (hb : b < 0x80)
    (h : Char.ofNat b.toNat ∈ utf8Lossy l) : b ∈ l := by
  have hreplaced : ∀ b : UInt8, b < 0x80 → Char.ofNat b.toNat ≠ Char.ofNat 0xfffd := by
    decide +kernel
  induction hn : l.length using Nat.strong_induction_on generalizing l with
  | _ n ih =>
    by_cases hl : l = []
    · subst hl
      cases h
    rw [utf8Lossy_eq hl, List.mem_cons] at h
    rcases h with h | h
    · rw [lossyHead] at h
      cases hc : l.toByteArray.utf8DecodeChar? 0 with
      | none =>
        rw [hc] at h
        exact absurd h (hreplaced b hb)
      | some c =>
        rw [hc] at h
        obtain rfl : Char.ofNat b.toNat = c := h
        have hprefix := utf8DecodeChar?_eq_some.1 hc
        rw [utf8EncodeChar_ascii hb] at hprefix
        exact hprefix.subset (List.mem_singleton_self b)
    · have hpos := (lossyHead_bounds hl).1
      have hlen := List.length_pos_of_ne_nil hl
      have hdrop : (l.drop (lossyHead l).2).length = l.length - (lossyHead l).2 := List.length_drop
      exact List.mem_of_mem_drop (ih _ (by omega) h rfl)

end Bypass
