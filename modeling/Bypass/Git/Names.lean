import Bypass.Foundations.Utf8

/-!
# File names in the output of git

A file name is a byte string. Git prints one name a line; a name with a byte that is not printable
ASCII, with a double quote or with a backslash it prints in double quotes, with C escapes
(`quote`). The source reads such output as lines of text and takes each for a name
(`parsePathlist`), without undoing the quotes.

* `parsePathlist_lines`: what the source reads is what git printed.
* `quote_eq_self`: a name reads back as itself when it is `Plain`, and only then.
-/

namespace Bypass

/-! ## Quoting -/

/-- A byte that git prints as it is: printable ASCII, but no double quote and no backslash. -/
def plainByte (b : UInt8) : Bool := 0x20 ≤ b && b < 0x7f && b ≠ 0x22 && b ≠ 0x5c

/-- The escape of a byte that it does not. -/
def escapeByte (b : UInt8) : Bytes :=
  match b with
  | 0x07 => [0x5c, 0x61]
  | 0x08 => [0x5c, 0x62]
  | 0x09 => [0x5c, 0x74]
  | 0x0a => [0x5c, 0x6e]
  | 0x0b => [0x5c, 0x76]
  | 0x0c => [0x5c, 0x66]
  | 0x0d => [0x5c, 0x72]
  | 0x22 => [0x5c, 0x22]
  | 0x5c => [0x5c, 0x5c]
  | _ => [0x5c, (b >>> 6) + 0x30, ((b >>> 3) &&& 7) + 0x30, (b &&& 7) + 0x30]

/-- A name that git prints as it is. -/
def Plain (name : Bytes) : Prop := name.all plainByte = true

instance (name : Bytes) : Decidable (Plain name) :=
  inferInstanceAs (Decidable (name.all plainByte = true))

/-- A name as git prints it. -/
def quote (name : Bytes) : Bytes :=
  if Plain name then name
  else 0x22 :: name.flatMap (fun b => if plainByte b then [b] else escapeByte b) ++ [0x22]

/-- A printable byte of ASCII. -/
def printableByte (b : UInt8) : Bool := 0x20 ≤ b && b < 0x7f

theorem printableByte_of_plainByte {b : UInt8} (h : plainByte b = true) :
    printableByte b = true := by
  simp only [plainByte, printableByte, Bool.and_eq_true] at h ⊢
  exact h.1.1

theorem printable_escapeByte (b : UInt8) : (escapeByte b).all printableByte = true := by
  revert b
  decide +kernel

/-- Git prints ASCII only. -/
theorem printable_quote (name : Bytes) : (quote name).all printableByte = true := by
  rw [quote]
  split_ifs with h
  · exact List.all_eq_true.2 fun b hb => printableByte_of_plainByte (List.all_eq_true.1 h b hb)
  · simp only [List.cons_append, List.all_cons, List.all_append, List.all_nil, Bool.and_true,
      Bool.and_eq_true]
    have hbody : (name.flatMap fun b => if plainByte b then [b] else escapeByte b).all
        printableByte = true := by
      rw [List.all_eq_true]
      intro c hc
      obtain ⟨b, -, hcb⟩ := List.mem_flatMap.1 hc
      split_ifs at hcb with hb
      · obtain rfl := List.mem_singleton.1 hcb
        exact printableByte_of_plainByte hb
      · exact List.all_eq_true.1 (printable_escapeByte b) c hcb
    exact ⟨by decide, hbody, by decide⟩

/-- **A name is printed as it is when it is plain, and only then.** -/
theorem quote_eq_self {name : Bytes} : quote name = name ↔ Plain name := by
  constructor
  · intro h
    by_contra hp
    rw [quote, if_neg hp] at h
    -- a quoted name is longer than the name
    have hlen : name.length ≤
        (name.flatMap fun b => if plainByte b then [b] else escapeByte b).length := by
      have hone : ∀ b : UInt8, 1 ≤ (if plainByte b then [b] else escapeByte b).length := by
        decide +kernel
      clear h hp
      induction name with
      | nil => simp
      | cons b bs ih =>
        have hb := hone b
        simp only [List.flatMap_cons, List.length_append, List.length_cons]
        omega
    have hcongr := congrArg List.length h
    simp only [List.cons_append, List.length_cons, List.length_append, List.length_nil] at hcongr
    omega
  · intro h
    rw [quote, if_pos h]

/-! ## Lists of names -/

/-- Lines of output. -/
def unlines (ls : List Bytes) : Bytes := ls.flatMap fun l => l ++ [0x0a]

/-- `parse_pathlist`. -/
def parsePathlist (out : Bytes) : List Bytes :=
  ((lines (utf8Lossy out)).filter (· ≠ [])).map utf8Encode

/-- The characters of ASCII bytes. -/
def asciiChars (b : Bytes) : Str := b.map fun x => Char.ofNat x.toNat

theorem utf8Encode_asciiChars {b : Bytes} (h : ∀ x ∈ b, x < 0x80) :
    utf8Encode (asciiChars b) = b := by
  induction b with
  | nil => rfl
  | cons x b ih =>
    have hx := utf8EncodeChar_ascii (h x List.mem_cons_self)
    have hb := ih fun y hy => h y (List.mem_cons_of_mem _ hy)
    simp only [asciiChars, utf8Encode, List.map_cons, List.flatMap_cons] at hb ⊢
    rw [hx, hb, List.singleton_append]

theorem printable_lt {x : UInt8} (h : printableByte x = true) : x < 0x80 := by
  simp only [printableByte, Bool.and_eq_true, decide_eq_true_eq, UInt8.lt_iff_toNat_lt,
    UInt8.reduceToNat] at h ⊢
  omega

/-- No printable byte ends a line. -/
theorem asciiChars_no_eol {b : Bytes} (h : b.all printableByte = true) :
    '\n' ∉ asciiChars b ∧ '\r' ∉ asciiChars b := by
  have hne : ∀ x : UInt8, printableByte x = true →
      Char.ofNat x.toNat ≠ '\n' ∧ Char.ofNat x.toNat ≠ '\r' := by decide +kernel
  have hall := List.all_eq_true.1 h
  simp only [asciiChars, List.mem_map, not_exists, not_and]
  exact ⟨fun x hx => (hne x (hall x hx)).1, fun x hx => (hne x (hall x hx)).2⟩

/-- **What the source reads is what git printed**, but for the empty lines. -/
theorem parsePathlist_lines {ls : List Bytes} (h : ∀ l ∈ ls, l.all printableByte = true) :
    parsePathlist (unlines ls) = ls.filter (· ≠ []) := by
  have hlt : ∀ l ∈ ls, ∀ x ∈ l, x < 0x80 := fun l hl x hx =>
    printable_lt (List.all_eq_true.1 (h l hl) x hx)
  have henc : utf8Encode ((ls.map asciiChars).flatMap fun l => l ++ ['\n']) = unlines ls := by
    induction ls with
    | nil => rfl
    | cons l ls ih =>
      have hl := utf8Encode_asciiChars (hlt l List.mem_cons_self)
      have hls := ih (fun l hl => h l (List.mem_cons_of_mem _ hl))
        fun l hl => hlt l (List.mem_cons_of_mem _ hl)
      have heol : String.utf8EncodeChar '\n' = [0x0a] := by decide
      simp only [utf8Encode, unlines, List.map_cons, List.flatMap_cons, List.flatMap_append,
        List.flatMap_nil, List.append_nil] at hl hls ⊢
      rw [hl, hls, heol]
  have hlines : lines (utf8Lossy (unlines ls)) = ls.map asciiChars := by
    rw [← henc, utf8Lossy_encode]
    apply lines_flatMap
    intro l hl
    obtain ⟨b, hb, rfl⟩ := List.mem_map.1 hl
    exact asciiChars_no_eol (h b hb)
  have hnil : ∀ b : Bytes, ((fun l => decide (l ≠ [])) ∘ asciiChars) b = decide (b ≠ []) :=
    fun b => by simp [asciiChars]
  rw [parsePathlist, hlines, List.filter_map, List.map_map]
  calc (ls.filter ((fun l => decide (l ≠ [])) ∘ asciiChars)).map (utf8Encode ∘ asciiChars)
      = (ls.filter (· ≠ [])).map (utf8Encode ∘ asciiChars) := by
        rw [funext hnil]
    _ = (ls.filter (· ≠ [])).map id := by
        apply List.map_congr_left
        intro b hb
        exact utf8Encode_asciiChars (hlt b (List.mem_of_mem_filter hb))
    _ = ls.filter (· ≠ []) := List.map_id _

end Bypass
