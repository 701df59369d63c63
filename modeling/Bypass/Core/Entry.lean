import Bypass.Foundations.Text

/-!
# The body of an entry

What the front ends read out of a decrypted entry, and what they write in its first line: the
password and the fields (`entry.rs`), the line of the one-time password (`otp.rs`), a generated
password (`generate.rs`).

What these rest on is left open: the lower case of a string, the code of an `otpauth` line at the
present time, and the random numbers.
-/

namespace Bypass

/-! ## Entries -/

/-- `Entry`: keys are kept in lower case. -/
structure Entry where
  password : Str
  fields : List (Str × Str)
  deriving DecidableEq

/-- `EntryError`. -/
inductive EntryError where
  | notUtf8
  deriving DecidableEq

/-- The message of an `EntryError`. -/
def EntryError.message : EntryError → Str
  | notUtf8 => "entry contents are not valid UTF-8".toList

/-- `str::split_once(':')`. -/
def splitColon (line : Str) : Option (Str × Str) :=
  if ':' ∈ line then some (line.takeWhile (· ≠ ':'), (line.dropWhile (· ≠ ':')).tail) else none

/-- A line without the carriage return at its end. -/
def stripCr (line : Str) : Str := (stripSuffix line ['\r']).getD line

theorem stripCr_eq_self {l : Str} (h : OneLine l) : stripCr l = l := h.stripSuffix_cr

theorem trim_stripCr (l : Str) : trim (stripCr l) = trim l := by
  rw [stripCr]
  cases hs : stripSuffix l ['\r'] with
  | none => rfl
  | some w =>
    obtain rfl := stripSuffix_eq_some.1 hs
    exact (trim_concat_of_isWhitespace (by decide) w).symm

/-- The field of a line, if it is one. -/
def fieldOf (lower : Str → Str) (line : Str) : Option (Str × Str) :=
  match splitColon line with
  | none => none
  | some (k, v) => if trim k = [] then none else some (lower (trim k), trim v)

/-- `Entry::parse_str`. -/
def Entry.parseStr (lower : Str → Str) (text : Str) : Entry :=
  match (text.splitOn '\n').map stripCr with
  | [] => ⟨[], []⟩
  | password :: rest => ⟨password, rest.filterMap (fieldOf lower)⟩

/-- `Entry::parse`. -/
def Entry.parse (lower : Str → Str) (bytes : Bytes) : Except EntryError Entry :=
  match utf8Decode? bytes with
  | none => .error .notUtf8
  | some text => .ok (.parseStr lower text)

/-- `Entry::field`. -/
def Entry.field (lower : Str → Str) (entry : Entry) (name : Str) : Option Str :=
  (entry.fields.find? fun kv => kv.1 = lower name).map Prod.snd

/-! ## One-time passwords -/

/-- `OtpError`. -/
inductive OtpError where
  | noOtpauthUri
  | parseUri (reason : Str)
  | generateCode (reason : Str)
  deriving DecidableEq

/-- The message of an `OtpError`. -/
def OtpError.message : OtpError → Str
  | noOtpauthUri => "entry does not contain an `otpauth://` URI".toList
  | parseUri reason => "failed to parse otpauth URI: ".toList ++ reason
  | generateCode reason => "failed to compute TOTP code: ".toList ++ reason

/-- The line that `otp::parse` reads. -/
def otpauthUri (plaintext : Str) : Option Str :=
  ((lines plaintext).map fun l => trim (stripCr l)).find? fun l => "otpauth://".toList <+: l

/-- Only the white space around a line tells the lines of `lines` from those between ends of
line. -/
theorem otpauthUri_eq (text : Str) :
    otpauthUri text = ((text.splitOn '\n').map trim).find? fun l => "otpauth://".toList <+: l := by
  obtain ⟨parts, last, hsplit⟩ : ∃ parts last, text.splitOn '\n' = parts ++ [last] :=
    (List.eq_nil_or_concat' _).resolve_left fun h => List.splitOn_ne_nil _ _ h
  have hstrip : (parts.map fun l => (stripSuffix l ['\r']).getD l).map (fun l => trim (stripCr l)) =
      parts.map trim := by
    rw [List.map_map]
    refine List.map_congr_left fun l _ => ?_
    exact (trim_stripCr _).trans (trim_stripCr l)
  rw [otpauthUri, lines, hsplit, List.dropLast_concat, List.getLast?_concat, List.map_append, hstrip,
    List.map_append, List.find?_append, List.find?_append]
  congr 1
  cases hl : last with
  | nil => rfl
  | cons c cs =>
    have hkeep : (some (c :: cs)).toList.filter (· ≠ []) = [c :: cs] := rfl
    rw [hkeep, List.map_singleton, List.map_singleton, trim_stripCr]

/-- `otp::current_code`; `code` reads the line and computes its code. -/
def currentCode (code : Str → Except OtpError Str) (plaintext : Str) : Except OtpError Str :=
  match otpauthUri plaintext with
  | none => .error .noOtpauthUri
  | some uri => code uri

/-! ## Generated passwords -/

/-- `ALPHANUMERIC`. -/
def alphanumeric : Str := "ABCDEFGHIJKLMNOPQRSTUVWXYZabcdefghijklmnopqrstuvwxyz0123456789".toList

/-- `SYMBOLS`. -/
def symbols : Str :=
  ['!', '@', '#', '$', '%', '^', '&', '*', '(', ')', '-', '_', '=', '+', '[', ']', '\x7b', '\x7d',
    '|', ';', ':', ',', '.', '<', '>', '?', '/', '~']

/-- `DEFAULT_LENGTH`. -/
def defaultLength : ℕ := 25

/-- The characters that a password is drawn from. -/
def alphabet (withSymbols : Bool) : Str :=
  if withSymbols then alphanumeric ++ symbols else alphanumeric

theorem alphabet_length_pos (withSymbols : Bool) : 0 < (alphabet withSymbols).length := by
  cases withSymbols <;> decide

/-- `generate`: the `i`th character is at the place that the generator draws, taken below the length
of the alphabet. -/
def generate (length : ℕ) (withSymbols : Bool) (draw : ℕ → ℕ) : Str :=
  (List.range length).map fun i =>
    (alphabet withSymbols).get ⟨draw i % (alphabet withSymbols).length,
      Nat.mod_lt _ (alphabet_length_pos withSymbols)⟩

/-- The body with another password: the rest from the first end of line on is kept. -/
def replaceFirstLine (existing : Bytes) (password : Str) : Bytes :=
  utf8Encode password ++ existing.dropWhile (· ≠ 0x0A)

/-- **Generated passwords** have the length that was asked for, and are drawn from the alphabet. -/
theorem generate_spec (length : ℕ) (withSymbols : Bool) (draw : ℕ → ℕ) :
    (generate length withSymbols draw).length = length ∧
      ∀ c ∈ generate length withSymbols draw, c ∈ alphabet withSymbols := by
  refine ⟨by simp [generate], fun c hc => ?_⟩
  obtain ⟨i, -, rfl⟩ := List.mem_map.1 hc
  exact List.get_mem ..

/-- A generated password is one line. -/
theorem generate_oneLine (length : ℕ) (withSymbols : Bool) (draw : ℕ → ℕ) :
    OneLine (generate length withSymbols draw) := by
  have hmem := (generate_spec length withSymbols draw).2
  have halphabet : '\n' ∉ alphabet withSymbols ∧ '\r' ∉ alphabet withSymbols := by
    cases withSymbols <;> decide
  exact ⟨fun h => halphabet.1 (hmem _ h), fun h => halphabet.2 (hmem _ h)⟩

end Bypass
