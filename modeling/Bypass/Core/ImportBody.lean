import Bypass.Core.Entry
import Bypass.Core.ImportPaths

/-!
# What an imported body reads as

`prepare` prints an entry as lines, and other modules read them: `Entry::parse_str` the fields, and
`otp::parse` the line of the one-time password. They agree on the fields. They do not agree on the
one-time password, which is printed as a field and looked for as a line of its own.

* `serialiseBody_text`: the lines of a body.
* `prepared_parses_back`: the fields of a body are those of the entry.
* `imported_totp_unread`: the one-time password of an imported entry is never found.
-/

namespace Bypass

/-! ## The lines of a body -/

/-- The line of a key and its value. -/
def kvLine (kv : Str × Str) : Str := kv.1 ++ ": ".toList ++ flattenNewlines kv.2

/-- The key of the `i`th URL. -/
def urlKey (i : ℕ) : Str :=
  if i = 0 then "url".toList else "url-".toList ++ Nat.toDigits 10 (i + 1)

namespace ImportedEntry

/-- The keys and values of a body that come before the one-time password. -/
def beforeTotp (e : ImportedEntry) : List (Str × Str) :=
  (e.username.toList.map fun u => ("login".toList, u)) ++
    e.fields.filterMap fun kv => if trim kv.1 = [] then none else some (trim kv.1, kv.2)

/-- The one-time password. -/
def totpPair (e : ImportedEntry) : List (Str × Str) :=
  e.totp.toList.map fun t => ("otpauth".toList, t)

/-- The URLs. -/
def urls (e : ImportedEntry) : List (Str × Str) :=
  e.uris.zipIdx.map fun uri => (urlKey uri.2, uri.1)

/-- A body, as text. -/
def bodyText (e : ImportedEntry) : Str :=
  ((flattenNewlines (utf8Lossy e.password) ::
    (e.beforeTotp ++ e.totpPair ++ e.urls).map kvLine).flatMap fun l => l ++ ['\n']) ++
      notesBlock e.notes

end ImportedEntry

section Body

variable {debug : Str → Str}

theorem fst_pushKv (key value path : Str) :
    (pushKv debug key value path).1 = kvLine (key, value) ++ ['\n'] := rfl

variable (debug) in
/-- The lines of the custom fields: those with blank keys are dropped. -/
theorem flatMap_fieldLine (path : Str) (fields : List (Str × Str)) :
    (fields.flatMap fun kv => (fieldLine debug path kv).1) =
      (fields.filterMap fun kv => if trim kv.1 = [] then none else some (trim kv.1, kv.2)).flatMap
        fun kv => kvLine kv ++ ['\n'] := by
  induction fields with
  | nil => rfl
  | cons kv fields ih =>
    obtain ⟨k, v⟩ := kv
    rw [List.flatMap_cons, ih, List.filterMap_cons]
    by_cases hk : trim k = []
    · simp [fieldLine, hk]
    · simp [fieldLine, hk, fst_pushKv]

/-- **The body of an entry is its lines**, then the notes. -/
theorem serialiseBody_text (e : ImportedEntry) (path : Str) :
    (serialiseBody debug e path).1 = utf8Encode e.bodyText := by
  have hfields := flatMap_fieldLine debug path e.fields
  simp only [serialiseBody, ImportedEntry.bodyText, ImportedEntry.beforeTotp,
    ImportedEntry.totpPair, ImportedEntry.urls, urlKey, List.flatMap_append, List.flatMap_cons,
    List.flatMap_map, List.map_append, List.append_assoc, passwordLine, fst_pushKv, hfields]

end Body

/-- Nothing is flattened of a single line. -/
theorem flattenNewlines_eq_self {s : Str} (h : OneLine s) : flattenNewlines s = s := by
  have hone : ∀ c ∈ s, (if c = '\n' then ['\\', 'n'] else if c = '\r' then [] else [c]) = [c] := by
    intro c hc
    have hn : c ≠ '\n' := fun he => h.1 (he ▸ hc)
    have hr : c ≠ '\r' := fun he => h.2 (he ▸ hc)
    rw [if_neg hn, if_neg hr]
  calc flattenNewlines s = s.flatMap fun c => [c] := List.flatMap_congr hone
    _ = s := List.flatMap_singleton' s

theorem oneLine_flattenNewlines (s : Str) : OneLine (flattenNewlines s) := by
  have hchar : ∀ d c : Char, d = '\n' ∨ d = '\r' →
      d ∉ if c = '\n' then ['\\', 'n'] else if c = '\r' then [] else [c] := by
    rintro d c (rfl | rfl) <;> split_ifs with hn hr <;> simp_all [eq_comm]
  exact ⟨fun h => (List.mem_flatMap.1 h).elim fun c hc => hchar _ c (Or.inl rfl) hc.2,
    fun h => (List.mem_flatMap.1 h).elim fun c hc => hchar _ c (Or.inr rfl) hc.2⟩

/-! ## Reading the fields -/

theorem splitColon_append {k : Str} (h : ':' ∉ k) (rest : Str) :
    splitColon (k ++ ':' :: rest) = some (k, rest) := by
  have hall : ∀ c ∈ k, decide (c ≠ ':') = true := fun c hc => by
    have : c ≠ ':' := fun he => h (he ▸ hc)
    simpa using this
  rw [splitColon, if_pos (by simp), List.takeWhile_append_of_pos hall,
    List.dropWhile_append_of_pos hall]
  simp

/-- A line reads back as its key and its value, flattened and trimmed. -/
theorem fieldOf_kvLine (lower : Str → Str) {k : Str} (hk : trim k = k) (hne : k ≠ [])
    (hcolon : ':' ∉ k) (v : Str) :
    fieldOf lower (kvLine (k, v)) = some (lower k, trim (flattenNewlines v)) := by
  have hline : kvLine (k, v) = k ++ ':' :: ' ' :: flattenNewlines v := by
    simp [kvLine]
  rw [fieldOf, hline, splitColon_append hcolon]
  simp only [hk, if_neg hne, trim_cons_of_isWhitespace (show isWhitespace ' ' = true by decide)]

/-- **The fields of single lines** read back, after the first line, which is the password. -/
theorem parseStr_lines (lower : Str → Str) {password : Str} {ls : List Str}
    (hpassword : OneLine password) (hls : ∀ l ∈ ls, OneLine l) :
    Entry.parseStr lower ((password :: ls).flatMap fun l => l ++ ['\n']) =
      ⟨password, ls.filterMap (fieldOf lower)⟩ := by
  have hall : ∀ l ∈ password :: ls, OneLine l := List.forall_mem_cons.2 ⟨hpassword, hls⟩
  have hstrip : ∀ l ∈ password :: ls, stripCr l = l := fun l hl => stripCr_eq_self (hall l hl)
  have hempty : fieldOf lower (stripCr []) = none := rfl
  rw [Entry.parseStr, splitOn_lines fun l hl => (hall l hl).1, List.map_append, List.map_congr_left hstrip]
  simp [hempty]

/-- The characters of the keys that `prepare` writes itself. -/
def isKeyChar (c : Char) : Bool := c.isLower || c.isDigit || c = '-'

/-- `str::to_lowercase` leaves small letters, digits and dashes alone. -/
def LowerFixes (lower : Str → Str) : Prop := ∀ s, s.all isKeyChar = true → lower s = s

theorem isWhitespace_of_isKeyChar {c : Char} (h : isKeyChar c = true) : isWhitespace c = false := by
  have hrange : c.toNat = 0x2d ∨ 0x30 ≤ c.toNat ∧ c.toNat ≤ 0x39 ∨
      0x61 ≤ c.toNat ∧ c.toNat ≤ 0x7a := by
    simp only [isKeyChar, Char.isLower, Char.isDigit, Bool.or_eq_true, Bool.and_eq_true,
      decide_eq_true_eq, ge_iff_le, UInt32.le_iff_toNat_le] at h
    rcases h with (h | h) | rfl
    · exact Or.inr (Or.inr h)
    · exact Or.inr (Or.inl h)
    · exact Or.inl rfl
  simp only [isWhitespace, Bool.or_eq_false_iff, Bool.and_eq_false_iff, decide_eq_false_iff_not]
  omega

theorem urlKey_all (i : ℕ) : (urlKey i).all isKeyChar = true := by
  rw [urlKey]
  split_ifs
  · decide +kernel
  · rw [List.all_append, Bool.and_eq_true]
    refine ⟨by decide +kernel, List.all_eq_true.2 fun c hc => ?_⟩
    have hdigit := Nat.isDigit_of_mem_toDigits (by decide) (by decide) hc
    simp [isKeyChar, hdigit]

theorem urlKey_ne_nil (i : ℕ) : urlKey i ≠ [] := by
  intro hnil
  rw [urlKey] at hnil
  split_ifs at hnil <;> simp at hnil

/-- A key and a value that read back. -/
structure Readable (kv : Str × Str) : Prop where
  trimmed : trim kv.1 = kv.1
  ne_nil : kv.1 ≠ []
  no_colon : ':' ∉ kv.1
  key : OneLine kv.1
  value : OneLine kv.2

theorem readable_of_all {k v : Str} (hk : k.all isKeyChar = true) (hne : k ≠ []) (hv : OneLine v) :
    Readable (k, v) := by
  have hnot : ∀ c, isKeyChar c = false → c ∉ k := fun c hc hmem => by
    rw [List.all_eq_true.1 hk c hmem] at hc
    cases hc
  refine ⟨trim_eq_self fun c hc => isWhitespace_of_isKeyChar (List.all_eq_true.1 hk c hc), hne,
    hnot _ (by decide), ⟨hnot _ (by decide), hnot _ (by decide)⟩, hv⟩

theorem Readable.oneLine {kv : Str × Str} (h : Readable kv) : OneLine (kvLine kv) := by
  have hsep : OneLine ": ".toList := by decide
  have hflat := oneLine_flattenNewlines kv.2
  refine ⟨?_, ?_⟩ <;> simp [kvLine, h.key.1, h.key.2, hflat.1, hflat.2]

/-- Lines that read back are read as their keys and values. -/
theorem filterMap_fieldOf (lower : Str → Str) {kvs : List (Str × Str)}
    (h : ∀ kv ∈ kvs, Readable kv) :
    (kvs.map kvLine).filterMap (fieldOf lower) = kvs.map fun kv => (lower kv.1, trim kv.2) := by
  induction kvs with
  | nil => rfl
  | cons kv kvs ih =>
    obtain ⟨hkv, hkvs⟩ := List.forall_mem_cons.1 h
    rw [List.map_cons, List.filterMap_cons_some
      (fieldOf_kvLine lower hkv.trimmed hkv.ne_nil hkv.no_colon kv.2),
      flattenNewlines_eq_self hkv.value, ih hkvs, List.map_cons]

namespace ImportedEntry

/-- What is said of an entry without notes whose password, keys and values are single lines. -/
structure Plain (e : ImportedEntry) (password : Str) : Prop where
  password_utf8 : e.password = utf8Encode password
  password_line : OneLine password
  username : ∀ u ∈ e.username, OneLine u
  keys : ∀ kv ∈ e.fields, trim kv.1 ≠ [] ∧ ':' ∉ kv.1 ∧ OneLine kv.1
  values : ∀ kv ∈ e.fields, OneLine kv.2
  totp : ∀ t ∈ e.totp, OneLine t
  uris : ∀ uri ∈ e.uris, OneLine uri
  notes : e.notes = none

/-- The fields that are read back. -/
def readBack (lower : Str → Str) (e : ImportedEntry) : List (Str × Str) :=
  (e.username.toList.map fun u => ("login".toList, trim u)) ++
    (e.fields.map fun kv => (lower (trim kv.1), trim kv.2)) ++
    (e.totp.toList.map fun t => ("otpauth".toList, trim t)) ++
    e.uris.zipIdx.map fun uri => (urlKey uri.2, trim uri.1)

variable {lower : Str → Str} {e : ImportedEntry} {password : Str}

/-- Without blank keys, no field is dropped. -/
theorem fields_eq (h : ∀ kv ∈ e.fields, trim kv.1 ≠ []) :
    (e.fields.filterMap fun kv => if trim kv.1 = [] then none else some (trim kv.1, kv.2)) =
      e.fields.map fun kv => (trim kv.1, kv.2) := by
  rw [← List.filterMap_eq_map]
  refine List.filterMap_congr fun kv hkv => ?_
  rw [if_neg (h kv hkv)]
  rfl

/-- The keys that `prepare` writes itself are in lower case. -/
theorem map_pairs (h : ∀ kv ∈ e.fields, trim kv.1 ≠ []) (hlower : LowerFixes lower) :
    (e.beforeTotp ++ e.totpPair ++ e.urls).map (fun kv => (lower kv.1, trim kv.2)) =
      e.readBack lower := by
  have hlogin : lower "login".toList = "login".toList := hlower _ (by decide +kernel)
  have hotpauth : lower "otpauth".toList = "otpauth".toList := hlower _ (by decide +kernel)
  simp only [beforeTotp, fields_eq h, totpPair, urls, readBack, List.map_append, List.map_map,
    Function.comp_def, hlogin, hotpauth, hlower _ (urlKey_all _)]

namespace Plain

theorem keys_ne_nil (h : e.Plain password) : ∀ kv ∈ e.fields, trim kv.1 ≠ [] := fun kv hkv =>
  (h.keys kv hkv).1

theorem readable (h : e.Plain password) :
    ∀ kv ∈ e.beforeTotp ++ e.totpPair ++ e.urls, Readable kv := by
  intro kv hkv
  simp only [beforeTotp, fields_eq h.keys_ne_nil, totpPair, urls, List.mem_append, List.mem_map,
    Option.mem_toList] at hkv
  rcases hkv with ((⟨u, hu, rfl⟩ | ⟨kv, hkv, rfl⟩) | ⟨t, ht, rfl⟩) | ⟨⟨uri, i⟩, huri, rfl⟩
  · exact readable_of_all (by decide +kernel) (by decide) (h.username u hu)
  · obtain ⟨hne, hcolon, hline⟩ := h.keys kv hkv
    exact ⟨trim_trim kv.1, hne, not_mem_trim hcolon, hline.trim, h.values kv hkv⟩
  · exact readable_of_all (by decide +kernel) (by decide) (h.totp t ht)
  · exact readable_of_all (urlKey_all i) (urlKey_ne_nil i)
      (h.uris uri (List.fst_mem_of_mem_zipIdx huri))

end Plain

end ImportedEntry

/-! ## Batches -/

/-- The bodies that `prepare` returned are those of the entries, in order. -/
theorem prepare_bodies {debug : Str → Str} {entries : List ImportedEntry} {existing : List RelPath}
    {prepared : List PreparedEntry} {report : List LossinessNote}
    (h : prepare debug entries existing = some (.ok (prepared, report))) :
    List.Forall₂ (fun e q => q.body = utf8Encode e.bodyText) entries prepared := by
  obtain ⟨desired, -, -, -, hbodies⟩ := prepare_eq_ok h
  exact hbodies.imp fun e q ⟨hbody, _⟩ => by rw [hbody, serialiseBody_text]

/-! ## The fields -/

/-- **Imported bodies parse back.** Of an entry without notes whose password, keys and values are
single lines, the body that `prepare` makes parses to that password and to the entry's fields, in
order, with keys in lower case and values trimmed. -/
theorem prepared_parses_back {lower : Str → Str} (hlower : LowerFixes lower) {debug : Str → Str}
    {entries : List ImportedEntry} {existing : List RelPath} {prepared : List PreparedEntry}
    {report : List LossinessNote}
    (hprep : prepare debug entries existing = some (.ok (prepared, report))) :
    List.Forall₂ (fun e q => ∀ password, e.Plain password → ∃ text, q.body = utf8Encode text ∧
      Entry.parseStr lower text = ⟨password, e.readBack lower⟩) entries prepared := by
  refine (prepare_bodies hprep).imp fun e q hbody password hplain => ⟨_, hbody, ?_⟩
  have hread := hplain.readable
  have hlines : ∀ l ∈ (e.beforeTotp ++ e.totpPair ++ e.urls).map kvLine, OneLine l := by
    intro l hl
    obtain ⟨kv, hkv, rfl⟩ := List.mem_map.1 hl
    exact (hread kv hkv).oneLine
  have hnotes : notesBlock e.notes = [] := by rw [hplain.notes, notesBlock]
  rw [ImportedEntry.bodyText, hnotes, List.append_nil, hplain.password_utf8, utf8Lossy_encode,
    flattenNewlines_eq_self hplain.password_line,
    parseStr_lines lower hplain.password_line hlines, filterMap_fieldOf lower hread,
    ImportedEntry.map_pairs hplain.keys_ne_nil hlower]

/-- Characters beyond ASCII are left alone. -/
def asciiLower (s : Str) : Str := s.map Char.toLower

theorem asciiLower_fixes : LowerFixes asciiLower := by
  intro s hs
  have hchar : ∀ c ∈ s, c.toLower = c := fun c hc => by
    refine Char.toLower_eq_of_not_isUpper ?_
    have hkey := List.all_eq_true.1 hs c hc
    simp only [isKeyChar, Char.isLower, Char.isDigit, Char.isUpper, Bool.or_eq_true,
      Bool.and_eq_true, decide_eq_true_eq, ge_iff_le, UInt32.le_iff_toNat_le] at hkey ⊢
    rcases hkey with (h | h) | rfl
    · have : 'Z'.val.toNat < 'a'.val.toNat := by decide
      omega
    · have : '9'.val.toNat < 'A'.val.toNat := by decide
      omega
    · decide
  calc asciiLower s = s.map id := List.map_congr_left hchar
    _ = s := List.map_id _

/-- An entry with a field of each kind. -/
def bankEntry : ImportedEntry where
  folder := ["Banking".toList]
  name := "Chase".toList
  password := utf8Encode "p4ss".toList
  username := some "alice ".toList
  fields := [(" PIN ".toList, "12: 34".toList)]
  totp := some "otpauth://totp/Chase?secret=ABC".toList
  notes := none
  uris := ["https://chase.example".toList, [], "chase:mobile".toList]

/-- What `bankEntry` becomes. -/
def bankPrepared : PreparedEntry :=
  ⟨⟨"banking/chase".toList, by decide⟩, utf8Encode bankEntry.bodyText⟩

theorem bankEntry_prepared : prepare id [bankEntry] [] = some (.ok ([bankPrepared], [])) := by
  decide +kernel

theorem bankEntry_plain : bankEntry.Plain "p4ss".toList where
  password_utf8 := rfl
  password_line := by decide
  username u hu := by
    obtain rfl := Option.some.inj hu
    decide
  keys := by decide +kernel
  values := by decide +kernel
  totp t ht := by
    obtain rfl := Option.some.inj ht
    decide
  uris := by decide +kernel
  notes := rfl

theorem prepared_parses_back_bank : ∃ text, bankPrepared.body = utf8Encode text ∧
    Entry.parseStr asciiLower text = ⟨"p4ss".toList, bankEntry.readBack asciiLower⟩ :=
  (List.forall₂_cons.1 (prepared_parses_back asciiLower_fixes bankEntry_prepared)).1 _
    bankEntry_plain

/-! ## The one-time password -/

/-- The lines of a body: those of the one-time password stand between the others. -/
theorem bodyText_splitOn (e : ImportedEntry) : e.bodyText.splitOn '\n' =
    ((flattenNewlines (utf8Lossy e.password) :: e.beforeTotp.map kvLine).flatMap
        fun l => l.splitOn '\n') ++ (e.totpPair.map kvLine ++
      ((e.urls.map kvLine).flatMap (fun l => l.splitOn '\n') ++
        (notesBlock e.notes).splitOn '\n')) := by
  have htotp : (e.totpPair.map kvLine).flatMap (fun l => l.splitOn '\n') =
      e.totpPair.map kvLine := by
    have hone : ∀ l ∈ e.totpPair.map kvLine, l.splitOn '\n' = [l] := by
      intro l hl
      obtain ⟨kv, hkv, rfl⟩ := List.mem_map.1 hl
      obtain ⟨t, -, rfl⟩ := List.mem_map.1 hkv
      refine List.splitOn_eq_singleton ?_
      simp [kvLine, (oneLine_flattenNewlines t).1]
    rw [List.flatMap_congr hone, List.flatMap_singleton']
  rw [ImportedEntry.bodyText, splitOn_flatMap]
  simp only [List.map_append, List.flatMap_append, List.flatMap_cons, htotp, List.append_assoc]

/-- **The line of the one-time password is not taken for one**: it starts with `otpauth: `. -/
theorem otpauthUri_bodyText (e : ImportedEntry) :
    otpauthUri e.bodyText = otpauthUri { e with totp := none }.bodyText := by
  have hnone : ((e.totpPair.map kvLine).map trim).find? (fun l => "otpauth://".toList <+: l) =
      none := by
    refine List.find?_eq_none.2 fun l hl => ?_
    simp only [ImportedEntry.totpPair, List.map_map, List.mem_map] at hl
    obtain ⟨t, -, rfl⟩ := hl
    rw [decide_eq_true_eq]
    intro hprefix
    have htrim : trim (kvLine ("otpauth".toList, t)) <+: kvLine ("otpauth".toList, t) :=
      trim_prefix fun c hc => by
        obtain rfl : 'o' = c := Option.some.inj hc
        decide
    obtain ⟨w, hw⟩ := hprefix.trans htrim
    simp [kvLine] at hw
  have hbefore : { e with totp := none }.beforeTotp = e.beforeTotp := rfl
  have hurls : { e with totp := none }.urls = e.urls := rfl
  rw [otpauthUri_eq, otpauthUri_eq, bodyText_splitOn, bodyText_splitOn, hbefore, hurls]
  simp only [List.map_append, List.find?_append, hnone, Option.none_or]
  rfl

/-- The other values of the entry print no line that `otp::parse` would take. -/
def ImportedEntry.OthersSilent (e : ImportedEntry) : Prop :=
  ∀ l ∈ { e with totp := none }.bodyText.splitOn '\n', ¬ "otpauth://".toList <+: trim l

/-- **Imported one-time passwords are never found.** In the body that `prepare` makes of an entry
whose other values look like no `otpauth` line, `otp::parse` selects nothing, whatever the entry's
own one-time password is; and so it computes no code. -/
theorem imported_totp_unread {debug : Str → Str} {entries : List ImportedEntry}
    {existing : List RelPath} {prepared : List PreparedEntry} {report : List LossinessNote}
    (hprep : prepare debug entries existing = some (.ok (prepared, report))) :
    List.Forall₂ (fun e q => e.OthersSilent → ∃ text, q.body = utf8Encode text ∧
      (∀ uri, otpauthUri text ≠ some uri) ∧
      ∀ code, currentCode code text = .error .noOtpauthUri) entries prepared := by
  refine (prepare_bodies hprep).imp fun e q hbody hsilent => ⟨_, hbody, ?_⟩
  have hnone : otpauthUri e.bodyText = none := by
    rw [otpauthUri_bodyText, otpauthUri_eq]
    refine List.find?_eq_none.2 fun l hl => ?_
    obtain ⟨line, hline, rfl⟩ := List.mem_map.1 hl
    rw [decide_eq_true_eq]
    exact hsilent line hline
  refine ⟨fun uri => ?_, fun code => ?_⟩
  · rw [hnone]
    exact nofun
  · rw [currentCode, hnone]

/-- A URI that fills a line. -/
structure OtpauthLine (uri : Str) : Prop where
  scheme : "otpauth://".toList <+: uri
  line : OneLine uri
  trimmed : trim uri = uri

theorem bankEntry_silent : bankEntry.OthersSilent := by
  unfold ImportedEntry.OthersSilent
  decide +kernel

theorem imported_totp_unread_bank : ∃ text, bankPrepared.body = utf8Encode text ∧
    (∀ uri, otpauthUri text ≠ some uri) ∧
    ∀ code, currentCode code text = .error .noOtpauthUri :=
  (List.forall₂_cons.1 (imported_totp_unread bankEntry_prepared)).1 bankEntry_silent

/-- **An imported one-time password is lost** to `bypass otp`, which looks for a line of its own. -/
theorem imported_totp_lost :
    ¬ ∀ debug entries existing prepared report,
      prepare debug entries existing = some (.ok (prepared, report)) →
        List.Forall₂ (fun e q => ∀ uri, e.totp = some uri → OtpauthLine uri → e.OthersSilent →
          ∃ text, q.body = utf8Encode text ∧ otpauthUri text = some uri) entries prepared := by
  intro h
  obtain ⟨text, hbody, hfound⟩ := (List.forall₂_cons.1 (h id [bankEntry] [] _ _
    bankEntry_prepared)).1 _ rfl ⟨by decide, by decide, by decide +kernel⟩ bankEntry_silent
  obtain rfl := utf8Encode_injective hbody
  revert hfound
  decide +kernel

end Bypass
