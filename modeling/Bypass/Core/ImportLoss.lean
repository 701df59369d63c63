import Bypass.Core.ImportBody
import Bypass.Core.ImportReport
import Bypass.Foundations.Joins

/-!
# What an import alters without a note

`serialise_body` (`import.rs`) notes the newlines that it flattens and the bytes that it replaces,
and `prepare` collects the notes. It notes neither the carriage returns that it removes nor the
colons and newlines inside a key, at which the parser splits elsewhere.

* `serialiseBody_silent`: what an entry without notes is like.
* `parse_bodyText`: how its body parses, line by line.
* `silent_loss_iff`: **when nothing is altered silently**.
-/

namespace Bypass

/-! ## Strings -/

/-- A string is its trimmed part with white space around it. -/
theorem exists_trim (s : Str) : ∃ a b, s = a ++ trim s ++ b ∧
    (∀ c ∈ a, isWhitespace c = true) ∧ ∀ c ∈ b, isWhitespace c = true := by
  refine ⟨s.takeWhile isWhitespace, (s.dropWhile isWhitespace).rtakeWhile isWhitespace, ?_,
    fun c hc => List.mem_takeWhile_imp hc, fun c hc => List.mem_rtakeWhile_imp hc⟩
  rw [List.append_assoc, trim, List.rdropWhile_append_rtakeWhile, List.takeWhile_append_dropWhile]

/-- White space around a string is trimmed with it. -/
theorem trim_append {a b : Str} (s : Str) (ha : ∀ c ∈ a, isWhitespace c = true)
    (hb : ∀ c ∈ b, isWhitespace c = true) : trim (a ++ s ++ b) = trim s := by
  have hleft : trim (a ++ s) = trim s := by
    induction a with
    | nil => rfl
    | cons c a ih =>
      obtain ⟨hc, ha⟩ := List.forall_mem_cons.1 ha
      rw [List.cons_append, trim_cons_of_isWhitespace hc, ih ha]
  induction b using List.reverseRecOn with
  | nil => rw [List.append_nil, hleft]
  | append_singleton b c ih =>
    have hc : isWhitespace c = true := hb c (by simp)
    rw [← List.append_assoc, trim_concat_of_isWhitespace hc]
    exact ih fun d hd => hb d (by simp [hd])

theorem mem_of_mem_trim {c : Char} {s : Str} (h : c ∈ trim s) : c ∈ s := by
  by_contra hc
  exact not_mem_trim hc h

/-- Without newlines, flattening removes the carriage returns. -/
theorem flattenNewlines_eq_filter {s : Str} (h : '\n' ∉ s) :
    flattenNewlines s = s.filter (· ≠ '\r') := by
  induction s with
  | nil => rfl
  | cons c s ih =>
    obtain ⟨hc, hs⟩ := not_or.1 (List.mem_cons.not.1 h)
    have hflat : flattenNewlines (c :: s) =
        (if c = '\n' then ['\\', 'n'] else if c = '\r' then [] else [c]) ++ flattenNewlines s := rfl
    rw [hflat, ih hs, if_neg (Ne.symm hc)]
    by_cases hr : c = '\r' <;> simp [hr]

/-- **A value survives** up to trimming when its carriage returns are at its ends. -/
theorem trim_flattenNewlines_iff {v : Str} (h : '\n' ∉ v) :
    trim (flattenNewlines v) = trim v ↔ '\r' ∉ trim v := by
  constructor
  · intro heq hmem
    rw [← heq] at hmem
    exact (oneLine_flattenNewlines v).2 (mem_of_mem_trim hmem)
  · intro hr
    obtain ⟨a, b, hv, ha, hb⟩ := exists_trim v
    have hkeep : (trim v).filter (· ≠ '\r') = trim v := by
      rw [List.filter_eq_self]
      intro c hc
      have : c ≠ '\r' := fun he => hr (he ▸ hc)
      simpa using this
    calc trim (flattenNewlines v)
        = trim ((a ++ trim v ++ b).filter (· ≠ '\r')) := by
          rw [flattenNewlines_eq_filter h, ← hv]
      _ = trim (a.filter (· ≠ '\r') ++ trim v ++ b.filter (· ≠ '\r')) := by
          rw [List.filter_append, List.filter_append, hkeep]
      _ = trim (trim v) := trim_append _ (fun c hc => ha c (List.mem_of_mem_filter hc))
          fun c hc => hb c (List.mem_of_mem_filter hc)
      _ = trim v := trim_trim v

/-- The bytes of a decoded character. -/
theorem eq_of_utf8DecodeChar {b : Bytes} {c : Char} (h : b.toByteArray.utf8DecodeChar? 0 = some c) :
    b = String.utf8EncodeChar c ++ b.drop c.utf8Size := by
  obtain ⟨l, hl⟩ := ByteArray.exists_of_utf8DecodeChar?_eq_some h
  have hdata := congrArg (fun a : ByteArray => a.data.toList) hl
  simp only [List.data_toByteArray, ByteArray.data_append, Array.toList_append] at hdata
  rw [hdata, List.drop_left' (String.length_utf8EncodeChar c)]

/-- What decodes without replacement characters was well formed. -/
theorem utf8Encode_lossyFuel {fuel : ℕ} {b : Bytes} (hfuel : b.length ≤ fuel)
    (h : Char.ofNat 0xfffd ∉ utf8LossyFuel fuel b) : utf8Encode (utf8LossyFuel fuel b) = b := by
  induction fuel generalizing b with
  | zero =>
    obtain rfl : b = [] := List.length_eq_zero_iff.1 (by omega)
    rfl
  | succ fuel ih =>
    cases b with
    | nil => rfl
    | cons x xs =>
      rw [utf8LossyFuel] at h ⊢
      cases hd : (x :: xs).toByteArray.utf8DecodeChar? 0 with
      | none => simp [hd] at h
      | some c =>
        simp only [hd, List.mem_cons, not_or] at h ⊢
        have hbytes := eq_of_utf8DecodeChar hd
        have hlen : ((x :: xs).drop c.utf8Size).length ≤ fuel := by
          have hpos := c.utf8Size_pos
          rw [List.length_drop]
          omega
        have hrest := ih hlen h.2
        have hcons : utf8Encode (c :: utf8LossyFuel fuel ((x :: xs).drop c.utf8Size)) =
            String.utf8EncodeChar c ++ utf8Encode (utf8LossyFuel fuel ((x :: xs).drop c.utf8Size)) :=
          rfl
        rw [hcons, hrest, ← hbytes]

theorem utf8Encode_lossy {b : Bytes} (h : Char.ofNat 0xfffd ∉ utf8Lossy b) :
    utf8Encode (utf8Lossy b) = b :=
  utf8Encode_lossyFuel le_rfl h

/-! ## Entries without notes -/

namespace ImportedEntry

/-- All keys and values of a body, in order. -/
def pairs (e : ImportedEntry) : List (Str × Str) := e.beforeTotp ++ e.totpPair ++ e.urls

/-- What is said of an entry whose body has no notes. -/
structure Silent (e : ImportedEntry) : Prop where
  password_utf8 : Char.ofNat 0xfffd ∉ utf8Lossy e.password
  password_line : '\n' ∉ utf8Lossy e.password
  keys : ∀ kv ∈ e.fields, trim kv.1 ≠ []
  values : ∀ kv ∈ e.pairs, '\n' ∉ kv.2

/-- What `prepare` changes without a note is not there: carriage returns, but at the ends of a
value; colons and newlines, but at the ends of a key. -/
structure Intact (e : ImportedEntry) : Prop where
  password : '\r' ∉ utf8Lossy e.password
  keys : ∀ kv ∈ e.fields, ':' ∉ trim kv.1 ∧ '\n' ∉ trim kv.1
  values : ∀ kv ∈ e.pairs, '\r' ∉ trim kv.2

end ImportedEntry

section Notes

variable {debug : Str → Str} {path : Str}

theorem pushKv_notes {key value : Str} (h : (pushKv debug key value path).2 = []) :
    '\n' ∉ value := by
  intro hmem
  simp [pushKv, hmem] at h

/-- **An entry whose body has no notes**: a password without newlines and replacements, keys that
are not blank, values without newlines. -/
theorem serialiseBody_silent {e : ImportedEntry} (h : (serialiseBody debug e path).2 = []) :
    e.Silent := by
  simp only [serialiseBody, List.flatMap_eq_nil_iff, List.mem_append, List.mem_cons,
    List.mem_map] at h
  have hpassword : (passwordLine e.password path).2 = [] :=
    h _ (Or.inl (Or.inl (Or.inl (Or.inl rfl))))
  have husername : ∀ u ∈ e.username.toList, '\n' ∉ u := fun u hu =>
    pushKv_notes (h _ (Or.inl (Or.inl (Or.inl (Or.inr ⟨u, hu, rfl⟩)))))
  have hfields : ∀ kv ∈ e.fields, trim kv.1 ≠ [] ∧ '\n' ∉ kv.2 := by
    rintro ⟨k, v⟩ hkv
    have hfield := h _ (Or.inl (Or.inl (Or.inr ⟨(k, v), hkv, rfl⟩)))
    rw [fieldLine] at hfield
    split_ifs at hfield with hk
    exact ⟨hk, pushKv_notes hfield⟩
  have htotp : ∀ t ∈ e.totp.toList, '\n' ∉ t := fun t ht =>
    pushKv_notes (h _ (Or.inl (Or.inr ⟨t, ht, rfl⟩)))
  have huris : ∀ uri ∈ e.uris.zipIdx, '\n' ∉ uri.1 := fun uri huri =>
    pushKv_notes (h _ (Or.inr ⟨uri, huri, rfl⟩))
  simp only [passwordLine, List.append_eq_nil_iff, ite_eq_right_iff, List.cons_ne_nil,
    imp_false] at hpassword
  refine ⟨hpassword.1, hpassword.2, fun kv hkv => (hfields kv hkv).1, fun kv hkv => ?_⟩
  simp only [ImportedEntry.pairs, ImportedEntry.beforeTotp, ImportedEntry.totpPair,
    ImportedEntry.urls, List.mem_append, List.mem_map, List.mem_filterMap] at hkv
  rcases hkv with ((⟨u, hu, rfl⟩ | ⟨kv, hkv, hsome⟩) | ⟨t, ht, rfl⟩) | ⟨uri, huri, rfl⟩
  · exact husername u hu
  · split_ifs at hsome
    obtain rfl := Option.some.inj hsome
    exact (hfields kv hkv).2
  · exact htotp t ht
  · exact huris uri huri

end Notes

/-! ## Parsing a body -/

section Parse

variable {lower : Str → Str} {e : ImportedEntry}

theorem stripCr_subset {c : Char} {line : Str} (h : c ∈ stripCr line) : c ∈ line := by
  rw [stripCr] at h
  cases hs : stripSuffix line ['\r'] with
  | none => simpa [hs] using h
  | some w =>
    rw [stripSuffix_eq_some.1 hs]
    exact List.mem_append_left _ (by simpa [hs] using h)

/-- **How a body parses**: the lines of its keys and values, which the keys may break. -/
theorem parse_bodyText (lower : Str → Str) (hnotes : notesBlock e.notes = []) :
    Entry.parseStr lower e.bodyText = ⟨flattenNewlines (utf8Lossy e.password),
      (((e.pairs.map kvLine).flatMap fun l => l.splitOn '\n').map stripCr).filterMap
        (fieldOf lower)⟩ := by
  have hline := oneLine_flattenNewlines (utf8Lossy e.password)
  have hbody : e.bodyText.splitOn '\n' = flattenNewlines (utf8Lossy e.password) ::
      ((e.pairs.map kvLine).flatMap (fun l => l.splitOn '\n') ++ [[]]) := by
    rw [ImportedEntry.bodyText, hnotes, splitOn_flatMap, List.flatMap_cons,
      List.splitOn_eq_singleton hline.1]
    rfl
  have hempty : fieldOf lower (stripCr []) = none := rfl
  rw [Entry.parseStr, hbody, List.map_cons, stripCr_eq_self hline]
  simp [hempty]

/-- A parsed key holds neither a colon nor a newline. -/
theorem key_of_parse {kv : Str × Str} (h : kv ∈ (((e.pairs.map kvLine).flatMap fun l =>
    l.splitOn '\n').map stripCr).filterMap (fieldOf lower)) :
    ∃ key, kv.1 = lower key ∧ ':' ∉ key ∧ '\n' ∉ key := by
  obtain ⟨line, hline, hfield⟩ := List.mem_filterMap.1 h
  obtain ⟨piece, hpiece, rfl⟩ := List.mem_map.1 hline
  obtain ⟨l, -, hpiece⟩ := List.mem_flatMap.1 hpiece
  rw [fieldOf, splitColon] at hfield
  split_ifs at hfield with hcolon
  dsimp only at hfield
  split_ifs at hfield
  obtain rfl := Option.some.inj hfield
  refine ⟨_, rfl, fun hmem => ?_, fun hmem => ?_⟩
  · have hstop := List.mem_takeWhile_imp (mem_of_mem_trim hmem)
    simp at hstop
  · have hin := (List.takeWhile_prefix _).subset (mem_of_mem_trim hmem)
    exact not_mem_of_mem_splitOn hpiece (stripCr_subset hin)

theorem stripCr_eq_of_getLast {l : Str} (h : l.getLast? ≠ some '\r') : stripCr l = l := by
  rw [stripCr]
  cases hs : stripSuffix l ['\r'] with
  | none => rfl
  | some w =>
    rw [stripSuffix_eq_some.1 hs, List.getLast?_concat] at h
    exact absurd rfl h

/-- A line without newlines in its key is one line, and ends in no carriage return. -/
theorem split_kvLine {kv : Str × Str} (h : '\n' ∉ kv.1) :
    ((kvLine kv).splitOn '\n').map stripCr = [kvLine kv] := by
  have hflat := oneLine_flattenNewlines kv.2
  have hline : '\n' ∉ kvLine kv := by simp [kvLine, h, hflat.1]
  have hlast : (kvLine kv).getLast? ≠ some '\r' := by
    intro hr
    rw [kvLine] at hr
    by_cases hnil : flattenNewlines kv.2 = []
    · simp [hnil] at hr
    · rw [List.getLast?_append_of_ne_nil _ hnil] at hr
      exact hflat.2 (List.mem_of_getLast? hr)
  rw [List.splitOn_eq_singleton hline, List.map_singleton, stripCr_eq_of_getLast hlast]

/-- The keys of a body, when those of the fields break no line. -/
theorem pairs_keys (hsilent : e.Silent)
    (hkeys : ∀ kv ∈ e.fields, ':' ∉ trim kv.1 ∧ '\n' ∉ trim kv.1) :
    ∀ kv ∈ e.pairs, trim kv.1 = kv.1 ∧ kv.1 ≠ [] ∧ ':' ∉ kv.1 ∧ '\n' ∉ kv.1 := by
  have hown : ∀ key : Str, key.all isKeyChar = true → key ≠ [] →
      trim key = key ∧ key ≠ [] ∧ ':' ∉ key ∧ '\n' ∉ key := fun key hkey hne => by
    have hread := readable_of_all hkey hne (show OneLine [] by decide)
    exact ⟨hread.trimmed, hread.ne_nil, hread.no_colon, hread.key.1⟩
  intro kv hkv
  simp only [ImportedEntry.pairs, ImportedEntry.beforeTotp, ImportedEntry.fields_eq hsilent.keys,
    ImportedEntry.totpPair, ImportedEntry.urls, List.mem_append, List.mem_map] at hkv
  rcases hkv with ((⟨u, -, rfl⟩ | ⟨kv, hkv, rfl⟩) | ⟨t, -, rfl⟩) | ⟨uri, -, rfl⟩
  · exact hown "login".toList (by decide +kernel) (by decide)
  · exact ⟨trim_trim kv.1, hsilent.keys kv hkv, hkeys kv hkv⟩
  · exact hown "otpauth".toList (by decide +kernel) (by decide)
  · exact hown _ (urlKey_all uri.2) (urlKey_ne_nil uri.2)

/-- **Keys that break no line** are parsed with their values, flattened and trimmed. -/
theorem fields_of_keys (hsilent : e.Silent)
    (hkeys : ∀ kv ∈ e.fields, ':' ∉ trim kv.1 ∧ '\n' ∉ trim kv.1) :
    (((e.pairs.map kvLine).flatMap fun l => l.splitOn '\n').map stripCr).filterMap
        (fieldOf lower) =
      e.pairs.map fun kv => (lower kv.1, trim (flattenNewlines kv.2)) := by
  have hall := pairs_keys hsilent hkeys
  generalize e.pairs = kvs at hall
  induction kvs with
  | nil => rfl
  | cons kv kvs ih =>
    obtain ⟨⟨htrim, hne, hcolon, hline⟩, hrest⟩ := List.forall_mem_cons.1 hall
    rw [List.map_cons, List.flatMap_cons, List.map_append, split_kvLine hline, List.filterMap_append,
      ih hrest, List.map_cons, List.filterMap_cons_some (fieldOf_kvLine lower htrim hne hcolon kv.2)]
    rfl

end Parse

/-! ## Batches -/

/-- `str::to_lowercase` makes and takes no colon and no newline. -/
def KeepsSeparators (lower : Str → Str) : Prop :=
  ∀ s, (':' ∈ lower s ↔ ':' ∈ s) ∧ ('\n' ∈ lower s ↔ '\n' ∈ s)

/-- The password of an entry is parsed byte for byte, and its keys and values up to the case of the
keys and white space around them. -/
def ImportedEntry.Survives (lower : Str → Str) (e : ImportedEntry) (parsed : Entry) : Prop :=
  utf8Encode parsed.password = e.password ∧ ∀ kv ∈ e.readBack lower, kv ∈ parsed.fields

theorem mem_values {kvs : List (Str × Str)} {lower : Str → Str} {kv : Str × Str}
    (h : kv ∈ kvs) (hall : ∀ p ∈ kvs.map (fun kv => (lower kv.1, trim kv.2)),
      p ∈ kvs.map fun kv => (lower kv.1, trim (flattenNewlines kv.2))) : '\r' ∉ trim kv.2 := by
  obtain ⟨kv', -, heq⟩ := List.mem_map.1 (hall _ (List.mem_map_of_mem h))
  rw [← (Prod.mk.inj heq).2]
  exact fun hr => (oneLine_flattenNewlines kv'.2).2 (mem_of_mem_trim hr)

section Survives

variable {lower : Str → Str} {e : ImportedEntry}

/-- What an intact body parses as. -/
theorem ImportedEntry.Intact.parse (hlower : LowerFixes lower) (hsilent : e.Silent)
    (hnotes : notesBlock e.notes = []) (h : e.Intact) :
    Entry.parseStr lower e.bodyText = ⟨utf8Lossy e.password, e.readBack lower⟩ := by
  have hpassword : OneLine (utf8Lossy e.password) := ⟨hsilent.password_line, h.password⟩
  have hvalues : ∀ kv ∈ e.pairs, (lower kv.1, trim (flattenNewlines kv.2)) =
      (lower kv.1, trim kv.2) := fun kv hkv => by
    rw [(trim_flattenNewlines_iff (hsilent.values kv hkv)).2 (h.values kv hkv)]
  rw [parse_bodyText lower hnotes, fields_of_keys hsilent h.keys, List.map_congr_left hvalues,
    flattenNewlines_eq_self hpassword]
  exact congrArg _ (ImportedEntry.map_pairs hsilent.keys hlower)

/-- **Only an intact entry survives.** -/
theorem ImportedEntry.Survives.intact (hlower : LowerFixes lower) (hsep : KeepsSeparators lower)
    (hsilent : e.Silent) (hnotes : notesBlock e.notes = [])
    (h : e.Survives lower (Entry.parseStr lower e.bodyText)) : e.Intact := by
  rw [parse_bodyText lower hnotes] at h
  obtain ⟨hpassword, hfields⟩ := h
  rw [← ImportedEntry.map_pairs hsilent.keys hlower] at hfields
  have hkeys : ∀ kv ∈ e.fields, ':' ∉ trim kv.1 ∧ '\n' ∉ trim kv.1 := by
    intro kv hkv
    have hmem : (trim kv.1, kv.2) ∈ e.beforeTotp ++ e.totpPair ++ e.urls := by
      simp only [ImportedEntry.beforeTotp, ImportedEntry.fields_eq hsilent.keys, List.mem_append,
        List.mem_map]
      exact Or.inl (Or.inl (Or.inr ⟨kv, hkv, rfl⟩))
    obtain ⟨key, hkey, hcolon, hline⟩ := key_of_parse (hfields _ (List.mem_map_of_mem hmem))
    dsimp only at hkey
    obtain ⟨hcolon₁, hline₁⟩ := hsep (trim kv.1)
    obtain ⟨hcolon₂, hline₂⟩ := hsep key
    rw [hkey] at hcolon₁ hline₁
    exact ⟨fun hin => hcolon (hcolon₂.1 (hcolon₁.2 hin)), fun hin => hline (hline₂.1 (hline₁.2 hin))⟩
  refine ⟨fun hr => ?_, hkeys, fun kv hkv => ?_⟩
  · have heq : flattenNewlines (utf8Lossy e.password) = utf8Lossy e.password :=
      utf8Encode_injective (hpassword.trans (utf8Encode_lossy hsilent.password_utf8).symm)
    rw [← heq] at hr
    exact (oneLine_flattenNewlines _).2 hr
  · dsimp only at hfields
    rw [fields_of_keys hsilent hkeys] at hfields
    exact mem_values hkv hfields

end Survives

/-- **When nothing is altered silently.** Of an entry without notes text, for whose path the report
has no note, the body parses; and the password and the fields survive exactly when the password has
no carriage return, no key has a colon or a newline inside, and no value a carriage return. Then the
fields are just those of the entry, in order. -/
theorem silent_loss_iff {lower : Str → Str} (hlower : LowerFixes lower)
    (hsep : KeepsSeparators lower) {debug : Str → Str} {entries : List ImportedEntry}
    {existing : List RelPath} {prepared : List PreparedEntry} {report : List LossinessNote}
    (hprep : prepare debug entries existing = some (.ok (prepared, report))) :
    List.Forall₂ (fun e q => (∀ notes ∈ e.notes, notes = []) →
      (∀ note ∈ report, note.entry ≠ q.path.str) →
        ∃ parsed, Entry.parse lower q.body = .ok parsed ∧ (e.Survives lower parsed ↔ e.Intact) ∧
          (e.Intact → parsed.fields = e.readBack lower)) entries prepared := by
  obtain ⟨desired, -, -, -, hbodies⟩ := prepare_eq_ok hprep
  refine hbodies.imp fun e q ⟨hbody, hreport⟩ htext hnone => ?_
  have hquiet : (serialiseBody debug e q.path.str).2 = [] :=
    List.eq_nil_iff_forall_not_mem.2 fun note hnote =>
      hnone note (hreport note hnote) (note_of_mem_serialiseBody hnote).1
  have hsilent : e.Silent := serialiseBody_silent hquiet
  have hnotes : notesBlock e.notes = [] := by
    cases hn : e.notes with
    | none => rfl
    | some notes => rw [notesBlock, if_pos (htext notes hn)]
  rw [serialiseBody_text] at hbody
  refine ⟨Entry.parseStr lower e.bodyText, ?_, ⟨fun h => ?_, fun h => ?_⟩, fun h => ?_⟩
  · rw [hbody, Entry.parse, utf8Decode?_encode]
  · exact h.intact hlower hsep hsilent hnotes
  · rw [h.parse hlower hsilent hnotes]
    exact ⟨utf8Encode_lossy hsilent.password_utf8, fun kv hkv => hkv⟩
  · rw [h.parse hlower hsilent hnotes]

theorem asciiLower_keeps : KeepsSeparators asciiLower := by
  have hchar : ∀ d : Char, d.isLower = false → ∀ c : Char, c.toLower = d → c = d := by
    rintro d hd c rfl
    by_cases hupper : c.isUpper
    · simp [Char.isAlpha, hupper] at hd
    · exact (Char.toLower_eq_of_not_isUpper hupper).symm
  have hmem : ∀ d : Char, d.isLower = false → d.toLower = d → ∀ s,
      d ∈ asciiLower s ↔ d ∈ s := by
    intro d hd hself s
    rw [asciiLower, List.mem_map]
    constructor
    · rintro ⟨c, hc, hcd⟩
      exact hchar d hd c hcd ▸ hc
    · exact fun hin => ⟨d, hin, hself⟩
  exact fun s => ⟨hmem ':' (by decide) (by decide) s, hmem '\n' (by decide) (by decide) s⟩

theorem silent_loss_iff_bank :
    ∃ parsed, Entry.parse asciiLower bankPrepared.body = .ok parsed ∧
      (bankEntry.Survives asciiLower parsed ↔ bankEntry.Intact) ∧
        (bankEntry.Intact → parsed.fields = bankEntry.readBack asciiLower) :=
  (List.forall₂_cons.1 (silent_loss_iff asciiLower_fixes asciiLower_keeps bankEntry_prepared)).1
    nofun nofun

/-- An entry whose one field has a carriage return inside. -/
def vpnEntry : ImportedEntry where
  folder := []
  name := "vpn".toList
  password := utf8Encode "p".toList
  username := none
  fields := [("config".toList, "a\rb".toList)]
  totp := none
  notes := none
  uris := []

/-- **A value can be altered silently**: its carriage returns are removed. -/
theorem value_altered_silently :
    ¬ ∀ lower, LowerFixes lower → KeepsSeparators lower →
      ∀ debug entries existing prepared report,
        prepare debug entries existing = some (.ok (prepared, report)) →
          List.Forall₂ (fun e q => (∀ notes ∈ e.notes, notes = []) →
            (∀ note ∈ report, note.entry ≠ q.path.str) →
              ∃ parsed, Entry.parse lower q.body = .ok parsed ∧ e.Survives lower parsed)
            entries prepared := by
  intro h
  have hprep : prepare id [vpnEntry] [] = some (.ok
      ([⟨⟨"vpn".toList, by decide⟩, utf8Encode "p\nconfig: ab\n".toList⟩], [])) := by
    decide +kernel
  obtain ⟨parsed, hparse, -, hfields⟩ :=
    (List.forall₂_cons.1 (h asciiLower asciiLower_fixes asciiLower_keeps id _ _ _ _ hprep)).1
      nofun nofun
  have hread : Entry.parse asciiLower (utf8Encode "p\nconfig: ab\n".toList) =
      .ok ⟨"p".toList, [("config".toList, "ab".toList)]⟩ := by
    decide +kernel
  obtain rfl := Except.ok.inj (hread.symm.trans hparse)
  revert hfields
  decide +kernel

end Bypass
