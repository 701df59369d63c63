import Bypass.Extension.FirstLine
import Bypass.Ffi.SplitStore

/-!
# The password, replaced three times

`bypass generate --in-place`, the messaging host and the app each put a new password in the place of
the first line of an entry. What they write is cut out of the bytes; what becomes of the entry is up
to `Entry::parse`, which reads the lines of the text.

* `rewrites_cli`, `rewrites_host`, `rewrites_app`: the body that each of them writes.
* `parse_replaceFirstLine`: how that body is parsed.
* **`generate_in_place`**: the three write the same body, which has the new password and is
  otherwise the old one.
-/

namespace Bypass

open Prog

/-! ## `bypass generate` -/

/-- The errors of `bypass generate`. -/
inductive GenerateError (CE SE VE : Type) where
  | invalidEntryPath (e : PathError)
  | store (e : StoreError CE SE VE)
  deriving DecidableEq

section Cli

variable {W CE SE VE : Type} (store : Store W CE SE VE)

/-- The rest of a body, from the first end of line on. -/
def restOfBody (existing : Bytes) : Bytes :=
  match existing.findIdx? (· = 0x0A) with
  | some i => existing.drop i
  | none => []

/-- `bypass generate`, up to the password that it prints or copies. -/
def generateCommand (path : Str) (length : Option ℕ) (noSymbols inPlace force : Bool)
    (draw : ℕ → ℕ) : Prog (Event CE SE VE) W (GenerateError CE SE VE) Str := do
  let entry ← orThrow .invalidEntryPath (RelPath.new path)
  let password := generate (length.getD defaultLength) (!noSymbols) draw
  if inPlace then
    let existing ← (store.show entry).mapErr .store
    (store.insert entry (utf8Encode password ++ restOfBody existing) true).mapErr .store
    pure password
  else
    (store.insert entry (utf8Encode password) force).mapErr .store
    pure password

end Cli

theorem restOfBody_eq (existing : Bytes) : restOfBody existing = existing.dropWhile (· ≠ 0x0A) := by
  rw [List.dropWhile_eq_drop_findIdx_not, restOfBody]
  simp only [decide_not, Bool.not_not]
  cases hi : existing.findIdx? (· = 0x0A) with
  | some i =>
    rw [(List.findIdx?_eq_some_iff_findIdx_eq.1 hi).2]
  | none =>
    rw [List.findIdx?_eq_none_iff_findIdx_eq.1 hi, List.drop_length]

/-! ## What is written -/

section Writes

variable {W CE SE VE ε α : Type}

/-- Once the entry has been shown, the program goes on as an insertion of the new body over it. -/
def Rewrites (store : Store W CE SE VE) (entry : RelPath) (body : Bytes → Bytes)
    (p : Prog (Event CE SE VE) W ε α) : Prop :=
  ∀ w existing w', (store.show entry).run w = (.ok existing, w') →
    (p.run w).2 = ((store.insert entry (body existing) true).run w').2 ∧
      p.trace w = (store.show entry).trace w ++
        (store.insert entry (body existing) true).trace w'

variable {store : Store W CE SE VE} {entry : RelPath} {body : Bytes → Bytes}

/-- So does a program that passes errors on. -/
theorem rewrites_mapErr {g : StoreError CE SE VE → ε} (a : α) :
    Rewrites store entry body (do
      let existing ← (store.show entry).mapErr g
      (store.insert entry (body existing) true).mapErr g
      pure a : Prog (Event CE SE VE) W ε α) := by
  intro w existing w' hshow
  simp only [run_bind, trace_bind, run_mapErr, trace_mapErr, hshow, Except.mapError]
  rcases (store.insert entry (body existing) true).run w' with ⟨_ | _, t⟩
  · exact ⟨rfl, by simp⟩
  · exact ⟨rfl, by simp⟩

end Writes

section FrontEnds

variable {W CE SE VE : Type}

theorem rewrites_cli (store : Store W CE SE VE) (entry : RelPath) (length : Option ℕ)
    (noSymbols force : Bool) (draw : ℕ → ℕ) :
    Rewrites store entry
      (replaceFirstLine · (generate (length.getD defaultLength) (!noSymbols) draw))
      (generateCommand store entry.str length noSymbols true force draw) := by
  simp only [generateCommand, RelPath.new_of_valid entry.valid, orThrow_ok, pure_bind, if_true,
    restOfBody_eq]
  exact rewrites_mapErr _

theorem rewrites_host (platform : HostPlatform CE SE VE) (store : Store W CE SE VE)
    (moment : Moment) (id : ℕ) (entry : RelPath) (length : Option ℕ) (symbols : Option Bool)
    (force : Bool) :
    Rewrites store entry
      (replaceFirstLine · (generate (length.getD defaultLength) (symbols.getD true) moment.draw))
      (generateOp platform store moment id entry length symbols true force) := by
  intro w existing w' hshow
  simp only [generateOp, if_true, run_bind, trace_bind, run_attempt, trace_attempt, hshow]
  rcases (store.insert entry _ true).run w' with ⟨_ | _, t⟩
  · exact ⟨rfl, by simp⟩
  · exact ⟨rfl, by simp⟩

theorem rewrites_app (platform : Platform SE) (store : Store W BypassError SE Empty)
    (entry : RelPath) (length : Option UInt32) (symbols : Option Bool) (force : Bool)
    (draw : ℕ → ℕ) :
    Rewrites store entry
      (replaceFirstLine ·
        (generate ((length.map UInt32.toNat).getD defaultLength) (symbols.getD true) draw))
      (BypassStore.generate platform store entry.str length symbols true force draw) := by
  simp only [BypassStore.generate, BypassStore.parsePath, RelPath.new_of_valid entry.valid,
    pure_bind, if_true]
  exact rewrites_mapErr _

end FrontEnds

/-! ## How it is parsed -/

theorem parseStr_line (lower : Str → Str) {line : Str} (h : '\n' ∉ line) :
    Entry.parseStr lower line = ⟨stripCr line, []⟩ := by
  rw [Entry.parseStr, List.splitOn_eq_singleton h]
  rfl

/-- The fields are told by what comes after the first end of line. -/
theorem parseStr_append (lower : Str → Str) {line : Str} (rest : Str) (h : '\n' ∉ line) :
    Entry.parseStr lower (line ++ '\n' :: rest) =
      ⟨stripCr line, ((rest.splitOn '\n').map stripCr).filterMap (fieldOf lower)⟩ := by
  rw [Entry.parseStr, List.splitOn_append_cons_self, List.splitOn_eq_singleton h]
  rfl

theorem dropWhile_utf8Encode {line : Str} (h : '\n' ∉ line) (rest : Bytes) :
    (utf8Encode line ++ rest).dropWhile (· ≠ 0x0A) = rest.dropWhile (· ≠ 0x0A) := by
  refine List.dropWhile_append_of_pos fun b hb => decide_eq_true fun heq => h ?_
  exact (mem_utf8Encode (by decide)).1 (heq ▸ hb)

/-- **A body with another password** has that password, and the same fields. -/
theorem parse_replaceFirstLine (lower : Str → Str) {text password : Str} (h : OneLine password) :
    Entry.parse lower (replaceFirstLine (utf8Encode text) password) =
      .ok ⟨password, (Entry.parseStr lower text).fields⟩ := by
  obtain ⟨hline, htext⟩ := beforeFirst_cases '\n' text
  generalize beforeFirst '\n' text = line at hline htext
  rcases htext with rfl | ⟨rest, rfl⟩
  · have hbody : replaceFirstLine (utf8Encode text) password = utf8Encode password := by
      have hdrop := dropWhile_utf8Encode hline []
      rw [List.append_nil] at hdrop
      rw [replaceFirstLine, hdrop, List.dropWhile_nil, List.append_nil]
    rw [hbody, Entry.parse, utf8Decode?_encode]
    simp only [parseStr_line lower h.1, parseStr_line lower hline, stripCr_eq_self h]
  · have hbody : replaceFirstLine (utf8Encode (line ++ '\n' :: rest)) password =
        utf8Encode (password ++ '\n' :: rest) := by
      rw [replaceFirstLine, utf8Encode_append, dropWhile_utf8Encode hline, utf8Encode_append]
      rfl
    rw [hbody, Entry.parse, utf8Decode?_encode]
    simp only [parseStr_append lower rest h.1, parseStr_append lower rest hline, stripCr_eq_self h]

/-! ## All three -/

/-- **Generation in place keeps the rest of the entry.** The command, the host and the app write the
same body, for the same password; it parses as the old one does but for the password, and is the
same from the first end of line on. -/
theorem generate_in_place {W V CE SE VE TE : Type} (store : Store W CE SE VE)
    (hostPlatform : HostPlatform CE SE VE) (appStore : Store V BypassError TE Empty)
    (appPlatform : Platform TE) (entry : RelPath) :
    (∀ length noSymbols force draw, Rewrites store entry
        (replaceFirstLine · (generate (length.getD defaultLength) (!noSymbols) draw))
        (generateCommand store entry.str length noSymbols true force draw)) ∧
      (∀ moment id length symbols force, Rewrites store entry
        (replaceFirstLine · (generate (length.getD defaultLength) (symbols.getD true) moment.draw))
        (generateOp hostPlatform store moment id entry length symbols true force)) ∧
      (∀ length symbols force draw, Rewrites appStore entry
        (replaceFirstLine ·
          (generate ((length.map UInt32.toNat).getD defaultLength) (symbols.getD true) draw))
        (BypassStore.generate appPlatform appStore entry.str length symbols true force draw)) ∧
      ∀ length withSymbols draw existing,
        (∀ lower text, utf8Decode? existing = some text →
          ∃ e, Entry.parse lower existing = .ok e ∧
            Entry.parse lower (replaceFirstLine existing (generate length withSymbols draw)) =
              .ok ⟨generate length withSymbols draw, e.fields⟩) ∧
        (replaceFirstLine existing (generate length withSymbols draw)).dropWhile (· ≠ 0x0A) =
          existing.dropWhile (· ≠ 0x0A) := by
  refine ⟨rewrites_cli store entry,
    fun moment id => rewrites_host hostPlatform store moment id entry,
    rewrites_app appPlatform appStore entry, fun length withSymbols draw existing => ?_⟩
  have hline := generate_oneLine length withSymbols draw
  refine ⟨fun lower text htext => ?_, ?_⟩
  · obtain rfl := utf8Decode?_eq_some.1 htext
    refine ⟨Entry.parseStr lower text, ?_, parse_replaceFirstLine lower hline⟩
    rw [Entry.parse, utf8Decode?_encode]
  · rw [replaceFirstLine, dropWhile_utf8Encode hline.1, List.dropWhile_idempotent]

/-- The fields after a line that ends with a carriage return are kept. -/
theorem generate_in_place_crlf :
    Entry.parse id (replaceFirstLine (utf8Encode crlfBody) (generate 4 false fun i => i)) =
      .ok ⟨"ABCD".toList, [("user".toList, "me".toList)]⟩ := by
  have hpassword : generate 4 false (fun i => i) = "ABCD".toList := by decide
  have hparse : Entry.parse id (utf8Encode crlfBody) =
      .ok ⟨"pw".toList, [("user".toList, "me".toList)]⟩ := by decide +kernel
  obtain ⟨e, he, hnew⟩ := ((generate_in_place memStore hostPlatform appStore testPlatform
    entryX).2.2.2 4 false (fun i => i) (utf8Encode crlfBody)).1 id crlfBody (utf8Decode?_encode _)
  obtain rfl := Except.ok.inj (he.symm.trans hparse)
  rw [hnew, hpassword]

end Bypass
