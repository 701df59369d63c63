import Bypass.Extension.NativeClient
import Bypass.Foundations.Utf8

/-!
# The password, three times

The password of an entry is its first line. `bypass show -c` cuts it out of the bytes and hands it
to the clipboard daemon, the popup of the extension cuts it out of the reply of the messaging host,
and `Entry::parse` takes it from the lines of the text, of which it strips a carriage return.

* `showClip_firstLine`, `popup_firstLine`, `parseStr_password`: what each of them makes of a body.
* `front_ends_agree_iff`: **when they agree**.
-/

namespace Bypass

open Prog

/-! ## Up to the first -/

section BeforeFirst

variable {α : Type} [DecidableEq α] {c : α} {s a b : List α}

/-- What comes before the first `c`: all, if there is none. -/
def beforeFirst (c : α) (s : List α) : List α :=
  match s.findIdx? (· = c) with
  | some i => s.take i
  | none => s

theorem beforeFirst_of_not_mem (h : c ∉ s) : beforeFirst c s = s := by
  have hnone : s.findIdx? (· = c) = none := by
    rw [List.findIdx?_eq_none_iff]
    intro x hx
    simpa using ne_of_mem_of_not_mem hx h
  rw [beforeFirst, hnone]

theorem beforeFirst_append (h : c ∉ a) : beforeFirst c (a ++ c :: b) = a := by
  have hsome : (a ++ c :: b).findIdx? (· = c) = some a.length := by
    have hnone : a.findIdx? (· = c) = none := by
      rw [List.findIdx?_eq_none_iff]
      intro x hx
      simpa using ne_of_mem_of_not_mem hx h
    rw [List.findIdx?_append, hnone]
    simp [List.findIdx?_cons]
  rw [beforeFirst, hsome]
  exact List.take_left

theorem beforeFirst_cases (c : α) (s : List α) :
    c ∉ beforeFirst c s ∧ (s = beforeFirst c s ∨ ∃ b, s = beforeFirst c s ++ c :: b) := by
  by_cases h : c ∈ s
  · obtain ⟨a, b, rfl, ha⟩ := List.eq_append_cons_of_mem h
    rw [beforeFirst_append ha]
    exact ⟨ha, Or.inr ⟨b, rfl⟩⟩
  · rw [beforeFirst_of_not_mem h]
    exact ⟨h, Or.inl rfl⟩

end BeforeFirst

/-- The first line of a body, with the carriage return that may be at its end. -/
def firstLine (text : Str) : Str := beforeFirst '\n' text

/-! ## `bypass show -c` -/

/-- The errors of `bypass show` and of the clipboard daemon. -/
inductive ShowError where
  | parseEntryBody (e : EntryError)
  | noField (name : Str)
  | emptyPassword
  | passwordNotUtf8
  deriving DecidableEq

/-- The output of `bypass show`: the body of the entry, or a field of it. -/
def showOutput (lower : Str → Str) (field : Option Str) (plaintext : Bytes) :
    Except ShowError Bytes :=
  match field with
  | some name =>
    match Entry.parse lower plaintext with
    | .error e => .error (.parseEntryBody e)
    | .ok parsed =>
      match parsed.field lower name with
      | none => .error (.noField name)
      | some value => .ok (utf8Encode value)
  | none => .ok plaintext

/-- What `-c` copies of it. -/
def toCopy (field : Option Str) (output : Bytes) : Bytes :=
  if field.isSome then output else beforeFirst 0x0A output

/-- `run_daemon`, up to the text that it puts on the clipboard. -/
def runDaemon (buf : Bytes) : Except ShowError Str :=
  if buf = [] then .error .emptyPassword
  else
    match utf8Decode? buf with
    | none => .error .passwordNotUtf8
    | some password => .ok password

/-- `bypass show -c`: the text that the daemon puts on the clipboard. -/
def showClip (lower : Str → Str) (field : Option Str) (plaintext : Bytes) : Except ShowError Str := do
  let output ← showOutput lower field plaintext
  runDaemon (toCopy field output)

/-- The first line of the bytes is that of the text. -/
theorem beforeFirst_utf8Encode (text : Str) :
    beforeFirst 0x0A (utf8Encode text) = utf8Encode (firstLine text) := by
  obtain ⟨hnot, htext⟩ := beforeFirst_cases '\n' text
  have hnot' : (0x0A : UInt8) ∉ utf8Encode (firstLine text) := fun h =>
    hnot ((mem_utf8Encode (by decide)).1 h)
  rcases htext with htext | ⟨rest, htext⟩
  · have hself : firstLine text = text := htext.symm
    rw [hself] at hnot' ⊢
    exact beforeFirst_of_not_mem hnot'
  · have hbytes : utf8Encode text = utf8Encode (firstLine text) ++ 0x0A :: utf8Encode rest := by
      conv_lhs => rw [htext]
      exact utf8Encode_append _ _
    rw [hbytes, beforeFirst_append hnot']

/-- **What `bypass show -c` copies**: nothing, where the first line is empty. -/
theorem showClip_firstLine (lower : Str → Str) (text : Str) :
    showClip lower none (utf8Encode text) =
      if firstLine text = [] then .error .emptyPassword else .ok (firstLine text) := by
  show runDaemon (beforeFirst 0x0A (utf8Encode text)) = _
  rw [beforeFirst_utf8Encode, runDaemon, utf8Decode?_encode]
  refine if_congr ?_ rfl rfl
  exact utf8Encode_injective.eq_iff' rfl

/-! ## The popup -/

/-- `unwrapPlaintext`. -/
def unwrapPlaintext : Reply → Except Str Str
  | .ok _ (.plaintext plaintext) => .ok plaintext
  | .ok _ _ => .error "reply missing `plaintext`".toList
  | .err _ error => .error error

/-- `copyFirstLineToClipboard`, on the reply to its request: what it writes to the clipboard. An
index into a string counts code units, but the cut is where the newline is. -/
def copyFirstLine (reply : Reply) : Except Str Str := do
  let plaintext ← unwrapPlaintext reply
  pure (beforeFirst '\n' plaintext)

section Popup

variable {W CE SE VE JE : Type} (platform : HostPlatform CE SE VE) (json : SerdeJson JE)
  (store : Store W CE SE VE)

/-- What the popup copies of the entry at `path`: nothing, if the reply is too long to be sent. -/
def popupClip (moment : Moment) (id : ℕ) (path : Str) (w : W) : Option Str :=
  let reply := replyTo platform store moment ⟨id, .show path none⟩ w
  match json.toVec reply with
  | .error _ => none
  | .ok bytes =>
    if maxReplyBytes < bytes.length then none
    else (copyFirstLine reply).toOption

/-- The reply that holds the text can be sent. -/
def TextFits (id : ℕ) (text : Str) : Prop :=
  ∃ bytes, json.toVec (.ok id (.plaintext text)) = .ok bytes ∧ bytes.length ≤ maxReplyBytes

variable {platform json store} {moment : Moment} {id : ℕ} {path : Str} {rel : RelPath} {w : W}
  {text : Str}

/-- The host replies with the text. -/
theorem replyTo_show (hpath : parsePath platform path = .ok rel)
    (hshow : ((store.show rel).run w).1 = .ok (utf8Encode text)) :
    replyTo platform store moment ⟨id, .show path none⟩ w = .ok id (.plaintext text) := by
  have hrun : (store.show rel).run w = (.ok (utf8Encode text), ((store.show rel).run w).2) :=
    Prod.ext hshow rfl
  have hdispatch : (dispatch platform store moment ⟨id, .show path none⟩).run w =
      (.ok (.ok id (.plaintext text)), ((store.show rel).run w).2) := by
    unfold dispatch
    dsimp only
    rw [hpath]
    dsimp only
    rw [run_bind, run_attempt, hrun]
    dsimp only
    rw [utf8Decode?_encode]
    rfl
  rw [replyTo, hdispatch]

/-- **What the popup copies.** -/
theorem popup_firstLine (hpath : parsePath platform path = .ok rel)
    (hshow : ((store.show rel).run w).1 = .ok (utf8Encode text)) (copied : Str) :
    popupClip platform json store moment id path w = some copied ↔
      TextFits json id text ∧ copied = firstLine text := by
  rw [popupClip, replyTo_show hpath hshow, TextFits]
  cases json.toVec (.ok id (.plaintext text)) with
  | error e => simp
  | ok bytes =>
    by_cases hlong : maxReplyBytes < bytes.length
    · simp [hlong]
    · have hcopy : (copyFirstLine (.ok id (.plaintext text))).toOption = some (firstLine text) := rfl
      simp [hlong, hcopy, not_lt.1 hlong, eq_comm]

/-! ## The parser -/

/-- **What the parser takes for the password.** -/
theorem parseStr_password (lower : Str → Str) (text : Str) :
    (Entry.parseStr lower text).password = stripCr (firstLine text) := by
  obtain ⟨hnot, htext⟩ := beforeFirst_cases '\n' text
  have hsplit : ∃ rest, text.splitOn '\n' = firstLine text :: rest := by
    rcases htext with htext | ⟨rest, htext⟩
    · have hself : firstLine text = text := htext.symm
      refine ⟨[], ?_⟩
      rw [hself]
      exact List.splitOn_eq_singleton (htext ▸ hnot)
    · refine ⟨rest.splitOn '\n', ?_⟩
      conv_lhs => rw [htext]
      rw [List.splitOn_append_cons_self, List.splitOn_eq_singleton hnot]
      rfl
  obtain ⟨rest, hsplit⟩ := hsplit
  rw [Entry.parseStr, hsplit]
  rfl

theorem stripCr_eq_self_iff {line : Str} : stripCr line = line ↔ line.getLast? ≠ some '\r' := by
  rw [stripCr]
  cases hs : stripSuffix line ['\r'] with
  | none =>
    refine iff_of_true rfl fun hlast => ?_
    obtain ⟨s, rfl⟩ := List.getLast?_eq_some_iff.1 hlast
    rw [stripSuffix_eq_some.2 rfl] at hs
    cases hs
  | some s =>
    obtain rfl := stripSuffix_eq_some.1 hs
    refine iff_of_false (fun heq => ?_) fun hne => hne List.getLast?_concat
    have hlen := congrArg List.length heq
    simp at hlen

/-! ## All three -/

/-- **When the front ends agree on the password**: when the first line is not empty and does not end
in a carriage return, and the entry is not too long for the browser. -/
theorem front_ends_agree_iff (hpath : parsePath platform path = .ok rel)
    (hshow : ((store.show rel).run w).1 = .ok (utf8Encode text)) :
    (∃ entry, Entry.parse platform.lower (utf8Encode text) = .ok entry ∧
        showClip platform.lower none (utf8Encode text) = .ok entry.password ∧
        popupClip platform json store moment id path w = some entry.password) ↔
      firstLine text ≠ [] ∧ (firstLine text).getLast? ≠ some '\r' ∧ TextFits json id text := by
  have hparse : Entry.parse platform.lower (utf8Encode text) =
      .ok (Entry.parseStr platform.lower text) := by
    rw [Entry.parse, utf8Decode?_encode]
  have hcopied := @popup_firstLine W CE SE VE JE platform json store moment id path rel w text
    hpath hshow
  rw [showClip_firstLine, hparse, ← stripCr_eq_self_iff]
  constructor
  · rintro ⟨entry, hentry, hclip, hpopup⟩
    obtain rfl := Except.ok.inj hentry
    rw [parseStr_password] at hclip hpopup
    split_ifs at hclip with hempty
    exact ⟨hempty, (Except.ok.inj hclip).symm, ((hcopied _).1 hpopup).1⟩
  · rintro ⟨hne, hcr, hfits⟩
    refine ⟨_, rfl, ?_, (hcopied _).2 ⟨hfits, ?_⟩⟩
    · rw [if_neg hne, parseStr_password, hcr]
    · rw [parseStr_password, hcr]

end Popup

/-! ## An entry with carriage returns -/

/-- A body whose lines end with a carriage return and a newline. -/
def crlfBody : Str := "pw\r\nuser: me\r\n".toList

theorem crlf_lines : (firstLine crlfBody, stripCr (firstLine crlfBody)) =
    (['p', 'w', '\r'], ['p', 'w']) := by
  decide

theorem parsePath_a : parsePath hostPlatform ['a'] = .ok ⟨['a'], by decide⟩ := by decide

/-- The two clipboards get a carriage return with the password. -/
theorem crlf_password_differs :
    (Entry.parse hostPlatform.lower (utf8Encode crlfBody)).map Entry.password = .ok ['p', 'w'] ∧
      showClip hostPlatform.lower none (utf8Encode crlfBody) = .ok ['p', 'w', '\r'] ∧
      popupClip hostPlatform hostJson memStore anyMoment 1 ['a'] (holdsOne crlfBody) =
        some ['p', 'w', '\r'] := by
  obtain ⟨hfirst, hstrip⟩ := Prod.mk.inj crlf_lines
  refine ⟨?_, ?_, ?_⟩
  · rw [Entry.parse, utf8Decode?_encode]
    show Except.ok (Entry.parseStr _ crlfBody).password = _
    rw [parseStr_password, hstrip]
  · rw [showClip_firstLine, hfirst]
    rfl
  · rw [popup_firstLine parsePath_a (congrArg Prod.fst (show_holdsOne crlfBody)), hfirst]
    exact ⟨⟨_, rfl, by decide +kernel⟩, rfl⟩

theorem front_ends_agree_pw :
    (∃ entry, Entry.parse hostPlatform.lower (utf8Encode ['p', 'w']) = .ok entry ∧
        showClip hostPlatform.lower none (utf8Encode ['p', 'w']) = .ok entry.password ∧
        popupClip hostPlatform hostJson memStore anyMoment 1 ['a'] (holdsOne ['p', 'w']) =
          some entry.password) ↔
      firstLine ['p', 'w'] ≠ [] ∧ (firstLine ['p', 'w']).getLast? ≠ some '\r' ∧
        TextFits hostJson 1 ['p', 'w'] :=
  front_ends_agree_iff parsePath_a (congrArg Prod.fst (show_holdsOne ['p', 'w']))

end Bypass
