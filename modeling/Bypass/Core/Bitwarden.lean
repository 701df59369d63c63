import Bypass.Core.Import
import Bypass.Foundations.Folds

/-!
# The Bitwarden importer

The plain JSON export of a vault (`import/bitwarden.rs`). Logins and secure notes become entries;
cards, identities and items of unknown types are skipped with a note. Of the custom fields, the
linked ones are dropped with a note, and those without a name are dropped without one.

What decodes the JSON is `serde_json`; here it is a parameter.

* `Bitwarden.collectFields_eq`: which custom fields are kept.
* `Bitwarden.parse_outcomes`: what each item becomes, in order.
* `Bitwarden.parse_accounts_iff`: **when every field is accounted for**.
-/

namespace Bypass.Bitwarden

/-! ## The export -/

/-- `Folder`. -/
structure Folder where
  id : Str
  name : Str

/-- `Uri`. -/
structure Uri where
  uri : Option Str

/-- `Login`. -/
structure Login where
  username : Option Str
  password : Option Str
  totp : Option Str
  uris : List Uri

/-- `Field`. -/
structure Field where
  name : Option Str
  value : Option Str
  fieldType : UInt32

/-- `Item`. -/
structure Item where
  itemType : UInt32
  name : Option Str
  folderId : Option Str
  notes : Option Str
  fields : List Field
  login : Option Login

/-- `Export`. -/
structure Export where
  encrypted : Bool
  folders : List Folder
  items : List Item

/-- `BitwardenError`; `E` is the error of `serde_json`. -/
inductive BitwardenError (E : Type) where
  | notBitwarden (why : Str)
  | encrypted
  | parse (e : E)

/-- The message; `display` is that of the decoder's error. -/
def BitwardenError.message {E : Type} (display : E → Str) : BitwardenError E → Str
  | notBitwarden why => "not a Bitwarden export: ".toList ++ why
  | encrypted => ("Bitwarden encrypted exports are not supported by this version of `bypass` — " ++
      "re-export with `Tools → Export Vault` and set the file password to *empty* to produce a " ++
      "plain-JSON export").toList
  | parse e => "Bitwarden JSON parse: ".toList ++ display e

/-! ## Notes -/

/-- That linked fields were dropped; the two kinds of items give different reasons. -/
def droppedLinked (count : ℕ) (reason : Str) : Str :=
  "dropped ".toList ++ Nat.toDigits 10 count ++ " \"linked\" custom field".toList ++
    (if count = 1 then [] else ['s']) ++ reason

/-- That a secure note has no password. -/
def emptyPassword : Str :=
  "secure-note imported with an empty password line (Bitwarden notes have no password field)".toList

/-- That a card or an identity was skipped. -/
def skippedType (itemType : UInt32) : Str :=
  "skipped Bitwarden type-".toList ++ Nat.toDigits 10 itemType.toNat ++
    (" item (cards and identities don't map cleanly to a password entry; export them manually " ++
      "if you need them)").toList

/-- That an item of another type was skipped. -/
def skippedUnknown (itemType : UInt32) : Str :=
  "skipped Bitwarden item with unknown type ".toList ++ Nat.toDigits 10 itemType.toNat

/-! ## The parser -/

/-- The loop of `collect_fields`, on one field. -/
def collectField (acc : List (Str × Str) × ℕ) (f : Field) : List (Str × Str) × ℕ :=
  if f.fieldType = 3 then (acc.1, acc.2 + 1)
  else match f.name with
    | none => acc
    | some name =>
      if trim name = [] then acc
      else (acc.1 ++ [(name, f.value.getD [])], acc.2)

/-- `collect_fields`: the fields that are kept, and how many linked ones are dropped. -/
def collectFields (input : List Field) : List (Str × Str) × ℕ := input.foldl collectField ([], 0)

/-- An optional string that is empty counts as none. -/
def nonEmpty (s : Option Str) : Option Str := s.filter (· ≠ [])

/-- What the notes on an item call it. -/
def Item.entryId (item : Item) : Str :=
  if item.name.getD [] ≠ [] then item.name.getD [] else "<unnamed>".toList

/-- The folders of an item; of folders with one id, the last is in the map. -/
def folderOf (folders : List Folder) (item : Item) : List Str :=
  match item.folderId.bind fun id => folders.reverse.find? (·.id = id) with
  | none => []
  | some folder => folder.name.splitOn '/'

/-- The note on linked fields, when some were dropped. -/
def linkedNotes (item : Item) (dropped : ℕ) (reason : Str) : List LossinessNote :=
  if dropped > 0 then [⟨item.entryId, droppedLinked dropped reason⟩] else []

/-- The loop of `parse`, on one item. -/
def importItem (folders : List Folder) (acc : List ImportedEntry × List LossinessNote)
    (item : Item) : List ImportedEntry × List LossinessNote :=
  let name := item.name.getD []
  let folder := folderOf folders item
  if item.itemType = 1 then
    let login := item.login.getD ⟨none, none, none, []⟩
    let (fields, droppedLinked) := collectFields item.fields
    (acc.1 ++ [⟨folder, name, utf8Encode (login.password.getD []), nonEmpty login.username, fields,
        nonEmpty login.totp, nonEmpty item.notes, (login.uris.filterMap (·.uri)).filter (· ≠ [])⟩],
      acc.2 ++ linkedNotes item droppedLinked
        " (Bitwarden type-3 — no static value to import)".toList)
  else if item.itemType = 2 then
    let (fields, droppedLinked) := collectFields item.fields
    (acc.1 ++ [⟨folder, name, [], none, fields, none, nonEmpty item.notes, []⟩],
      acc.2 ++ linkedNotes item droppedLinked " (Bitwarden type-3)".toList ++
        [⟨item.entryId, emptyPassword⟩])
  else if item.itemType = 3 ∨ item.itemType = 4 then
    (acc.1, acc.2 ++ [⟨item.entryId, skippedType item.itemType⟩])
  else (acc.1, acc.2 ++ [⟨item.entryId, skippedUnknown item.itemType⟩])

/-- `looks_like_bitwarden`. -/
def looksLikeBitwarden (x : Export) : Prop := x.items ≠ [] ∨ x.folders ≠ []

instance (x : Export) : Decidable (looksLikeBitwarden x) :=
  decidable_of_iff (¬ x.items.isEmpty ∨ ¬ x.folders.isEmpty) (by simp [looksLikeBitwarden])

/-- What `parse` says of JSON that is no export. -/
def notAnExport : Str :=
  "JSON parsed but has neither `folders` nor `items` — not a Bitwarden export".toList

variable {E : Type}

/-- `parse`. -/
def parse (decode : Bytes → Except E Export) (bytes : Bytes) :
    Except (BitwardenError E) (List ImportedEntry × List LossinessNote) := do
  let x ← (decode bytes).mapError .parse
  if x.encrypted then .error .encrypted
  else if ¬ looksLikeBitwarden x then .error (.notBitwarden notAnExport)
  else .ok (x.items.foldl (importItem x.folders) ([], []))

/-! ## Custom fields -/

/-- A linked field has no value of its own. -/
def Field.Linked (f : Field) : Prop := f.fieldType = 3

instance (f : Field) : Decidable f.Linked := inferInstanceAs (Decidable (_ = _))

/-- The name and the value of a field; what is missing is empty. -/
def Field.pair (f : Field) : Str × Str := (f.name.getD [], f.value.getD [])

/-- What is kept of a field. -/
def Field.kept (f : Field) : Option (Str × Str) :=
  if ¬ f.Linked ∧ trim f.pair.1 ≠ [] then some f.pair else none

/-- How many linked fields an item has. -/
def Item.linked (item : Item) : ℕ := item.fields.countP fun f => decide f.Linked

/-- The loop of `collect_fields` keeps a field, counts it, or passes over it. -/
theorem collectField_eq (acc : List (Str × Str) × ℕ) (f : Field) :
    collectField acc f = (acc.1 ++ f.kept.toList, acc.2 + if decide f.Linked then 1 else 0) := by
  obtain ⟨name, value, fieldType⟩ := f
  by_cases hlinked : fieldType = 3
  · simp [collectField, Field.kept, Field.Linked, hlinked]
  · cases name with
    | none =>
      have hblank : trim ([] : Str) = [] := rfl
      simp [collectField, Field.kept, Field.Linked, Field.pair, hlinked, hblank]
    | some name =>
      by_cases hblank : trim name = []
      · simp [collectField, Field.kept, Field.Linked, Field.pair, hlinked, hblank]
      · simp [collectField, Field.kept, Field.Linked, Field.pair, hlinked, hblank]

/-- **Which fields are kept**, and how many are counted. -/
theorem collectFields_eq (input : List Field) :
    collectFields input = (input.filterMap Field.kept, input.countP fun f => decide f.Linked) := by
  have hout := @foldl_append _ _ _ collectField Prod.fst Field.kept
    (fun acc f => by rw [collectField_eq]) input ([], 0)
  have hdropped := @foldl_count _ _ collectField Prod.snd (fun f => decide f.Linked)
    (fun acc f => by rw [collectField_eq]) input ([], 0)
  rw [List.nil_append] at hout
  rw [Nat.zero_add] at hdropped
  exact Prod.ext hout hdropped

theorem mem_kept {fields : List Field} {kv : Str × Str} :
    kv ∈ fields.filterMap Field.kept ↔
      ∃ f ∈ fields, ¬ f.Linked ∧ trim f.pair.1 ≠ [] ∧ f.pair = kv := by
  rw [List.mem_filterMap]
  refine exists_congr fun f => and_congr_right fun _ => ?_
  rw [Field.kept]
  split_ifs with h
  · exact ⟨fun he => ⟨h.1, h.2, Option.some.inj he⟩, fun he => congrArg some he.2.2⟩
  · exact iff_of_false (by simp) fun he => h ⟨he.1, he.2.1⟩

/-! ## Items -/

/-- The entry is what the item becomes. -/
structure Carries (item : Item) (e : ImportedEntry) : Prop where
  name : e.name = item.name.getD []
  notes : e.notes = nonEmpty item.notes
  fields : e.fields = item.fields.filterMap Field.kept
  login : item.itemType = 1 → e.password = utf8Encode ((item.login.bind Login.password).getD []) ∧
    e.username = nonEmpty (item.login.bind Login.username) ∧
    e.totp = nonEmpty (item.login.bind Login.totp) ∧
    e.uris = (((item.login.map Login.uris).getD []).filterMap Uri.uri).filter (· ≠ [])

/-- The note says that the item was skipped. -/
def SaysSkipped (item : Item) (note : LossinessNote) : Prop :=
  note = ⟨item.entryId, skippedType item.itemType⟩ ∨
    note = ⟨item.entryId, skippedUnknown item.itemType⟩

/-- The note accounts for a field of the item: it is not the one on the password of a secure note;
and when it is the one on linked fields, the field is linked, and their number is right. -/
structure Accounts (item : Item) (f : Field) (note : LossinessNote) : Prop where
  entry : note.entry = item.entryId
  message : note.message ≠ emptyPassword
  linked : (∃ count reason, note.message = droppedLinked count reason) →
    f.Linked ∧ ∃ reason, note.message = droppedLinked item.linked reason

/-- Every field with a value that the entry does not have is accounted for. -/
def FieldsAccounted (item : Item) (e : ImportedEntry) (notes : List LossinessNote) : Prop :=
  ∀ f ∈ item.fields, f.value.getD [] ≠ [] → f.pair ∉ e.fields → ∃ note ∈ notes, Accounts item f note

/-- Every field with a value has a name, but for the linked ones. -/
def FieldsNamed (item : Item) : Prop :=
  ∀ f ∈ item.fields, ¬ f.Linked → f.value.getD [] ≠ [] → trim (f.name.getD []) ≠ []

/-- The notes on an item that becomes an entry. -/
structure NotesOf (item : Item) (notes : List LossinessNote) : Prop where
  mem : ∀ note ∈ notes, note.message = emptyPassword ∨
    ∃ reason, note.message = droppedLinked item.linked reason
  linked : 0 < item.linked →
    ∃ reason, (⟨item.entryId, droppedLinked item.linked reason⟩ : LossinessNote) ∈ notes

theorem dropped_toList : "dropped ".toList = 'd' :: "ropped ".toList := by decide +kernel

theorem head?_droppedLinked (count : ℕ) (reason : Str) :
    (droppedLinked count reason).head? = some 'd' := by
  unfold droppedLinked
  rw [dropped_toList]
  simp only [List.cons_append, List.head?_cons]

theorem head?_emptyPassword : emptyPassword.head? = some 's' := by decide +kernel

theorem droppedLinked_ne (count : ℕ) (reason : Str) :
    droppedLinked count reason ≠ emptyPassword := by
  intro h
  have hhead := head?_droppedLinked count reason
  rw [h, head?_emptyPassword] at hhead
  cases hhead

theorem mem_linkedNotes {item : Item} {reason : Str} {note : LossinessNote}
    (h : note ∈ linkedNotes item item.linked reason) :
    note = ⟨item.entryId, droppedLinked item.linked reason⟩ := by
  rw [linkedNotes] at h
  split_ifs at h
  · exact List.mem_singleton.1 h
  · cases h

theorem linkedNotes_pos {item : Item} (reason : Str) (h : 0 < item.linked) :
    (⟨item.entryId, droppedLinked item.linked reason⟩ : LossinessNote) ∈
      linkedNotes item item.linked reason := by
  rw [linkedNotes, if_pos h]
  exact List.mem_singleton_self _

/-- **When the fields of an item are accounted for.** -/
theorem fieldsAccounted_iff {item : Item} {e : ImportedEntry} {notes : List LossinessNote}
    (he : Carries item e) (hnotes : NotesOf item notes) :
    FieldsAccounted item e notes ↔ FieldsNamed item := by
  constructor
  · intro h f hf hlinked hvalue hblank
    have habsent : f.pair ∉ e.fields := by
      rw [he.fields, mem_kept]
      rintro ⟨g, -, -, hname, heq⟩
      rw [heq] at hname
      exact hname hblank
    obtain ⟨note, hnote, haccounts⟩ := h f hf hvalue habsent
    rcases hnotes.mem note hnote with hempty | ⟨reason, hdropped⟩
    · exact haccounts.message hempty
    · exact hlinked (haccounts.linked ⟨_, reason, hdropped⟩).1
  · intro h f hf hvalue habsent
    by_cases hlinked : f.Linked
    · -- A linked field is counted, and the note has the count.
      have hcount : 0 < item.linked := List.countP_pos_iff.2 ⟨f, hf, decide_eq_true hlinked⟩
      obtain ⟨reason, hmem⟩ := hnotes.linked hcount
      exact ⟨_, hmem, rfl, droppedLinked_ne _ _, fun _ => ⟨hlinked, reason, rfl⟩⟩
    · refine absurd ?_ habsent
      rw [he.fields, mem_kept]
      exact ⟨f, hf, hlinked, h f hf hlinked hvalue, rfl⟩

/-- What an item leaves, its entry and its notes. -/
def Outcome (item : Item) (o : List ImportedEntry × List LossinessNote) : Prop :=
  (∃ e, o.1 = [e] ∧ Carries item e ∧ NotesOf item o.2) ∨
    (o.1 = [] ∧ ∃ note, o.2 = [note] ∧ SaysSkipped item note)

theorem importItem_acc (folders : List Folder) (acc : List ImportedEntry × List LossinessNote)
    (item : Item) : importItem folders acc item =
      (acc.1 ++ (importItem folders ([], []) item).1,
        acc.2 ++ (importItem folders ([], []) item).2) := by
  simp only [importItem]
  split_ifs <;> simp

/-- **What the loop makes of an item.** -/
theorem importItem_outcome (folders : List Folder) (item : Item) :
    Outcome item (importItem folders ([], []) item) := by
  simp only [importItem, collectFields_eq]
  split_ifs with hlogin hnote hskip
  · refine Or.inl ⟨_, rfl, ⟨rfl, rfl, rfl, fun _ => ?_⟩, fun note hmem => ?_, fun hpos => ?_⟩
    · cases item.login <;> exact ⟨rfl, rfl, rfl, rfl⟩
    · exact Or.inr ⟨_, congrArg LossinessNote.message (mem_linkedNotes hmem)⟩
    · exact ⟨_, linkedNotes_pos _ hpos⟩
  · refine Or.inl ⟨_, rfl, ⟨rfl, rfl, rfl, fun h => absurd h hlogin⟩, fun note hmem => ?_,
      fun hpos => ?_⟩
    · rcases List.mem_append.1 hmem with hmem | hmem
      · exact Or.inr ⟨_, congrArg LossinessNote.message (mem_linkedNotes hmem)⟩
      · exact Or.inl (congrArg LossinessNote.message (List.mem_singleton.1 hmem))
    · exact ⟨_, List.mem_append_left _ (linkedNotes_pos _ hpos)⟩
  · exact Or.inr ⟨rfl, _, rfl, Or.inl rfl⟩
  · exact Or.inr ⟨rfl, _, rfl, Or.inr rfl⟩

/-! ## Whole exports -/

/-- **What each item becomes**, in the order of the items. -/
theorem foldl_importItem (folders : List Folder) (items : List Item)
    (acc : List ImportedEntry × List LossinessNote) :
    items.foldl (importItem folders) acc =
      (acc.1 ++ (items.map (importItem folders ([], []))).flatMap Prod.fst,
        acc.2 ++ (items.map (importItem folders ([], []))).flatMap Prod.snd) := by
  induction items generalizing acc with
  | nil => simp
  | cons item rest ih =>
    rw [List.foldl_cons, ih, importItem_acc]
    simp

/-- The parser's result on an export that is not encrypted. -/
theorem parse_outcomes {decode : Bytes → Except E Export} {bytes : Bytes} {x : Export}
    (hdecode : decode bytes = .ok x) (hplain : x.encrypted = false) :
    (x.items = [] ∧ parse decode bytes = .error (.notBitwarden notAnExport)) ∨
      ∃ outcomes, parse decode bytes =
          .ok (outcomes.flatMap Prod.fst, outcomes.flatMap Prod.snd) ∧
        List.Forall₂ Outcome x.items outcomes := by
  have hparse : parse decode bytes = if ¬ looksLikeBitwarden x then
      .error (.notBitwarden notAnExport)
      else .ok (x.items.foldl (importItem x.folders) ([], [])) := by
    rw [parse, hdecode]
    simp [Except.mapError, bind, Except.bind, hplain]
  by_cases hlooks : looksLikeBitwarden x
  · refine Or.inr ⟨x.items.map (importItem x.folders ([], [])), ?_, ?_⟩
    · rw [hparse, if_neg (not_not.2 hlooks), foldl_importItem, List.nil_append, List.nil_append]
    · rw [List.forall₂_map_right_iff, List.forall₂_same]
      exact fun item _ => importItem_outcome x.folders item
  · refine Or.inl ⟨?_, by rw [hparse, if_pos hlooks]⟩
    by_contra hitems
    exact hlooks (Or.inl hitems)

/-- What an item leaves, and when its fields are accounted for. -/
def AccountedWhen (claim : Item → ImportedEntry → List LossinessNote → Prop) (item : Item)
    (o : List ImportedEntry × List LossinessNote) : Prop :=
  (∃ e, o.1 = [e] ∧ Carries item e ∧ claim item e o.2) ∨
    (o.1 = [] ∧ ∃ note ∈ o.2, SaysSkipped item note)

/-- **When a Bitwarden import accounts for everything.** Of an export that is not encrypted, each
item becomes one entry, in the order of the items, or has a note that it was skipped. The fields of
an item that becomes an entry are accounted for exactly when those with a value that are not linked
have names. -/
theorem parse_accounts_iff {decode : Bytes → Except E Export} {bytes : Bytes} {x : Export}
    (hdecode : decode bytes = .ok x) (hplain : x.encrypted = false) :
    (x.items = [] ∧ parse decode bytes = .error (.notBitwarden notAnExport)) ∨
      ∃ outcomes, parse decode bytes =
          .ok (outcomes.flatMap Prod.fst, outcomes.flatMap Prod.snd) ∧
        List.Forall₂ (AccountedWhen fun item e notes =>
          FieldsAccounted item e notes ↔ FieldsNamed item) x.items outcomes := by
  rcases parse_outcomes hdecode hplain with h | ⟨outcomes, hparse, hall⟩
  · exact Or.inl h
  · refine Or.inr ⟨outcomes, hparse, hall.imp ?_⟩
    rintro item o (⟨e, ho, he, hnotes⟩ | ⟨ho, note, hnote, hskipped⟩)
    · exact Or.inl ⟨e, ho, he, fieldsAccounted_iff he hnotes⟩
    · exact Or.inr ⟨ho, note, hnote ▸ List.mem_singleton_self _, hskipped⟩

/-- A login whose only custom field has a value and no name. -/
def lockerItem : Item :=
  ⟨1, some "Locker".toList, none, none, [⟨none, some "4711".toList, 0⟩],
    some ⟨none, none, none, []⟩⟩

/-- An export with that login. -/
def lockerExport : Export := ⟨false, [], [lockerItem]⟩

/-- Its JSON. -/
def lockerJson : Bytes := utf8Encode
  ("\x7b\"items\":[\x7b\"type\":1,\"name\":\"Locker\",\"fields\":[\x7b\"value\":\"4711\"\x7d]," ++
    "\"login\":\x7b\x7d\x7d]\x7d").toList

/-- A decoder that knows it. -/
def lockerDecode (bytes : Bytes) : Except Unit Export :=
  if bytes = lockerJson then .ok lockerExport else .error ()

theorem lockerDecode_json : lockerDecode lockerJson = .ok lockerExport := if_pos rfl

theorem parse_accounts_iff_locker :
    (lockerExport.items = [] ∧
        parse lockerDecode lockerJson = .error (.notBitwarden notAnExport)) ∨
      ∃ outcomes, parse lockerDecode lockerJson =
          .ok (outcomes.flatMap Prod.fst, outcomes.flatMap Prod.snd) ∧
        List.Forall₂ (AccountedWhen fun item e notes =>
          FieldsAccounted item e notes ↔ FieldsNamed item) lockerExport.items outcomes :=
  parse_accounts_iff lockerDecode_json rfl

/-- **A custom field can be lost silently**: one without a name. -/
theorem field_lost_silently :
    ¬ ∀ (decode : Bytes → Except Unit Export) bytes x, decode bytes = .ok x → x.encrypted = false →
      (x.items = [] ∧ parse decode bytes = .error (.notBitwarden notAnExport)) ∨
        ∃ outcomes, parse decode bytes =
            .ok (outcomes.flatMap Prod.fst, outcomes.flatMap Prod.snd) ∧
          List.Forall₂ (AccountedWhen FieldsAccounted) x.items outcomes := by
  intro h
  have hparse : parse lockerDecode lockerJson =
      .ok (lockerExport.items.foldl (importItem []) ([], [])) := by
    rw [parse, lockerDecode_json]
    rfl
  rcases h _ _ _ lockerDecode_json rfl with ⟨hitems, -⟩ | ⟨outcomes, hok, hall⟩
  · cases hitems
  · obtain ⟨o, rest, ho, hrest, rfl⟩ := List.forall₂_cons_left_iff.1 hall
    obtain rfl := List.forall₂_nil_left_iff.1 hrest
    rw [hparse] at hok
    obtain ⟨hentries, hnotes⟩ := Prod.mk.inj (Except.ok.inj hok)
    rcases ho with ⟨e, -, he, haccounted⟩ | ⟨hnone, -⟩
    · have hfields : e.fields = [] := he.fields
      obtain ⟨note, hnote, -⟩ := haccounted ⟨none, some "4711".toList, 0⟩
        (List.mem_singleton_self _) (by decide) (by rw [hfields]; exact List.not_mem_nil)
      simp only [List.flatMap_cons, List.flatMap_nil, List.append_nil] at hnotes
      rw [← hnotes] at hnote
      cases hnote
    · simp only [List.flatMap_cons, List.flatMap_nil, List.append_nil, hnone] at hentries
      cases hentries

end Bypass.Bitwarden
