import Bypass.Core.Import
import Bypass.Foundations.Folds
import Bypass.Foundations.Forest

/-!
# The KeePass importer

The XML export of a database (`import/keepass.rs`): groups are walked in document order, their names
become folders, and entries with a title become entries of the store. Of a string key that stands
for a field with one value, the last one wins; attachments are counted, but those of entries without
a title.

What parses the XML is `roxmltree`; here it is a parameter, from a text to the root element. A node
is a tree whose label says what the code asks of it.

* `Keepass.walkForest_eq`: the walk visits entries in document order, with the names of the groups.
* `Keepass.slots_eq`: what an entry's children leave in each field.
* `Keepass.buildEntry_eq`: what becomes of an entry.
-/

namespace Bypass.Keepass

/-! ## XML -/

/-- What is asked of a node: the local name of an element, or the text. -/
inductive XmlLabel where
  | element (tag : Str)
  | text (s : Str)
  | other
  deriving DecidableEq

/-- A node, with its children. -/
abbrev XmlNode := Tree XmlLabel

/-- `is_element` and `has_tag_name`. -/
def HasTag (tag : Str) (label : XmlLabel) : Prop := label = .element tag

instance (tag : Str) : DecidablePred (HasTag tag) := fun _ => inferInstanceAs (Decidable (_ = _))

theorem hasTag_element {tag : Str} : HasTag tag (.element tag) := rfl

/-- `text`, of an element: its first child, when that is a text. -/
def xmlText (n : XmlNode) : Option Str :=
  match n.children.head?.map Tree.label with
  | some (.text s) => some s
  | _ => none

/-- `text_of_child`. -/
def textOfChild (parent : XmlNode) (tag : Str) : Option Str :=
  (parent.children.find? fun n => decide (HasTag tag n.label)).bind xmlText

/-! ## Entries -/

/-- What a string key stands for. -/
inductive StringRole where
  | title
  | username
  | password
  | url
  | notes
  | totp
  | field
  deriving DecidableEq

/-- The patterns of `build_entry` on keys. -/
def roleOf (key : Str) : StringRole :=
  if key = "Title".toList then .title
  else if key = "UserName".toList then .username
  else if key = "Password".toList then .password
  else if key = "URL".toList then .url
  else if key = "Notes".toList then .notes
  else if key = "otp".toList ∨ key = "TOTP".toList ∨ key = "totp".toList then .totp
  else .field

/-- The locals of `build_entry`. -/
structure Slots where
  title : Str
  username : Option Str
  password : Str
  url : Option Str
  notes : Option Str
  totp : Option Str
  fields : List (Str × Str)
  binariesHere : ℕ

/-- What they are at the start. -/
def Slots.start : Slots := ⟨[], none, [], none, none, none, [], 0⟩

/-- The `match` of `build_entry` on a key. A key whose arm wants a value, and which has none, falls
through to arms that want one as well. -/
def Slots.set (c : Slots) (key value : Str) : Slots :=
  match roleOf key with
  | .title => { c with title := value }
  | .username => if value ≠ [] then { c with username := some value } else c
  | .password => { c with password := value }
  | .url => if value ≠ [] then { c with url := some value } else c
  | .notes => if value ≠ [] then { c with notes := some value } else c
  | .totp => if value ≠ [] then { c with totp := some value } else c
  | .field => if key ≠ [] ∧ value ≠ [] then { c with fields := c.fields ++ [(key, value)] } else c

/-- The loop of `build_entry`, on one child. -/
def Slots.child (c : Slots) (child : XmlNode) : Slots :=
  if HasTag "String".toList child.label then
    c.set ((textOfChild child "Key".toList).getD []) ((textOfChild child "Value".toList).getD [])
  else if HasTag "Binary".toList child.label then { c with binariesHere := c.binariesHere + 1 }
  else c

/-- The note that an entry without a title was skipped. -/
def untitledNote (folder : List Str) : LossinessNote :=
  ⟨"<untitled>".toList, "skipped a KeePass entry with no Title (folder: ".toList ++
    (if folder = [] then "<root>".toList else ['/'].intercalate folder) ++ ")".toList⟩

/-- What the walk through the groups gathers. -/
structure Gathered where
  out : List ImportedEntry
  report : List LossinessNote
  binaryTotal : ℕ

/-- `build_entry`: the entry, what it adds to the report, and what it adds to the attachments. -/
def buildEntry (entry : XmlNode) (folder : List Str) :
    Option ImportedEntry × List LossinessNote × ℕ :=
  let c := entry.children.foldl Slots.child .start
  if c.title = [] then (none, [untitledNote folder], 0)
  else (some ⟨folder, c.title, utf8Encode c.password, c.username, c.fields, c.totp, c.notes,
    c.url.toList⟩, [], c.binariesHere)

/-- An entry of a group. -/
def Gathered.visit (st : Gathered) (folder : List Str) (entry : XmlNode) : Gathered :=
  let (imported, notes, binaries) := buildEntry entry folder
  ⟨st.out ++ imported.toList, st.report ++ notes, st.binaryTotal + binaries⟩

/-! ## Groups -/

/-- The name of a group. -/
def groupName (group : XmlNode) : Str := (textOfChild group "Name".toList).getD []

mutual

/-- `walk_group`. -/
def walkGroup (folderSoFar : List Str) (dropOwnName : Bool) : XmlNode → Gathered → Gathered
  | .node label children, st =>
    let name := groupName (.node label children)
    let folder := if ¬ dropOwnName ∧ name ≠ [] then folderSoFar ++ [name] else folderSoFar
    walkChildren folder children st

/-- The loop of `walk_group`. -/
def walkChildren (folder : List Str) : List XmlNode → Gathered → Gathered
  | [], st => st
  | child :: rest, st =>
    walkChildren folder rest <|
      if HasTag "Entry".toList child.label then st.visit folder child
      else if HasTag "Group".toList child.label then walkGroup folder false child st
      else st

end

/-! ## Documents -/

/-- `KeepassError`; `E` is the error of the XML parser. -/
inductive KeepassError (E : Type) where
  | parse (e : E)
  | notKeepass
  | looksLikeBinaryKdbx

/-- The message; `display` is that of the parser's error. -/
def KeepassError.message {E : Type} (display : E → Str) : KeepassError E → Str
  | parse e => "KeePass KDBX-XML parse: ".toList ++ display e
  | notKeepass => "not a KeePass XML export: missing <KeePassFile> root".toList
  | looksLikeBinaryKdbx => ("this looks like the binary KDBX format — `bypass` imports only the " ++
      "*XML* export (File → Export → KeePass XML (2.x)). Re-export from KeePass / " ++
      "KeePassXC.").toList

/-- That attachments were dropped. -/
def attachmentMessage (total : ℕ) : Str :=
  Nat.toDigits 10 total ++ (" entry attachment".toList ++ ((if total = 1 then [] else ['s']) ++
    (" dropped (KeePass `<Binary>` references are not carried into the bypass entry " ++
      "body)").toList))

/-- The note on attachments, when there are any. -/
def attachmentNotes (total : ℕ) : List LossinessNote :=
  if total > 0 then [⟨[], attachmentMessage total⟩] else []

variable {E : Type}

/-- What has to be there. -/
def found {α : Type} : Option α → Except (KeepassError E) α
  | none => .error .notKeepass
  | some a => .ok a

/-- The first half of `parse`: the section `Root` of a document. -/
def rootSection (parseXml : Str → Except E XmlNode) (bytes : Bytes) :
    Except (KeepassError E) XmlNode := do
  if bytes.take 4 = [0x03, 0xd9, 0xa2, 0x9a] then .error .looksLikeBinaryKdbx
  else
    let text ← found (utf8Decode? bytes)
    let root ← (parseXml text).mapError .parse
    if ¬ HasTag "KeePassFile".toList root.label then .error .notKeepass
    else found (root.children.find? fun n => decide (HasTag "Root".toList n.label))

/-- The groups of a section. -/
def topGroups (root : XmlNode) : List XmlNode :=
  root.children.filter fun n => decide (HasTag "Group".toList n.label)

/-- The second half of `parse`: the first group, then its siblings. -/
def walkForest : List XmlNode → Gathered
  | [] => ⟨[], [], 0⟩
  | firstGroup :: siblings =>
    siblings.foldl (fun st sibling => walkGroup [] true sibling st)
      (walkGroup [] true firstGroup ⟨[], [], 0⟩)

/-- `parse`. -/
def parse (parseXml : Str → Except E XmlNode) (bytes : Bytes) :
    Except (KeepassError E) (List ImportedEntry × List LossinessNote) := do
  let root ← rootSection parseXml bytes
  let st := walkForest (topGroups root)
  pure (st.out, st.report ++ attachmentNotes st.binaryTotal)

/-! ## The walk -/

/-- The entries below a forest, with the groups they are in. -/
abbrev entriesFrom (i : ℕ) (ts : List XmlNode) : List (Occurrence XmlLabel) :=
  walk (HasTag "Entry".toList) (HasTag "Group".toList) i ts

theorem entry_ne_group (label : XmlLabel) (h : HasTag "Group".toList label) :
    ¬ HasTag "Entry".toList label := by
  rw [HasTag] at h ⊢
  rw [h]
  decide +kernel

/-- The names of groups, without the empty ones. -/
def names (groups : List XmlNode) : List Str := (groups.map groupName).filter (· ≠ [])

theorem names_cons (group : XmlNode) (groups : List XmlNode) :
    names (group :: groups) =
      (if groupName group ≠ [] then [groupName group] else []) ++ names groups := by
  by_cases h : groupName group = [] <;> simp [names, h]

/-- The entry is visited, in the folder of the names of its groups. -/
def Gathered.meet (folder : List Str) (st : Gathered) (o : Occurrence XmlLabel) : Gathered :=
  st.visit (folder ++ names o.ancestors) o.tree

theorem meet_under (folder : List Str) (st : Gathered) (group : XmlNode) (i : ℕ)
    (o : Occurrence XmlLabel) :
    st.meet folder (o.under group i) = st.meet (folder ++ names [group]) o := by
  have hnames : names (group :: o.ancestors) = names [group] ++ names o.ancestors := by
    rw [names_cons, names_cons group []]
    simp [names]
  rw [Gathered.meet, Gathered.meet, Occurrence.under, hnames, List.append_assoc]

/-- A group is its children, in the folder with its name, unless that is dropped. -/
theorem walkGroup_eq (folder : List Str) (dropOwnName : Bool) (group : XmlNode) (st : Gathered) :
    walkGroup folder dropOwnName group st =
      walkChildren (folder ++ if dropOwnName then [] else names [group]) group.children st := by
  obtain ⟨label, children⟩ := group
  rw [walkGroup]
  congr 1
  cases dropOwnName with
  | true => simp
  | false =>
    rw [names_cons]
    by_cases hname : groupName (.node label children) = [] <;> simp [hname, names]

/-- **The loop visits what a walk meets**, with the names of the groups on the way. -/
theorem walkChildren_eq (folder : List Str) (i : ℕ) (ts : List XmlNode) (st : Gathered) :
    walkChildren folder ts st = (entriesFrom i ts).foldl (Gathered.meet folder) st := by
  unfold entriesFrom
  fun_induction walk (HasTag "Entry".toList) (HasTag "Group".toList) i ts
    generalizing folder st with
  | case1 i => rw [walkChildren, List.foldl_nil]
  | case2 i label cs rest ihc ihr =>
    rw [walkChildren, List.foldl_append, ihr, Tree.label_node]
    congr 1
    by_cases hentry : HasTag "Entry".toList label
    · rw [if_pos hentry, if_pos hentry]
      simp [Gathered.meet, names]
    · rw [if_neg hentry, if_neg hentry]
      by_cases hgroup : HasTag "Group".toList label
      · rw [if_pos hgroup, if_pos hgroup, walkGroup_eq, List.foldl_map]
        simp only [meet_under]
        exact ihc _ st
      · rw [if_neg hgroup, if_neg hgroup, List.foldl_nil]

/-- The folder of an entry: the names of its groups, without the top one. -/
def folderOf (o : Occurrence XmlLabel) : List Str := names o.ancestors.tail

/-- What becomes of an entry. -/
abbrev Imported := Option ImportedEntry × List LossinessNote × ℕ

/-- What becomes of an entry that is met. -/
def imported (o : Occurrence XmlLabel) : Imported := buildEntry o.tree (folderOf o)

/-- What a list of outcomes adds to what was gathered. -/
def Gathered.add (st : Gathered) (outcomes : List Imported) : Gathered :=
  ⟨st.out ++ outcomes.filterMap (·.1), st.report ++ outcomes.flatMap (·.2.1),
    st.binaryTotal + (outcomes.map (·.2.2)).sum⟩

theorem add_append (st : Gathered) (outcomes more : List Imported) :
    st.add (outcomes ++ more) = (st.add outcomes).add more := by
  simp [Gathered.add, Nat.add_assoc]

theorem visit_add (st : Gathered) (folder : List Str) (entry : XmlNode) :
    st.visit folder entry = st.add [buildEntry entry folder] := by
  rw [Gathered.visit, Gathered.add]
  rcases buildEntry entry folder with ⟨_ | e, notes, binaries⟩ <;> simp

theorem foldl_add {f : Occurrence XmlLabel → Imported}
    {step : Gathered → Occurrence XmlLabel → Gathered} (h : ∀ st o, step st o = st.add [f o])
    (os : List (Occurrence XmlLabel)) (st : Gathered) : os.foldl step st = st.add (os.map f) := by
  induction os generalizing st with
  | nil => simp [Gathered.add]
  | cons o os ih => rw [List.foldl_cons, ih, h, ← add_append, List.map_cons, List.singleton_append]

/-- **What the groups of a document come to**: the entries that a walk meets, in its order. -/
theorem walkForest_eq {groups : List XmlNode}
    (hgroups : ∀ group ∈ groups, HasTag "Group".toList group.label) :
    walkForest groups = Gathered.add ⟨[], [], 0⟩ ((entriesFrom 0 groups).map imported) := by
  have hfold : ∀ (i : ℕ) (st : Gathered),
      groups.foldl (fun st group => walkGroup [] true group st) st =
        st.add ((entriesFrom i groups).map imported) := by
    induction groups with
    | nil => simp [entriesFrom, walk, Gathered.add]
    | cons group rest ih =>
      intro i st
      have hgroup := hgroups group List.mem_cons_self
      have hstep : walkGroup [] true group st =
          st.add ((entriesFrom 0 group.children).map fun o => imported (o.under group i)) := by
        rw [walkGroup_eq, walkChildren_eq _ 0]
        exact foldl_add (fun st o => by rw [Gathered.meet, visit_add]; rfl) _ st
      have hwalk : entriesFrom i (group :: rest) =
          (entriesFrom 0 group.children).map (Occurrence.under group i) ++
            entriesFrom (i + 1) rest := by
        obtain ⟨label, cs⟩ := group
        rw [Tree.label_node] at hgroup
        rw [entriesFrom, walk, if_neg (entry_ne_group label hgroup), if_pos hgroup]
        rfl
      rw [List.foldl_cons, ih (fun g hg => hgroups g (List.mem_cons_of_mem _ hg)) (i + 1), hstep,
        ← add_append, hwalk, List.map_append, List.map_map]
      rfl
  cases groups with
  | nil => simp [walkForest, entriesFrom, walk, Gathered.add]
  | cons group rest =>
    rw [← hfold 0]
    rfl

/-! ## What an entry's children leave -/

/-- The key and the value of a child that is a string. -/
def stringOf (child : XmlNode) : Option (Str × Str) :=
  if HasTag "String".toList child.label then
    some ((textOfChild child "Key".toList).getD [], (textOfChild child "Value".toList).getD [])
  else none

/-- The strings of an entry, in order. -/
def strings (entry : XmlNode) : List (Str × Str) := entry.children.filterMap stringOf

/-- How many attachments an entry has. -/
def binaries (entry : XmlNode) : ℕ :=
  entry.children.countP fun child => decide (HasTag "Binary".toList child.label)

/-- What a string sets of this role: titles and passwords can be set to nothing. -/
def valueOf (role : StringRole) (kv : Str × Str) : Option Str :=
  if roleOf kv.1 = role ∧ (kv.2 ≠ [] ∨ role = .title ∨ role = .password) then some kv.2 else none

/-- The last value of a role. -/
def lastOf (role : StringRole) (entry : XmlNode) : Option Str :=
  ((strings entry).filterMap (valueOf role)).getLast?

/-- The custom field of a string. -/
def customOf (kv : Str × Str) : Option (Str × Str) :=
  if roleOf kv.1 = .field ∧ kv.1 ≠ [] ∧ kv.2 ≠ [] then some kv else none

theorem string_ne_binary (label : XmlLabel) (h : HasTag "Binary".toList label) :
    ¬ HasTag "String".toList label := by
  rw [HasTag] at h ⊢
  rw [h]
  decide +kernel

/-- A child is a string, an attachment, or nothing to the entry. -/
theorem child_eq (c : Slots) (child : XmlNode) :
    c.child child = match stringOf child with
      | some kv => c.set kv.1 kv.2
      | none => { c with binariesHere :=
          c.binariesHere + if decide (HasTag "Binary".toList child.label) then 1 else 0 } := by
  rw [Slots.child, stringOf]
  by_cases hstring : HasTag "String".toList child.label
  · rw [if_pos hstring, if_pos hstring]
  · rw [if_neg hstring, if_neg hstring]
    by_cases hbinary : HasTag "Binary".toList child.label
    · simp only [hbinary, if_true, decide_true]
    · simp only [hbinary, if_false, decide_false, Bool.false_eq_true, Nat.add_zero]

/-- What a string sets, field by field. -/
theorem set_eq (c : Slots) (key value : Str) :
    c.set key value =
      { title := (valueOf .title (key, value)).getD c.title
        username := ((valueOf .username (key, value)).map some).getD c.username
        password := (valueOf .password (key, value)).getD c.password
        url := ((valueOf .url (key, value)).map some).getD c.url
        notes := ((valueOf .notes (key, value)).map some).getD c.notes
        totp := ((valueOf .totp (key, value)).map some).getD c.totp
        fields := c.fields ++ (customOf (key, value)).toList
        binariesHere := c.binariesHere } := by
  simp only [Slots.set, valueOf, customOf]
  generalize roleOf key = role
  by_cases hkey : key = [] <;> by_cases hvalue : value = [] <;>
    cases role <;> simp [hkey, hvalue]

/-- A field of a role that holds one value: the last string that sets it wins. -/
theorem slot_last {γ : Type} {get : Slots → γ} {role : StringRole} {f : Str → γ}
    (hset : ∀ c key value, get (Slots.set c key value) =
      ((valueOf role (key, value)).map f).getD (get c))
    (hcount : ∀ (c : Slots) n, get { c with binariesHere := n } = get c) (entry : XmlNode) :
    get (entry.children.foldl Slots.child .start) =
      ((lastOf role entry).map f).getD (get .start) := by
  have hchild : ∀ c child, get (Slots.child c child) =
      ((stringOf child).bind fun kv => (valueOf role kv).map f).getD (get c) := by
    intro c child
    rw [child_eq]
    cases stringOf child with
    | none => exact hcount c _
    | some kv => exact hset c kv.1 kv.2
  rw [foldl_last hchild, lastOf, strings, List.filterMap_filterMap, ← List.getLast?_map,
    List.map_filterMap]
  congr 3
  funext child
  cases stringOf child <;> rfl

/-- The custom fields are those of the strings, in order. -/
theorem slots_fields (entry : XmlNode) :
    (entry.children.foldl Slots.child .start).fields = (strings entry).filterMap customOf := by
  have hchild : ∀ c child, (Slots.child c child).fields =
      c.fields ++ ((stringOf child).bind customOf).toList := by
    intro c child
    rw [child_eq]
    cases stringOf child with
    | none => simp
    | some kv => simp only [set_eq, Option.bind_some]
  rw [foldl_append hchild, strings, List.filterMap_filterMap]
  rfl

/-- The attachments are counted. -/
theorem slots_binaries (entry : XmlNode) :
    (entry.children.foldl Slots.child .start).binariesHere = binaries entry := by
  have hchild : ∀ c child, (Slots.child c child).binariesHere =
      c.binariesHere + if decide (HasTag "Binary".toList child.label) then 1 else 0 := by
    intro c child
    rw [child_eq]
    cases hstring : stringOf child with
    | none => rfl
    | some kv =>
      have hbinary : ¬ HasTag "Binary".toList child.label := by
        intro h
        rw [stringOf, if_neg (string_ne_binary _ h)] at hstring
        cases hstring
      simp only [set_eq, hbinary, decide_false, Bool.false_eq_true, if_false, Nat.add_zero]
  rw [foldl_count hchild, binaries]
  exact Nat.zero_add _

/-- **What an entry's children leave.** -/
theorem slots_eq (entry : XmlNode) :
    entry.children.foldl Slots.child .start =
      { title := (lastOf .title entry).getD []
        username := lastOf .username entry
        password := (lastOf .password entry).getD []
        url := lastOf .url entry
        notes := lastOf .notes entry
        totp := lastOf .totp entry
        fields := (strings entry).filterMap customOf
        binariesHere := binaries entry } := by
  have htitle := @slot_last _ Slots.title .title id
    (fun c key value => by rw [set_eq, Option.map_id]; rfl) (fun _ _ => rfl) entry
  have husername := @slot_last _ Slots.username .username some
    (fun c key value => by rw [set_eq]) (fun _ _ => rfl) entry
  have hpassword := @slot_last _ Slots.password .password id
    (fun c key value => by rw [set_eq, Option.map_id]; rfl) (fun _ _ => rfl) entry
  have hurl := @slot_last _ Slots.url .url some
    (fun c key value => by rw [set_eq]) (fun _ _ => rfl) entry
  have hnotes := @slot_last _ Slots.notes .notes some
    (fun c key value => by rw [set_eq]) (fun _ _ => rfl) entry
  have htotp := @slot_last _ Slots.totp .totp some
    (fun c key value => by rw [set_eq]) (fun _ _ => rfl) entry
  have hfields := slots_fields entry
  have hbinaries := slots_binaries entry
  have hopt : ∀ o : Option Str, (o.map some).getD none = o := fun o => by cases o <;> rfl
  generalize entry.children.foldl Slots.child .start = c at *
  cases c
  simp_all [Slots.start]

/-- The title of an entry; that of an entry without one is empty. -/
def titleOf (entry : XmlNode) : Str := (lastOf .title entry).getD []

/-- What an entry with a title becomes. -/
def entryOf (entry : XmlNode) (folder : List Str) : ImportedEntry :=
  ⟨folder, titleOf entry, utf8Encode ((lastOf .password entry).getD []), lastOf .username entry,
    (strings entry).filterMap customOf, lastOf .totp entry, lastOf .notes entry,
    (lastOf .url entry).toList⟩

/-- **What `build_entry` makes of an entry.** -/
theorem buildEntry_eq (entry : XmlNode) (folder : List Str) :
    buildEntry entry folder = if titleOf entry = [] then (none, [untitledNote folder], 0)
      else (some (entryOf entry folder), [], binaries entry) := by
  rw [buildEntry, slots_eq]
  rfl

end Bypass.Keepass
