import Bypass.Core.Keepass

/-!
# What a KeePass import keeps

Groups become folders: the entries of a document are met in document order, and each that has a
title goes to the folder of the names of its groups. The top groups' names are left out, those of
the first group's siblings as well. Of an entry's strings, those that agree with the last one of
their role are kept, without a note on the others; and the attachments of entries without a title
are not counted.

* `Keepass.parse_walks`: what a document comes to.
* `Keepass.folders_claimed_iff`: **when groups become folders as they should**.
* `Keepass.content_kept_iff`: **when no content is lost silently**.
-/

namespace Bypass.Keepass

variable {E : Type}

/-! ## Documents -/

/-- The entry has a title. -/
def Titled (o : Occurrence XmlLabel) : Prop := titleOf o.tree ≠ []

instance : DecidablePred Titled := fun o => inferInstanceAs (Decidable (titleOf o.tree ≠ []))

/-- What an entry comes to, in the folder that `folder` says: with a title, an entry; without one,
a note. -/
def Becomes (folder : Occurrence XmlLabel → List Str) (o : Occurrence XmlLabel)
    (out : Option ImportedEntry × List LossinessNote) : Prop :=
  if Titled o then ∃ e, out = (some e, []) ∧ e.name = titleOf o.tree ∧ e.folder = folder o
  else ∃ note, out = (none, [note]) ∧ note.entry = "<untitled>".toList

/-- The groups are walked: each entry that is directly contained in a group is visited once, in
document order, and the report ends with the attachments. -/
def WalksAs (folder : Occurrence XmlLabel → List Str) (groups : List XmlNode)
    (entries : List ImportedEntry) (report : List LossinessNote) : Prop :=
  ∃ visited outcomes count, visited.Pairwise (·.path < ·.path) ∧
    (∀ o, o ∈ visited ↔ Occurs (HasTag "Entry".toList) (HasTag "Group".toList) 0 groups o) ∧
    List.Forall₂ (Becomes folder) visited outcomes ∧ entries = outcomes.filterMap Prod.fst ∧
    report = outcomes.flatMap Prod.snd ++ attachmentNotes count

theorem topGroups_groups (root : XmlNode) :
    ∀ group ∈ topGroups root, HasTag "Group".toList group.label := fun _ h =>
  of_decide_eq_true (List.mem_filter.1 h).2

/-- What the entries of the groups come to, in document order. -/
def outcomesOf (groups : List XmlNode) : List (Option ImportedEntry × List LossinessNote) :=
  (entriesFrom 0 groups).map fun o => ((imported o).1, (imported o).2.1)

/-- The attachments that are counted. -/
def countedIn (groups : List XmlNode) : ℕ :=
  ((entriesFrom 0 groups).map fun o => (imported o).2.2).sum

/-- What a document comes to, by its entries. -/
theorem parse_eq {parseXml : Str → Except E XmlNode} {bytes : Bytes} {root : XmlNode}
    (hroot : rootSection parseXml bytes = .ok root) :
    parse parseXml bytes = .ok ((outcomesOf (topGroups root)).filterMap Prod.fst,
      (outcomesOf (topGroups root)).flatMap Prod.snd ++
        attachmentNotes (countedIn (topGroups root))) := by
  rw [parse, hroot]
  simp only [bind, Except.bind, pure, Except.pure, walkForest_eq (topGroups_groups root),
    Gathered.add, List.nil_append, Nat.zero_add, outcomesOf, countedIn, List.filterMap_map,
    List.flatMap_map, List.map_map]
  rfl

theorem imported_becomes (o : Occurrence XmlLabel) :
    Becomes folderOf o ((imported o).1, (imported o).2.1) := by
  rw [Becomes, imported, buildEntry_eq]
  by_cases h : Titled o
  · rw [if_pos h, if_neg h]
    exact ⟨_, rfl, rfl, rfl⟩
  · rw [if_neg h, if_pos (not_not.1 h)]
    exact ⟨_, rfl, rfl⟩

/-- **What a document comes to**: its entries are visited in document order, in the folders of the
names of their groups without the top one. -/
theorem parse_walks {parseXml : Str → Except E XmlNode} {bytes : Bytes} {root : XmlNode}
    (hroot : rootSection parseXml bytes = .ok root) :
    ∃ entries report, parse parseXml bytes = .ok (entries, report) ∧
      WalksAs folderOf (topGroups root) entries report := by
  refine ⟨_, _, parse_eq hroot, entriesFrom 0 (topGroups root), outcomesOf (topGroups root), _,
    walk_sorted 0 _, fun o => mem_walk entry_ne_group, ?_, rfl, rfl⟩
  rw [outcomesOf, List.forall₂_map_right_iff, List.forall₂_same]
  exact fun o _ => imported_becomes o

/-! ## Folders -/

/-- The folder that an entry should be in: the first top group's name is left out, and no other. -/
def claimedFolder (o : Occurrence XmlLabel) : List Str :=
  names (if o.path.head? = some 0 then o.ancestors.tail else o.ancestors)

/-- Only the first top group has a name and an entry with a title. -/
def OneNamedGroup (groups : List XmlNode) : Prop :=
  ∀ o, Occurs (HasTag "Entry".toList) (HasTag "Group".toList) 0 groups o → Titled o →
    o.path.head? ≠ some 0 → ∀ top ∈ o.ancestors.head?, groupName top = []

/-- The folders of the entries are those of what is visited. -/
theorem folders_of_becomes {folder : Occurrence XmlLabel → List Str}
    {visited : List (Occurrence XmlLabel)}
    {outcomes : List (Option ImportedEntry × List LossinessNote)}
    (h : List.Forall₂ (Becomes folder) visited outcomes) :
    (outcomes.filterMap Prod.fst).map ImportedEntry.folder =
      (visited.filter fun o => decide (Titled o)).map folder := by
  induction h with
  | nil => rfl
  | @cons o out visited outcomes ho _ ih =>
    rw [Becomes] at ho
    rw [List.filterMap_cons, List.filter_cons]
    by_cases htitled : Titled o
    · rw [if_pos htitled] at ho
      obtain ⟨e, rfl, -, hfolder⟩ := ho
      simp [htitled, hfolder, ih]
    · rw [if_neg htitled] at ho
      obtain ⟨note, rfl, -⟩ := ho
      simp [htitled, ih]

/-- An entry is in the folder it should be in. -/
theorem folderOf_eq_claimed_iff (o : Occurrence XmlLabel) :
    folderOf o = claimedFolder o ↔
      (o.path.head? ≠ some 0 → ∀ top ∈ o.ancestors.head?, groupName top = []) := by
  rw [folderOf, claimedFolder]
  split_ifs with hfirst
  · simp [hfirst]
  · rw [forall_prop_of_true hfirst]
    cases o.ancestors with
    | nil => simp
    | cons top rest =>
      rw [List.tail_cons, names_cons, List.head?_cons]
      by_cases hname : groupName top = []
      · simp [hname]
      · refine iff_of_false (fun h => ?_) fun h => hname (h top rfl)
        have hlength := congrArg List.length h
        simp [hname] at hlength

/-- **When the folders are as they should be.** -/
theorem walksAs_claimed_iff {groups : List XmlNode} {entries : List ImportedEntry}
    {report : List LossinessNote} (h : WalksAs folderOf groups entries report) :
    WalksAs claimedFolder groups entries report ↔ OneNamedGroup groups := by
  obtain ⟨visited, outcomes, count, hsorted, hmem, hall, rfl, rfl⟩ := h
  constructor
  · rintro ⟨visited', outcomes', -, hsorted', hmem', hall', hentries, -⟩ o ho htitled
    rw [← folderOf_eq_claimed_iff]
    obtain rfl : visited' = visited :=
      (eq_walk entry_ne_group hsorted' hmem').trans (eq_walk entry_ne_group hsorted hmem).symm
    have hfolders := folders_of_becomes hall
    rw [hentries, folders_of_becomes hall'] at hfolders
    exact (List.map_inj_left.1 hfolders o (List.mem_filter.2
      ⟨(hmem o).2 ho, decide_eq_true htitled⟩)).symm
  · intro hone
    refine ⟨visited, outcomes, count, hsorted, hmem, ?_, rfl, rfl⟩
    refine List.forall₂_iff_zip.2 ⟨hall.length_eq, fun {o out} hzip => ?_⟩
    have hbecomes := (List.forall₂_iff_zip.1 hall).2 hzip
    have ho := (hmem o).1 (List.of_mem_zip hzip).1
    rw [Becomes] at hbecomes ⊢
    by_cases htitled : Titled o
    · rw [if_pos htitled] at hbecomes ⊢
      obtain ⟨e, hout, hname, hfolder⟩ := hbecomes
      exact ⟨e, hout, hname, hfolder.trans ((folderOf_eq_claimed_iff o).2 (hone o ho htitled))⟩
    · rwa [if_neg htitled] at hbecomes ⊢

/-- **When KeePass groups become folders.** Of every document, each entry that is directly contained
in a group is visited exactly once, in document order; without a title it comes to a note. The
entries with titles go to the folders of the names of their groups, without that of the first top
group only, exactly when no other top group has both a name and an entry with a title. -/
theorem folders_claimed_iff {parseXml : Str → Except E XmlNode} {bytes : Bytes} {root : XmlNode}
    (hroot : rootSection parseXml bytes = .ok root) :
    ∃ entries report, parse parseXml bytes = .ok (entries, report) ∧
      WalksAs folderOf (topGroups root) entries report ∧
      (WalksAs claimedFolder (topGroups root) entries report ↔
        OneNamedGroup (topGroups root)) := by
  obtain ⟨entries, report, hparse, hwalks⟩ := parse_walks hroot
  exact ⟨entries, report, hparse, hwalks, walksAs_claimed_iff hwalks⟩

/-- An element with a text. -/
def textElement (tag value : Str) : XmlNode := .node (.element tag) [.node (.text value) []]

/-- A string of an entry. -/
def stringElement (key value : Str) : XmlNode :=
  .node (.element "String".toList) [textElement "Key".toList key, textElement "Value".toList value]

/-- A document with these groups. -/
def documentOf (groups : List XmlNode) : XmlNode :=
  .node (.element "KeePassFile".toList) [.node (.element "Root".toList) groups]

/-- A parser that knows one document. -/
def parseOne (text : Str) (root : XmlNode) (s : Str) : Except Unit XmlNode :=
  if s = text then .ok root else .error ()

theorem rootSection_parseOne {text : Str} {groups : List XmlNode}
    (hsniff : (utf8Encode text).take 4 ≠ [0x03, 0xd9, 0xa2, 0x9a]) :
    rootSection (parseOne text (documentOf groups)) (utf8Encode text) =
      .ok (.node (.element "Root".toList) groups) := by
  have hfile : HasTag "KeePassFile".toList (documentOf groups).label := hasTag_element
  have hroot : HasTag "Root".toList (Tree.node (XmlLabel.element "Root".toList) groups).label :=
    hasTag_element
  rw [rootSection, if_neg hsniff, utf8Decode?_encode]
  simp only [found, bind, Except.bind, parseOne, if_true, Except.mapError, if_neg (not_not.2 hfile)]
  rw [documentOf, Tree.children_node, List.find?_cons, decide_eq_true hroot]

/-- An entry with the title `t`. -/
def taskEntry : XmlNode := .node (.element "Entry".toList) [stringElement "Title".toList "t".toList]

/-- A group with that entry. -/
def workGroup : XmlNode :=
  .node (.element "Group".toList) [textElement "Name".toList "Work".toList, taskEntry]

/-- Two top groups: the first is empty, the second is that group. -/
def workGroups : List XmlNode := [.node (.element "Group".toList) [], workGroup]

/-- The XML of the document. -/
def workText : Str := ("<KeePassFile><Root><Group/><Group><Name>Work</Name><Entry><String>" ++
  "<Key>Title</Key><Value>t</Value></String></Entry></Group></Root></KeePassFile>").toList

theorem workText_root : rootSection (parseOne workText (documentOf workGroups))
    (utf8Encode workText) = .ok (.node (.element "Root".toList) workGroups) := by
  refine rootSection_parseOne ?_
  unfold workText
  simp only [String.toList_append]
  decide +kernel

theorem folders_claimed_iff_work :
    ∃ entries report, parse (parseOne workText (documentOf workGroups)) (utf8Encode workText) =
        .ok (entries, report) ∧
      WalksAs folderOf (topGroups (.node (.element "Root".toList) workGroups)) entries report ∧
      (WalksAs claimedFolder (topGroups (.node (.element "Root".toList) workGroups)) entries
          report ↔
        OneNamedGroup (topGroups (.node (.element "Root".toList) workGroups))) :=
  folders_claimed_iff workText_root

/-- **A top group's name can be lost**: that of a sibling of the first one. -/
theorem sibling_name_lost :
    ¬ ∀ (parseXml : Str → Except Unit XmlNode) bytes root,
      rootSection parseXml bytes = .ok root →
        ∃ entries report, parse parseXml bytes = .ok (entries, report) ∧
          WalksAs claimedFolder (topGroups root) entries report := by
  intro h
  obtain ⟨entries, report, hparse, hclaimed⟩ := h _ _ _ workText_root
  obtain ⟨entries', report', hparse', hwalks⟩ := parse_walks workText_root
  rw [hparse] at hparse'
  obtain ⟨rfl, rfl⟩ := Prod.mk.inj (Except.ok.inj hparse')
  have hgroups : topGroups (.node (.element "Root".toList) workGroups) = workGroups := rfl
  rw [hgroups] at hclaimed hwalks
  have hwork : At workGroups [1, 1] [workGroup] taskEntry := At.inside rfl (At.here rfl)
  have hgroup : ∀ t ∈ [workGroup], HasTag "Group".toList t.label := by
    intro t ht
    rw [List.mem_singleton.1 ht]
    exact hasTag_element
  have hname := (walksAs_claimed_iff hwalks).1 hclaimed ⟨[1, 1], [workGroup], taskEntry⟩
    ⟨1, [1], rfl, hwork, rfl, hgroup⟩ (by decide +kernel) (by decide) workGroup rfl
  revert hname
  decide +kernel

/-! ## Content -/

/-- The string is in the entry: under its role or as a custom field. -/
def Kept (e : ImportedEntry) (kv : Str × Str) : Prop :=
  kv ∈ e.fields ∨ match roleOf kv.1 with
    | .title => e.name = kv.2
    | .username => e.username = some kv.2
    | .password => e.password = utf8Encode kv.2
    | .url => kv.2 ∈ e.uris
    | .notes => e.notes = some kv.2
    | .totp => e.totp = some kv.2
    | .field => False

/-- The string agrees with the last one of its role; custom fields need not. -/
def Agrees (entry : XmlNode) (kv : Str × Str) : Prop :=
  roleOf kv.1 = .field ∨ lastOf (roleOf kv.1) entry = some kv.2

/-- A role that a string with a value sets has a last value. -/
theorem lastOf_ne_none {entry : XmlNode} {kv : Str × Str} (hmem : kv ∈ strings entry)
    (hvalue : kv.2 ≠ []) : lastOf (roleOf kv.1) entry ≠ none := by
  rw [lastOf, Ne, List.getLast?_eq_none_iff]
  intro hnil
  have hset : kv.2 ∈ (strings entry).filterMap (valueOf (roleOf kv.1)) := by
    refine List.mem_filterMap.2 ⟨kv, hmem, ?_⟩
    rw [valueOf, if_pos ⟨rfl, Or.inl hvalue⟩]
  rw [hnil] at hset
  cases hset

/-- **A string is kept** exactly when it agrees with the last one of its role. -/
theorem kept_iff {entry : XmlNode} {folder : List Str} {kv : Str × Str}
    (hmem : kv ∈ strings entry) (hkey : kv.1 ≠ []) (hvalue : kv.2 ≠ []) :
    Kept (entryOf entry folder) kv ↔ Agrees entry kv := by
  obtain ⟨last, hlast⟩ := Option.ne_none_iff_exists'.1 (lastOf_ne_none hmem hvalue)
  have hfields : kv ∈ (entryOf entry folder).fields ↔ roleOf kv.1 = .field := by
    rw [entryOf, List.mem_filterMap]
    constructor
    · rintro ⟨kv', -, hcustom⟩
      rw [customOf] at hcustom
      split_ifs at hcustom with hrole
      rw [← Option.some.inj hcustom]
      exact hrole.1
    · intro hrole
      exact ⟨kv, hmem, if_pos ⟨hrole, hkey, hvalue⟩⟩
  rw [Kept, Agrees, hfields]
  by_cases hfield : roleOf kv.1 = .field
  · exact iff_of_true (Or.inl hfield) (Or.inl hfield)
  refine or_congr Iff.rfl ?_
  rw [hlast, Option.some.injEq]
  cases hrole : roleOf kv.1 with
  | title =>
    rw [hrole] at hlast
    simp only [entryOf, titleOf, hlast, Option.getD_some]
  | username =>
    rw [hrole] at hlast
    simp only [entryOf, hlast, Option.some.injEq]
  | password =>
    rw [hrole] at hlast
    simp only [entryOf, hlast, Option.getD_some]
    exact utf8Encode_injective.eq_iff
  | url =>
    rw [hrole] at hlast
    simp only [entryOf, hlast, Option.toList_some, List.mem_singleton]
    exact eq_comm
  | notes =>
    rw [hrole] at hlast
    simp only [entryOf, hlast, Option.some.injEq]
  | totp =>
    rw [hrole] at hlast
    simp only [entryOf, hlast, Option.some.injEq]
  | field => exact absurd hrole hfield

/-- Some note of the report is not on an entry without a title, nor on attachments. -/
def ReportsLoss (report : List LossinessNote) : Prop :=
  ∃ note ∈ report, (∀ folder, note ≠ untitledNote folder) ∧ ∀ total, note ∉ attachmentNotes total

/-- The attachments of all entries of the groups. -/
def attachments (groups : List XmlNode) : ℕ :=
  ((entriesFrom 0 groups).map fun o => binaries o.tree).sum

/-- The report has the number of attachments: the notes on no entry say that many. -/
def AttachmentsReported (groups : List XmlNode) (report : List LossinessNote) : Prop :=
  report.filter (fun note => decide (note.entry = [])) = attachmentNotes (attachments groups)

/-! ### Attachments -/

theorem outcomesOf_notes (groups : List XmlNode) :
    ∀ note ∈ (outcomesOf groups).flatMap Prod.snd, ∃ folder, note = untitledNote folder := by
  intro note hnote
  obtain ⟨out, hout, hnote⟩ := List.mem_flatMap.1 hnote
  obtain ⟨o, -, rfl⟩ := List.mem_map.1 hout
  dsimp only at hnote
  rw [imported, buildEntry_eq] at hnote
  split_ifs at hnote
  · exact ⟨_, List.mem_singleton.1 hnote⟩
  · cases hnote

/-- No note of a report is on lost content. -/
theorem not_reportsLoss (groups : List XmlNode) :
    ¬ ReportsLoss ((outcomesOf groups).flatMap Prod.snd ++ attachmentNotes (countedIn groups)) := by
  rintro ⟨note, hnote, hentry, hattachment⟩
  rcases List.mem_append.1 hnote with hnote | hnote
  · obtain ⟨folder, rfl⟩ := outcomesOf_notes groups note hnote
    exact hentry folder rfl
  · exact hattachment _ hnote

/-- The message on attachments starts with their number. -/
theorem takeWhile_attachmentMessage (total : ℕ) :
    (attachmentMessage total).takeWhile Char.isDigit = Nat.toDigits 10 total := by
  have hspace : " entry attachment".toList = ' ' :: "entry attachment".toList := by simp
  rw [attachmentMessage, hspace, List.takeWhile_append_of_pos fun c hc =>
    Nat.isDigit_of_mem_toDigits (by omega) (by omega) hc, List.cons_append,
    List.takeWhile_cons_of_neg (by decide), List.append_nil]

theorem attachmentNotes_injective : Function.Injective attachmentNotes := by
  intro m n h
  rw [attachmentNotes, attachmentNotes] at h
  split_ifs at h with hm hn hn
  · have hmessage := congrArg LossinessNote.message (List.singleton_inj.1 h)
    have hdigits := congrArg (List.takeWhile Char.isDigit) hmessage
    rw [takeWhile_attachmentMessage, takeWhile_attachmentMessage] at hdigits
    rw [← @Nat.ofDigitChars_ten_toDigits m, ← @Nat.ofDigitChars_ten_toDigits n, hdigits]
  · omega

/-- The notes on no entry are the one on attachments. -/
theorem filter_report (groups : List XmlNode) (count : ℕ) :
    ((outcomesOf groups).flatMap Prod.snd ++ attachmentNotes count).filter
      (fun note => decide (note.entry = [])) = attachmentNotes count := by
  have huntitled : "<untitled>".toList ≠ [] := by simp
  have hskipped : ((outcomesOf groups).flatMap Prod.snd).filter
      (fun note => decide (note.entry = [])) = [] := by
    rw [List.filter_eq_nil_iff]
    intro note hnote hentry
    obtain ⟨folder, rfl⟩ := outcomesOf_notes groups note hnote
    exact huntitled (of_decide_eq_true hentry)
  have hattached : (attachmentNotes count).filter (fun note => decide (note.entry = [])) =
      attachmentNotes count := by
    rw [List.filter_eq_self]
    intro note hnote
    rw [attachmentNotes] at hnote
    split_ifs at hnote
    · rw [List.mem_singleton.1 hnote]
      exact decide_eq_true rfl
    · cases hnote
  rw [List.filter_append, hskipped, hattached, List.nil_append]

theorem imported_binaries (o : Occurrence XmlLabel) :
    (imported o).2.2 = if Titled o then binaries o.tree else 0 := by
  rw [imported, buildEntry_eq]
  by_cases h : Titled o
  · rw [if_pos h, if_neg h]
  · rw [if_neg h, if_pos (not_not.1 h)]

/-- **When the attachments are counted**: those of entries without a title are not. -/
theorem countedIn_eq_iff (groups : List XmlNode) :
    countedIn groups = attachments groups ↔
      ∀ o ∈ entriesFrom 0 groups, ¬ Titled o → binaries o.tree = 0 := by
  rw [countedIn, attachments]
  induction entriesFrom 0 groups with
  | nil => simp
  | cons o os ih =>
    have hle : ∀ os : List (Occurrence XmlLabel), (os.map fun o => (imported o).2.2).sum ≤
        (os.map fun o => binaries o.tree).sum := by
      intro os
      refine List.sum_le_sum fun o _ => ?_
      rw [imported_binaries]
      split_ifs <;> omega
    have hrest := hle os
    rw [List.map_cons, List.sum_cons, List.map_cons, List.sum_cons, List.forall_mem_cons, ← ih,
      imported_binaries]
    by_cases htitled : Titled o
    · rw [if_pos htitled, forall_prop_of_false (not_not.2 htitled), true_and]
      omega
    · rw [if_neg htitled, forall_prop_of_true htitled]
      omega

/-- The entries with titles are imported. -/
theorem outcomesOf_entries (groups : List XmlNode) :
    (outcomesOf groups).filterMap Prod.fst =
      ((entriesFrom 0 groups).filter fun o => decide (Titled o)).map
        fun o => entryOf o.tree (folderOf o) := by
  rw [outcomesOf, List.filterMap_map, ← List.filterMap_eq_map, List.filterMap_filter]
  refine List.filterMap_congr fun o _ => ?_
  rw [Function.comp_apply, imported, buildEntry_eq]
  by_cases h : Titled o
  · rw [if_neg h, if_pos (decide_eq_true h)]
    rfl
  · rw [if_pos (not_not.1 h), if_neg fun hd => h (of_decide_eq_true hd)]

/-- **When KeePass content is not lost silently.** Of every document, the entries with titles are
imported in document order. A string of such an entry that has a key and a value is in the entry, or
its loss is reported, exactly when it agrees with the last one of its role. The report has the
number of attachments exactly when no entry without a title has one. -/
theorem content_kept_iff {parseXml : Str → Except E XmlNode} {bytes : Bytes} {root : XmlNode}
    (hroot : rootSection parseXml bytes = .ok root) :
    ∃ entries report, parse parseXml bytes = .ok (entries, report) ∧
      List.Forall₂ (fun o e => ∀ kv ∈ strings o.tree, kv.1 ≠ [] → kv.2 ≠ [] →
          (Kept e kv ∨ ReportsLoss report ↔ Agrees o.tree kv))
        ((entriesFrom 0 (topGroups root)).filter fun o => decide (Titled o)) entries ∧
      (AttachmentsReported (topGroups root) report ↔
        ∀ o ∈ entriesFrom 0 (topGroups root), ¬ Titled o → binaries o.tree = 0) := by
  refine ⟨_, _, parse_eq hroot, ?_, ?_⟩
  · rw [outcomesOf_entries, List.forall₂_map_right_iff, List.forall₂_same]
    intro o _ kv hkv hkey hvalue
    rw [or_iff_left (not_reportsLoss _)]
    exact kept_iff hkv hkey hvalue
  · rw [AttachmentsReported, filter_report, attachmentNotes_injective.eq_iff]
    exact countedIn_eq_iff _

/-- An entry with two one-time passwords, under two names. -/
def twiceEntry : XmlNode :=
  .node (.element "Entry".toList) [stringElement "Title".toList "t".toList,
    stringElement "otp".toList "x".toList, stringElement "TOTP".toList "y".toList]

/-- A document with that entry. -/
def twiceGroups : List XmlNode := [.node (.element "Group".toList) [twiceEntry]]

/-- The XML of the document. -/
def twiceText : Str := ("<KeePassFile><Root><Group><Entry><String><Key>Title</Key>" ++
  "<Value>t</Value></String><String><Key>otp</Key><Value>x</Value></String><String>" ++
  "<Key>TOTP</Key><Value>y</Value></String></Entry></Group></Root></KeePassFile>").toList

theorem twiceText_root : rootSection (parseOne twiceText (documentOf twiceGroups))
    (utf8Encode twiceText) = .ok (.node (.element "Root".toList) twiceGroups) := by
  refine rootSection_parseOne ?_
  unfold twiceText
  simp only [String.toList_append]
  decide +kernel

theorem content_kept_iff_twice :
    ∃ entries report, parse (parseOne twiceText (documentOf twiceGroups)) (utf8Encode twiceText) =
        .ok (entries, report) ∧
      List.Forall₂ (fun o e => ∀ kv ∈ strings o.tree, kv.1 ≠ [] → kv.2 ≠ [] →
          (Kept e kv ∨ ReportsLoss report ↔ Agrees o.tree kv))
        ((entriesFrom 0 (topGroups (.node (.element "Root".toList) twiceGroups))).filter
          fun o => decide (Titled o)) entries ∧
      (AttachmentsReported (topGroups (.node (.element "Root".toList) twiceGroups)) report ↔
        ∀ o ∈ entriesFrom 0 (topGroups (.node (.element "Root".toList) twiceGroups)),
          ¬ Titled o → binaries o.tree = 0) :=
  content_kept_iff twiceText_root

theorem twiceGroups_entries :
    (entriesFrom 0 twiceGroups).filter (fun o => decide (Titled o)) =
      [⟨[0, 0], [.node (.element "Group".toList) [twiceEntry]], twiceEntry⟩] := by
  have hgroup : entriesFrom 0 [twiceEntry] = [⟨[0], [], twiceEntry⟩] := by
    rw [entriesFrom, twiceEntry, walk, if_pos hasTag_element, walk]
    rfl
  have hgroups : entriesFrom 0 twiceGroups =
      [⟨[0, 0], [.node (.element "Group".toList) [twiceEntry]], twiceEntry⟩] := by
    rw [entriesFrom, twiceGroups, walk, if_neg (entry_ne_group _ hasTag_element),
      if_pos hasTag_element, ← entriesFrom, hgroup, walk]
    rfl
  have htitled : titleOf twiceEntry ≠ [] := by decide +kernel
  rw [hgroups, List.filter_eq_self]
  intro o ho
  rw [List.mem_singleton.1 ho]
  exact decide_eq_true htitled

/-- **A string can be lost silently**: of two names of the one-time password, the first one's. -/
theorem string_lost_silently :
    ¬ ∀ (parseXml : Str → Except Unit XmlNode) bytes root,
      rootSection parseXml bytes = .ok root →
        ∃ entries report, parse parseXml bytes = .ok (entries, report) ∧
          List.Forall₂ (fun o e => ∀ kv ∈ strings o.tree, kv.1 ≠ [] → kv.2 ≠ [] →
              Kept e kv ∨ ReportsLoss report)
            ((entriesFrom 0 (topGroups root)).filter fun o => decide (Titled o)) entries ∧
          AttachmentsReported (topGroups root) report := by
  intro h
  obtain ⟨entries, report, hparse, hall, -⟩ := h _ _ _ twiceText_root
  rw [parse_eq twiceText_root, outcomesOf_entries] at hparse
  obtain ⟨rfl, rfl⟩ := Prod.mk.inj (Except.ok.inj hparse)
  have hgroups : topGroups (.node (.element "Root".toList) twiceGroups) = twiceGroups := rfl
  rw [hgroups, twiceGroups_entries] at hall
  have hotp := (List.forall₂_cons.1 hall).1 ("otp".toList, "x".toList) (by decide +kernel)
    (by decide +kernel) (by decide +kernel)
  rw [or_iff_left (not_reportsLoss _), kept_iff (by decide +kernel) (by decide +kernel)
    (by decide +kernel)] at hotp
  revert hotp
  rw [Agrees]
  decide +kernel

end Bypass.Keepass
