import Bypass.Core.Init
import Bypass.Core.Asking
import Bypass.Core.Mem
import Bypass.Foundations.Utf8

/-!
# The rule for ciphertexts

`Store::install_gitattributes` appends its rule to `.gitattributes` unless there is one already. The
rule that it appends has two attributes, `binary` and the merge driver; the one that it looks for
may have `binary` alone.

* `installGitattributes_ok`: what a call that succeeds has read and written.
* `byteLines_withGpgRule`: appending the rule keeps the lines before it.
* `merge_rule_installed_iff`: **when the merge driver is installed**.
-/

namespace Bypass

open Prog

/-! ## Lines of bytes -/

/-- The lines of a file: each ends with a newline, which the last one may lack. -/
def byteLines (b : Bytes) : List Bytes :=
  (b.splitOn 0x0A).dropLast ++ (b.splitOn 0x0A).getLast?.toList.filter (· ≠ [])

/-- What comes after a newline is on lines of its own. -/
theorem byteLines_append (a b : Bytes) :
    byteLines (a ++ 0x0A :: b) = a.splitOn 0x0A ++ byteLines b := by
  have hne : b.splitOn 0x0A ≠ [] := List.splitOn_ne_nil _ _
  rw [byteLines, List.splitOn_append_cons_self, List.dropLast_append_of_ne_nil hne,
    List.getLast?_append_of_ne_nil _ hne, List.append_assoc, byteLines]

theorem byteLines_concat (a : Bytes) : byteLines (a ++ [0x0A]) = a.splitOn 0x0A := by
  rw [byteLines_append]
  exact List.append_nil _

/-- A last line without a newline is a line. -/
theorem byteLines_eq_splitOn {a : Bytes} (hne : a ≠ []) (hlast : a.getLast? ≠ some 0x0A) :
    byteLines a = a.splitOn 0x0A := by
  cases h : rsplitOnce 0x0A a with
  | none =>
    rw [byteLines, List.splitOn_eq_singleton (rsplitOnce_eq_none.1 h)]
    simp [hne]
  | some p =>
    obtain ⟨rfl, hnot⟩ := rsplitOnce_eq_some.1 h
    have htail : p.2 ≠ [] := fun hnil => hlast (by rw [hnil, List.getLast?_concat])
    rw [byteLines_append, splitOn_append_last hnot, byteLines, List.splitOn_eq_singleton hnot]
    simp [htail]

/-- The rule, without its newline. -/
def ruleLine : Bytes := utf8Encode "*.gpg binary merge=bypass-take-theirs".toList

theorem utf8Encode_gitattributesRule : utf8Encode gitattributesRule = ruleLine ++ [0x0A] := by
  decide +kernel

/-- The rule is appended on a line of its own. -/
theorem withGpgRule_eq (existing : Bytes) :
    withGpgRule existing = ruleLine ++ [0x0A] ∧ existing = [] ∨
      ∃ a, withGpgRule existing = a ++ 0x0A :: (ruleLine ++ [0x0A]) ∧
        byteLines existing = a.splitOn 0x0A ∧ (existing = a ∨ existing = a ++ [0x0A]) := by
  rw [withGpgRule, utf8Encode_gitattributesRule]
  cases h : existing.getLast? with
  | none => exact Or.inl ⟨by rw [List.getLast?_eq_none_iff.1 h]; rfl, List.getLast?_eq_none_iff.1 h⟩
  | some last =>
    obtain ⟨a, rfl⟩ := List.getLast?_eq_some_iff.1 h
    by_cases hlast : last = 0x0A
    · subst hlast
      exact Or.inr ⟨a, by simp, byteLines_concat a, Or.inr rfl⟩
    · refine Or.inr ⟨a ++ [last], by simp [hlast], byteLines_eq_splitOn (by simp) ?_, Or.inl rfl⟩
      rw [h]
      exact fun heq => hlast (Option.some.inj heq)

/-- **The lines before the rule are kept.** -/
theorem byteLines_withGpgRule (existing : Bytes) :
    byteLines (withGpgRule existing) = byteLines existing ++ [ruleLine] := by
  have hrule : byteLines (ruleLine ++ [0x0A]) = [ruleLine] := by decide +kernel
  rcases withGpgRule_eq existing with ⟨hnew, rfl⟩ | ⟨a, hnew, hlines, -⟩
  · rw [hnew, hrule]
    rfl
  · rw [hnew, byteLines_append, hlines, hrule]

/-- The old content comes first. -/
theorem prefix_withGpgRule (existing : Bytes) : existing <+: withGpgRule existing := by
  rcases withGpgRule_eq existing with ⟨-, rfl⟩ | ⟨a, hnew, -, rfl | rfl⟩
  · exact List.nil_prefix
  · exact hnew ▸ List.prefix_append _ _
  · rw [hnew]
    exact ⟨ruleLine ++ [0x0A], by simp⟩

/-! ## Installing the rule -/

section Install

variable {W CE SE VE : Type} {store : Store W CE SE VE} {files : W → Files}

/-- What `install_gitattributes` reads. -/
def attributesOf (f : Files) : Bytes := (f gitattributesPath).getD []

/-- A call that finds a rule writes nothing, also if it fails. -/
theorem installGitattributes_found (h : OnMap store files) {s : W}
    (hrule : hasGpgBinaryRule (attributesOf (files s)) = true) :
    touched (store.installGitattributes.trace s) = ∅ ∧
      ∀ changed, (store.installGitattributes.run s).1 = .ok changed → changed = false := by
  have hasks : Steps (Asking fun _ _ : W => True)
      ((store.storage.read gitattributesPath : Prog (Event CE SE VE) W SE _).mapErr
        (.storage : SE → StoreError CE SE VE)) := (steps_call fun _ => ⟨rfl, trivial⟩).mapErr
  have hquiet := Asking.touched_eq hasks s
  rw [Store.installGitattributes, trace_bind, run_bind, touched_append, hquiet, Set.empty_union]
  cases hcall : ((store.storage.read gitattributesPath : Prog (Event CE SE VE) W SE _).mapErr
      (.storage : SE → StoreError CE SE VE)).run s with
  | mk r u =>
  cases r with
  | error e => exact ⟨touched_nil, nofun⟩
  | ok v =>
    have hread : store.storage.readFn gitattributesPath s = (.ok v, u) := run_mapErr_ok hcall
    have hv := h.read_ok gitattributesPath s v (congrArg Prod.fst hread)
    have hbody : v.getD [] = attributesOf (files s) := by rw [hv, attributesOf]
    simp only [hbody, hrule, if_true, trace_pure, run_pure, touched_nil, true_and]
    exact fun changed hok => (Except.ok.inj hok).symm

/-- **A call that succeeds** found a rule and wrote nothing, or found none and appended it. -/
theorem installGitattributes_ok (h : OnMap store files) {s t : W} {changed : Bool}
    (hrun : store.installGitattributes.run s = (.ok changed, t)) :
    changed = false ∧ hasGpgBinaryRule (attributesOf (files s)) = true ∧ files t = files s ∧
        touched (store.installGitattributes.trace s) = ∅ ∨
      changed = true ∧ hasGpgBinaryRule (attributesOf (files s)) = false ∧
        files t = Function.update (files s) gitattributesPath
          (some (withGpgRule (attributesOf (files s)))) := by
  obtain ⟨v, u, hread, hrest⟩ := Prog.run_bind_ok hrun
  have hcall : store.storage.readFn gitattributesPath s = (.ok v, u) := Prog.run_mapErr_ok hread
  have hv := h.read_ok gitattributesPath s v (congrArg Prod.fst hcall)
  have hu := h.read_files gitattributesPath s
  rw [hcall] at hu
  have hbody : v.getD [] = attributesOf (files s) := by rw [hv, attributesOf]
  dsimp only at hrest
  rw [hbody] at hrest
  split_ifs at hrest with hrule
  · obtain ⟨hok, rfl⟩ := Prod.mk.inj hrest
    obtain rfl := Except.ok.inj hok
    exact Or.inl ⟨rfl, hrule, hu, (installGitattributes_found h hrule).1⟩
  · obtain ⟨_, w, hwrite, hend⟩ := Prog.run_bind_ok hrest
    have hcall' : store.storage.writeFn gitattributesPath
        (withGpgRule (attributesOf (files s))) u = (.ok (), w) := Prog.run_mapErr_ok hwrite
    obtain ⟨hok, rfl⟩ := Prod.mk.inj hend
    obtain rfl := Except.ok.inj hok
    have hw := h.write_ok _ _ _ (congrArg Prod.fst hcall')
    rw [hcall', hu] at hw
    exact Or.inr ⟨rfl, by simpa using hrule, hw⟩

/-! ## The merge driver -/

/-- The words of a line of `.gitattributes`, as git splits it: at blanks. -/
def attributeTokens (line : Bytes) : List Bytes :=
  (line.splitOnP fun b => b = 0x20 ∨ b = 0x09 ∨ b = 0x0D).filter (· ≠ [])

/-- A line for the ciphertexts with both attributes: they are binary, and the driver merges them. -/
def IsMergeRule (line : Bytes) : Prop :=
  (attributeTokens line).head? = some (utf8Encode "*.gpg".toList) ∧
    utf8Encode "binary".toList ∈ (attributeTokens line).tail ∧
    utf8Encode "merge=bypass-take-theirs".toList ∈ (attributeTokens line).tail

instance (line : Bytes) : Decidable (IsMergeRule line) := inferInstanceAs (Decidable (_ ∧ _ ∧ _))

def HasMergeRule (body : Bytes) : Prop := ∃ line ∈ byteLines body, IsMergeRule line

instance (body : Bytes) : Decidable (HasMergeRule body) :=
  inferInstanceAs (Decidable (∃ line ∈ byteLines body, IsMergeRule line))

theorem isMergeRule_ruleLine : IsMergeRule ruleLine := by decide +kernel

/-- **When the merge driver is installed**: a call that succeeds leaves a rule with both attributes
unless it finds a rule that is `binary` alone. -/
theorem merge_rule_installed_iff (h : OnMap store files) {s t : W} {changed : Bool}
    (hrun : store.installGitattributes.run s = (.ok changed, t)) :
    (∃ body, files t gitattributesPath = some body ∧ HasMergeRule body) ↔
      hasGpgBinaryRule (attributesOf (files s)) = false ∨
        HasMergeRule (attributesOf (files s)) := by
  rcases installGitattributes_ok h hrun with ⟨-, hrule, hfiles, -⟩ | ⟨-, hrule, hfiles⟩
  · -- nothing was written: the file is there, since it has a rule
    cases hbody : files s gitattributesPath with
    | none =>
      rw [attributesOf, hbody] at hrule
      exact absurd hrule (by decide)
    | some body =>
      rw [attributesOf, hbody, Option.getD_some] at hrule
      simp [hfiles, hbody, attributesOf, hrule]
  · refine iff_of_true ⟨_, by rw [hfiles, Function.update_self], ruleLine, ?_,
      isMergeRule_ruleLine⟩ (Or.inl hrule)
    rw [byteLines_withGpgRule]
    exact List.mem_append_right _ List.mem_cons_self

end Install

/-- A store that was set up before the driver: its rule is `binary` alone. -/
def oldAttributes : Bytes := utf8Encode "*.gpg binary\n".toList

theorem old_rule_kept :
    (hasGpgBinaryRule oldAttributes, decide (HasMergeRule oldAttributes)) = (true, false) := by
  decide +kernel

/-- The call on a store in memory. -/
theorem memStore_installGitattributes {w : MemFiles} {body : Bytes}
    (hbody : w[gitattributesPath]? = some body) :
    memStore.installGitattributes.run w = if hasGpgBinaryRule body then (.ok false, w)
      else (.ok true, w.insert gitattributesPath (withGpgRule body)) := by
  have hread : memStore.storage.readFn gitattributesPath w = (.ok (some body), w) :=
    congrArg (fun v => (Except.ok v, w)) hbody
  rw [Store.installGitattributes, run_bind, run_mapErr]
  simp only [Storage.read, run_call, hread, Except.mapError, Option.getD_some]
  split_ifs <;> rfl

/-- Such a store is left without it. -/
theorem driver_not_installed :
    ∃ s t : MemFiles, memStore.installGitattributes.run s = (.ok false, t) ∧
      ¬ ∃ body, memFiles t gitattributesPath = some body ∧ HasMergeRule body := by
  let s : MemFiles := Std.ExtTreeMap.empty.insert gitattributesPath oldAttributes
  have hs : s[gitattributesPath]? = some oldAttributes := Std.ExtTreeMap.getElem?_insert_self
  obtain ⟨hrule, hmerge⟩ := Prod.mk.inj old_rule_kept
  refine ⟨s, s, by rw [memStore_installGitattributes hs, if_pos hrule], ?_⟩
  rintro ⟨body, hbody, hhas⟩
  obtain rfl := Option.some.inj (hs.symm.trans hbody)
  exact of_decide_eq_false hmerge hhas

theorem driver_installed_fresh :
    ∃ t, memStore.installGitattributes.run (∅ : MemFiles) = (.ok true, t) ∧
      ((∃ body, memFiles t gitattributesPath = some body ∧ HasMergeRule body) ↔
        hasGpgBinaryRule (attributesOf (memFiles ∅)) = false ∨
          HasMergeRule (attributesOf (memFiles ∅))) :=
  ⟨_, rfl, merge_rule_installed_iff memStore_onMap rfl⟩

end Bypass
