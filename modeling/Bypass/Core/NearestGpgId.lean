import Bypass.Core.Init
import Bypass.Core.Mem

/-!
# Recipients come from the nearest recipients file

`resolve_recipients` (`gpg_id.rs`) is a loop over the parents of an entry. What it is for is said
here without the loop: of the directories that enclose the entry and have a `.gpg-id`, the nearest
one decides.

* `RelPath.Within`: a directory, or the root, that a directory is or lies in.
* `recipientsIn_nearest`: the recipients in force are those of the nearest recipients file.
* `resolve_nearest`: **the loop finds the nearest recipients file**, and no other file matters.
-/

namespace Bypass

/-! ## Directories -/

/-- The directory `c`, or the root, is `d` or lies in it. -/
def Within (c d : Option RelPath) : Prop :=
  ∀ q ∈ d, ∃ p, c = some p ∧ (q = p ∨ q.Below p)

/-- The directory `d`, or the root, encloses the entry. -/
def Encloses (d : Option RelPath) (entry : RelPath) : Prop := ∀ q ∈ d, q.Below entry

theorem within_self (c : Option RelPath) : Within c c := fun q hq => ⟨q, hq, Or.inl rfl⟩

theorem within_root {d : Option RelPath} : Within none d ↔ d = none := by
  constructor
  · intro h
    cases d with
    | none => rfl
    | some q =>
      obtain ⟨p, hp, -⟩ := h q rfl
      cases hp
  · rintro rfl
    exact within_self none

/-- What a directory lies in: itself, and what its parent lies in. -/
theorem within_some {p : RelPath} {d : Option RelPath} :
    Within (some p) d ↔ d = some p ∨ Within p.parent d := by
  cases d with
  | none => exact ⟨fun _ => Or.inr nofun, fun _ => nofun⟩
  | some q =>
    have hbelow := @RelPath.below_iff_parent q p
    constructor
    · intro h
      obtain ⟨p', hp, hq⟩ := h q rfl
      obtain rfl := Option.some.inj hp
      rcases hq with rfl | hq
      · exact Or.inl rfl
      · refine Or.inr fun q' hq' => ?_
        obtain rfl := Option.some.inj hq'
        exact hbelow.1 hq
    · rintro (h | h) q' hq'
      · exact ⟨p, rfl, Or.inl (Option.some.inj (hq'.symm.trans h))⟩
      · obtain rfl := Option.some.inj hq'
        exact ⟨p, rfl, Or.inr (hbelow.2 (h q rfl))⟩

/-- An entry lies in what encloses it. -/
theorem within_parent {d : Option RelPath} {entry : RelPath} :
    Within entry.parent d ↔ Encloses d entry :=
  forall₂_congr fun _ _ => RelPath.below_iff_parent.symm

theorem within_antisymm {c d : Option RelPath} (h : Within c d) (h' : Within d c) : c = d := by
  cases d with
  | none => exact within_root.1 h'
  | some q =>
    obtain ⟨p, rfl, hq⟩ := h q rfl
    obtain ⟨q', hq', hp⟩ := h' p rfl
    obtain rfl := Option.some.inj hq'
    rcases hq with rfl | hq
    · rfl
    · rcases hp with rfl | hp
      · rfl
      · -- each would be longer than the other
        have hlen := hq.length_le
        have hlen' := hp.length_le
        simp only [List.length_append, List.length_singleton] at hlen hlen'
        omega

/-! ## The nearest file -/

/-- The recipients file with the content `bytes` is that of the nearest of the directories that `c`
lies in and that have one. -/
structure NearestIn (f : Files) (c d : Option RelPath) (bytes : Bytes) : Prop where
  within : Within c d
  file : f (gpgIdIn d) = some bytes
  nearest : ∀ d', Within c d' → f (gpgIdIn d') ≠ none → Within d d'

variable {W CE SE VE : Type}

/-- **The recipients in force in a directory** are those of the nearest file, if there is one. -/
theorem recipientsIn_nearest (f : Files) (c : Option RelPath) :
    ((∀ d, Within c d → f (gpgIdIn d) = none) ∧
        recipientsIn f c = (.error .missing : Except (GpgIdError SE) _)) ∨
      ∃ d bytes, NearestIn f c d bytes ∧
        recipientsIn f c = (parseGpgId bytes : Except (GpgIdError SE) _) := by
  induction hn : depth c using Nat.strong_induction_on generalizing c with
  | _ n ih =>
    rw [recipientsIn.eq_def]
    cases hfile : f (gpgIdIn c) with
    | some bytes =>
      exact Or.inr ⟨c, bytes, ⟨within_self c, hfile, fun d' hd' _ => hd'⟩, rfl⟩
    | none =>
      cases c with
      | none =>
        refine Or.inl ⟨fun d hd => ?_, rfl⟩
        rw [within_root.1 hd, hfile]
      | some p =>
        -- the directory itself has none: it is as in its parent
        rcases ih _ (hn ▸ depth_parent_lt p) p.parent rfl with
          ⟨hnone, hmissing⟩ | ⟨d, bytes, hd, hparse⟩
        · refine Or.inl ⟨fun d hd => ?_, hmissing⟩
          rcases within_some.1 hd with rfl | hd
          · exact hfile
          · exact hnone d hd
        · refine Or.inr ⟨d, bytes, ⟨within_some.2 (Or.inr hd.within), hd.file, ?_⟩, hparse⟩
          intro d' hd' hsome
          rcases within_some.1 hd' with rfl | hd'
          · exact absurd hfile hsome
          · exact hd.nearest d' hd' hsome

theorem parseGpgId_ne_missing (bytes : Bytes) :
    parseGpgId bytes ≠ (.error .missing : Except (GpgIdError SE) _) := by
  rw [parseGpgId]
  split
  · simp
  · dsimp only
    split_ifs <;> simp

/-- The recipients in force depend on the recipients files of the enclosing directories only. -/
theorem recipientsIn_congr_within {f g : Files} {c : Option RelPath}
    (h : ∀ d, Within c d → f (gpgIdIn d) = g (gpgIdIn d)) :
    (recipientsIn f c : Except (GpgIdError SE) _) = recipientsIn g c := by
  induction hn : depth c using Nat.strong_induction_on generalizing c with
  | _ n ih =>
    rw [recipientsIn.eq_def f, recipientsIn.eq_def g, h c (within_self c)]
    cases g (gpgIdIn c) with
    | some bytes => rfl
    | none =>
      cases c with
      | none => rfl
      | some p =>
        exact ih _ (hn ▸ depth_parent_lt p) (fun d hd => h d (within_some.2 (Or.inr hd))) rfl

/-! ## The loop -/

/-- A storage that keeps `files`: reading changes none and tells what is there, and a change at a
path, also one that fails, is at that path only. -/
structure Storage.KeepsFiles (storage : Storage W SE) (files : W → Files) : Prop where
  read_files : ∀ p w, files (storage.readFn p w).2 = files w
  read_ok : ∀ p w v, (storage.readFn p w).1 = .ok v → v = files w p
  write_frame : ∀ p d w q, q ≠ p → files (storage.writeFn p d w).2 q = files w q
  remove_frame : ∀ p w q, q ≠ p → files (storage.removeFn p w).2 q = files w q

theorem OnMap.keepsFiles {store : Store W CE SE VE} {files : W → Files} (h : OnMap store files) :
    store.storage.KeepsFiles files :=
  ⟨h.read_files, h.read_ok, h.write_frame, h.remove_frame⟩

section Loop

variable {storage : Storage W SE} {files : W → Files}

/-- The walk ends with the error of a read that failed, or with the recipients in force. -/
theorem resolveFrom_outcome (h : storage.KeepsFiles files) (c : Option RelPath) (s : W) :
    (resolveFrom storage c : Prog (Event CE SE VE) W _ _).wp (fun r _ t => files t = files s ∧
      ((∃ e d w, r = .error (.storage e) ∧ Within c d ∧ (storage.readFn (gpgIdIn d) w).1 = .error e) ∨
        r = recipientsIn (files s) c)) s := by
  induction hn : depth c using Nat.strong_induction_on generalizing c s with
  | _ n ih =>
    rw [resolveFrom.eq_def, recipientsIn.eq_def]
    refine Prog.wp_bind.2 (Prog.wp_mapErr.2 (Prog.wp_call.2 ?_))
    have hfiles := h.read_files (gpgIdIn c) s
    cases hread : (storage.readFn (gpgIdIn c) s).1 with
    | error e =>
      exact ⟨hfiles, Or.inl ⟨e, c, s, rfl, within_self c, hread⟩⟩
    | ok v =>
      obtain rfl := h.read_ok _ _ _ hread
      cases hfile : files s (gpgIdIn c) with
      | some bytes =>
        dsimp only [Except.mapError]
        cases (parseGpgId bytes : Except (GpgIdError SE) _) with
        | ok recipients => exact ⟨hfiles, Or.inr rfl⟩
        | error e => exact ⟨hfiles, Or.inr rfl⟩
      | none =>
        cases c with
        | none => exact ⟨hfiles, Or.inr rfl⟩
        | some p =>
          have hstep := ih _ (hn ▸ depth_parent_lt p) p.parent
            (storage.readFn (gpgIdIn (some p)) s).2 rfl
          rw [hfiles] at hstep
          refine Prog.wp_mono hstep fun r tr t ⟨ht, hr⟩ => ⟨ht, hr.imp_left ?_⟩
          rintro ⟨e, d, w, hr, hd, hfail⟩
          exact ⟨e, d, w, hr, within_some.2 (Or.inr hd), hfail⟩

/-- A read failed. -/
def ReadFailed (r : Except (GpgIdError SE) (List KeyId)) : Prop := ∃ e, r = .error (.storage e)

/-- **Recipients come from the nearest recipients file.** For every entry, the loop ends: with the
failure of a read in a directory that encloses the entry; or with what the nearest recipients file
parses to, be it an error; or, when no directory has one, and only then, with `Missing`. It changes
no file, and no change at another path than those of the enclosing directories' recipients files,
such as the blob of an entry, changes what it returns. -/
theorem resolve_nearest (h : storage.KeepsFiles files) (entry : RelPath) :
    (∀ s r t, (resolveRecipients storage entry : Prog (Event CE SE VE) W _ _).run s = (r, t) →
      files t = files s ∧
      ((∃ e d w, r = .error (.storage e) ∧ Encloses d entry ∧
          (storage.readFn (gpgIdIn d) w).1 = .error e) ∨
        (r = .error .missing ↔ ∀ d, Encloses d entry → files s (gpgIdIn d) = none) ∧
        ∀ d bytes, Encloses d entry → files s (gpgIdIn d) = some bytes →
          (∀ d', Encloses d' entry → files s (gpgIdIn d') ≠ none → Within d d') →
            r = parseGpgId bytes)) ∧
    (∀ s q, (∀ d, Encloses d entry → q ≠ gpgIdIn d) →
      ∀ u, ((∃ data, u = (storage.writeFn q data s).2) ∨ u = (storage.removeFn q s).2) →
        ∀ r r' t t', (resolveRecipients storage entry : Prog (Event CE SE VE) W _ _).run s = (r, t) →
          (resolveRecipients storage entry : Prog (Event CE SE VE) W _ _).run u = (r', t') →
            ¬ ReadFailed r → ¬ ReadFailed r' → r' = r) ∧
    ∀ e d, entryToBlob e ≠ gpgIdIn d := by
  have hout : ∀ s r t, (resolveRecipients storage entry : Prog (Event CE SE VE) W _ _).run s = (r, t) →
      files t = files s ∧ ((∃ e d w, r = .error (.storage e) ∧ Encloses d entry ∧
        (storage.readFn (gpgIdIn d) w).1 = .error e) ∨ r = recipientsIn (files s) entry.parent) := by
    intro s r t hrun
    have hwalk := @resolveFrom_outcome W CE SE VE storage files h entry.parent s
    unfold Prog.wp at hwalk
    rw [resolveRecipients] at hrun
    rw [hrun] at hwalk
    refine ⟨hwalk.1, hwalk.2.imp_left ?_⟩
    rintro ⟨e, d, w, hr, hd, hfail⟩
    exact ⟨e, d, w, hr, within_parent.1 hd, hfail⟩
  refine ⟨fun s r t hrun => ?_, fun s q hq u hu r r' t t' hrun hrun' hr hr' => ?_,
    fun e d => (gpgIdIn_ne_entryToBlob d e).symm⟩
  · obtain ⟨hfiles, hr⟩ := hout s r t hrun
    refine ⟨hfiles, hr.imp_right fun hr => ?_⟩
    subst hr
    rcases @recipientsIn_nearest SE (files s) entry.parent with
      ⟨hnone, hmissing⟩ | ⟨d, bytes, hd, hparse⟩
    · refine ⟨⟨fun _ d hd => hnone d (within_parent.2 hd), fun _ => hmissing⟩, ?_⟩
      intro d bytes hd hfile
      rw [hnone d (within_parent.2 hd)] at hfile
      cases hfile
    · refine ⟨⟨fun hmissing => ?_, fun hnone => ?_⟩, fun d' bytes' hd' hfile' hnear => ?_⟩
      · exact absurd (hparse.symm.trans hmissing) (parseGpgId_ne_missing bytes)
      · have hfile := hnone d (within_parent.1 hd.within)
        rw [hd.file] at hfile
        cases hfile
      · -- both files are the nearest: they lie in each other
        have hin : Within d d' := hd.nearest d' (within_parent.2 hd') (by simp [hfile'])
        have hin' : Within d' d := hnear d (within_parent.1 hd.within) (by simp [hd.file])
        obtain rfl := within_antisymm hin hin'
        obtain rfl := Option.some.inj (hd.file.symm.trans hfile')
        exact hparse
  · have hsame : ∀ d, Within entry.parent d → files u (gpgIdIn d) = files s (gpgIdIn d) := by
      intro d hd
      have hne := (hq d (within_parent.1 hd)).symm
      rcases hu with ⟨data, rfl⟩ | rfl
      · exact h.write_frame q data s _ hne
      · exact h.remove_frame q s _ hne
    have hread : ∀ {s r t}, (resolveRecipients storage entry : Prog (Event CE SE VE) W _ _).run s =
        (r, t) → ¬ ReadFailed r → r = recipientsIn (files s) entry.parent := by
      intro s r t hrun hr
      rcases (hout s r t hrun).2 with ⟨e, d, w, he, -⟩ | hr'
      · exact absurd ⟨e, he⟩ hr
      · exact hr'
    rw [hread hrun hr, hread hrun' hr', recipientsIn_congr_within hsame]

end Loop

/-- In memory, with one recipients file, at the root. -/
theorem resolve_nearest_root :
    ((resolveRecipients memStore.storage ⟨"a".toList, by decide⟩ :
        Prog (Event TaggedError Empty Empty) MemFiles _ _).run
          ((∅ : MemFiles).insert gpgIdPath [65, 10])).1 = parseGpgId [65, 10] := by
  obtain ⟨-, ⟨e, -⟩ | ⟨-, hnear⟩⟩ :=
    (resolve_nearest memStore_onMap.keepsFiles ⟨"a".toList, by decide⟩).1 _ _ _ rfl
  · exact e.elim
  · refine hnear none [65, 10] nofun ?_ fun d hd _ => ?_
    · show memFiles _ gpgIdPath = _
      rw [memFiles_insert, Function.update_self]
    · cases d with
      | none => exact within_self none
      | some q =>
        -- no path is short enough to enclose the entry
        have hlen : q.str.length + 1 ≤ 1 := by simpa using (hd q rfl).length_le
        have hpos := List.length_pos_of_ne_nil q.str_ne_nil
        omega

end Bypass
