import Bypass.Core.Entry
import Bypass.Core.NearestGpgId
import Bypass.Foundations.Joins

/-!
# What `init` writes and what is resolved

`Store::init` writes the recipients that it is given as lines, as they are. `resolve_recipients`
reads lines, trims them, and skips blank lines and comments. So not every list of recipients comes
back.

* `parseGpgId_gpgIdBody`: the lists that read back.
* `init_frame`: what `init` leaves alone.
* `init_resolves_iff`: **when `init` and `resolve_recipients` agree**.
-/

namespace Bypass

/-! ## Lists that read back -/

/-- An id that is a line of its own, and neither blank nor a comment. -/
structure KeyId.ReadsBack (id : KeyId) : Prop where
  ne_nil : id.str ≠ []
  trimmed : trim id.str = id.str
  line : '\n' ∉ id.str
  no_comment : id.str.head? ≠ some '#'

/-- The lines of a text whose pieces end lines. -/
theorem lines_flatMap_splitOn (ls : List Str) : lines (ls.flatMap fun l => l ++ ['\n']) =
    (ls.flatMap fun l => l.splitOn '\n').map stripCr := by
  have hsplit := splitOn_flatMap ls []
  rw [List.append_nil] at hsplit
  have hlast : (some ([] : Str)).toList.filter (· ≠ []) = [] := rfl
  rw [lines, hsplit, List.splitOn_nil, List.dropLast_concat, List.getLast?_concat, hlast,
    List.append_nil]
  rfl

variable {SE : Type}

/-- The recipients that are read out of a list of ids. -/
def readIds (ids : List KeyId) : List Str :=
  (((ids.map KeyId.str).flatMap fun l => l.splitOn '\n').map trim).filter fun line =>
    line ≠ [] ∧ line.head? ≠ some '#'

theorem parseGpgId_body (ids : List KeyId) : parseGpgId (gpgIdBody ids) =
    (if readIds ids = [] then .error .empty else .ok ((readIds ids).map KeyId.mk) :
      Except (GpgIdError SE) _) := by
  have hlines : (lines (ids.flatMap fun id => id.str ++ ['\n'])).map trim =
      ((ids.map KeyId.str).flatMap fun l => l.splitOn '\n').map trim := by
    have hbody : (ids.flatMap fun id => id.str ++ ['\n']) =
        (ids.map KeyId.str).flatMap fun l => l ++ ['\n'] := by rw [List.flatMap_map]
    rw [hbody, lines_flatMap_splitOn, List.map_map]
    exact List.map_congr_left fun l _ => trim_stripCr l
  rw [parseGpgId, gpgIdBody, utf8Decode?_encode]
  simp only [hlines]
  rfl

/-- **The lists that read back**: their ids are lines, trimmed, and no comments. -/
theorem parseGpgId_gpgIdBody {ids : List KeyId} (hne : ids ≠ []) :
    parseGpgId (gpgIdBody ids) = (.ok ids : Except (GpgIdError SE) _) ↔
      ∀ id ∈ ids, id.ReadsBack := by
  rw [parseGpgId_body]
  constructor
  · intro h id hid
    split_ifs at h
    have hread := Except.ok.inj h
    rw [← hread, List.mem_map] at hid
    obtain ⟨line, hline, rfl⟩ := hid
    obtain ⟨hmem, hkeep⟩ := List.mem_filter.1 hline
    obtain ⟨piece, hpiece, rfl⟩ := List.mem_map.1 hmem
    obtain ⟨l, -, hpiece⟩ := List.mem_flatMap.1 hpiece
    rw [decide_eq_true_eq] at hkeep
    exact ⟨hkeep.1, trim_trim piece, not_mem_trim (not_mem_of_mem_splitOn hpiece), hkeep.2⟩
  · intro h
    have hsplit : (ids.map KeyId.str).flatMap (fun l => l.splitOn '\n') = ids.map KeyId.str := by
      rw [List.flatMap_map, ← List.flatMap_pure_eq_map]
      exact List.flatMap_congr fun id hid => List.splitOn_eq_singleton (h id hid).line
    have hread : readIds ids = ids.map KeyId.str := by
      have htrim : (ids.map KeyId.str).map trim = ids.map KeyId.str := by
        rw [List.map_map]
        exact List.map_congr_left fun id hid => (h id hid).trimmed
      rw [readIds, hsplit, htrim, List.filter_eq_self]
      intro l hl
      obtain ⟨id, hid, rfl⟩ := List.mem_map.1 hl
      rw [decide_eq_true_eq]
      exact ⟨(h id hid).ne_nil, (h id hid).no_comment⟩
    have hnil : ids.map KeyId.str ≠ [] := by simpa using hne
    rw [hread, if_neg hnil, List.map_map]
    exact congrArg _ (List.map_id ids)

/-! ## Initialising -/

section Init

variable {W CE VE : Type} {store : Store W CE SE VE} {files : W → Files}

/-- **What `init` leaves alone**, however it ends. -/
theorem init_frame (h : OnMap store files) {vcsInit : Prog (Event CE SE VE) W VE Unit}
    (hvcs : ∀ s, vcsInit.wp (fun _ _ t => files t = files s) s) (recipients : List KeyId) (s : W) :
    (store.init vcsInit recipients).wp (fun _ _ t =>
      ∀ q, q ≠ gpgIdPath → q ≠ gitattributesPath → files t q = files s q) s := by
  unfold Store.init
  split_ifs with hnil
  · exact fun _ _ _ => rfl
  refine Prog.wp_bind.2 (Prog.wp_mono
    (change_spec h (.write gpgIdPath (gpgIdBody recipients)) s) ?_)
  rintro r _ u ⟨call, rfl, rfl, rfl, hframe, -, -⟩
  cases r with
  | error e => exact fun q hq _ => hframe q hq
  | ok _ =>
    refine Prog.wp_bind.2 (Prog.wp_mono (installGitattributes_frame h call.after) ?_)
    intro r _ t ht
    have hframe' : ∀ q, q ≠ gpgIdPath → q ≠ gitattributesPath →
        files t q = files call.before q := fun q hq hq' => (ht q hq').trans (hframe q hq)
    cases r with
    | error e => exact hframe'
    | ok attrsChanged =>
      refine Prog.wp_bind.2 (Prog.wp_mapErr.2 (Prog.wp_mono (hvcs t) fun r _ t' ht' => ?_))
      rw [← ht'] at hframe'
      cases r with
      | error e => exact hframe'
      | ok _ =>
        refine Prog.wp_mapErr.2 (Prog.wp_call.2 fun q hq hq' => ?_)
        rw [h.commit_files]
        exact hframe' q hq hq'

/-- After an `init` of a fresh store, what its recipients file parses to is in force everywhere. -/
theorem init_recipientsFor (h : OnMap store files) {vcsInit : Prog (Event CE SE VE) W VE Unit}
    (hvcs : ∀ s, vcsInit.wp (fun _ _ t => files t = files s) s) {recipients : List KeyId} {s t : W}
    (hfresh : ∀ q, files s q = none)
    (hrun : (store.init vcsInit recipients).run s = (.ok (), t)) (entry : RelPath) :
    (recipientsFor (files t) entry : Except (GpgIdError SE) _) =
      parseGpgId (gpgIdBody recipients) := by
  have hframe := init_frame h hvcs recipients s
  have hroot := (init_wrote h hvcs recipients s).2
  unfold Prog.wp at hframe
  rw [hrun] at hframe hroot
  have hfrom : FromRoot (files t) entry := fun d _ => by
    rw [hframe _ (gpgIdIn_some_ne_gpgIdPath d) (gpgIdIn_ne_gitattributesPath (some d)), hfresh]
  rw [hfrom.recipientsFor, hroot rfl]
  rfl

/-- **When `init` and `resolve_recipients` agree.** After an `init` of a fresh store that succeeded,
the recipients in force for every entry are just those that it was given, in order, exactly when
each of them is a line of its own: not blank, trimmed, without a newline, and no comment. And what
is resolved afterwards is what is in force, unless a read fails. -/
theorem init_resolves_iff (h : OnMap store files) {vcsInit : Prog (Event CE SE VE) W VE Unit}
    (hvcs : ∀ s, vcsInit.wp (fun _ _ t => files t = files s) s) {recipients : List KeyId} {s t : W}
    (hfresh : ∀ q, files s q = none)
    (hrun : (store.init vcsInit recipients).run s = (.ok (), t)) :
    ((∀ entry, Resolves SE (files t) entry recipients) ↔ ∀ id ∈ recipients, id.ReadsBack) ∧
      ∀ entry r u, (resolveRecipients store.storage entry :
        Prog (Event CE SE VE) W _ _).run t = (r, u) →
          ReadFailed r ∨ r = recipientsFor (files t) entry := by
  have hne : recipients ≠ [] := by
    rintro rfl
    cases hrun
  have hfor := init_recipientsFor h hvcs hfresh hrun
  refine ⟨⟨fun hall => ?_, fun hread entry => ?_⟩, fun entry r u hres => ?_⟩
  · exact (parseGpgId_gpgIdBody hne).1 ((hfor gpgIdPath).symm.trans (hall gpgIdPath))
  · exact (hfor entry).trans ((parseGpgId_gpgIdBody hne).2 hread)
  · have hwalk := @resolveFrom_outcome W CE SE VE _ _ h.keepsFiles entry.parent t
    unfold Prog.wp at hwalk
    rw [resolveRecipients] at hres
    rw [hres] at hwalk
    rcases hwalk.2 with ⟨e, -, -, he, -⟩ | hr
    · exact Or.inl ⟨e, he⟩
    · exact Or.inr hr

end Init

/-- `NoVcs` initialises nothing. -/
theorem noVcs_init (s : MemFiles) :
    (pure () : Prog (Event TaggedError Empty Empty) MemFiles Empty Unit).wp
      (fun _ _ t => memFiles t = memFiles s) s := rfl

theorem memFiles_empty (q : RelPath) : memFiles ∅ q = none := by simp [memFiles]

theorem init_resolves_iff_alice :
    (∀ entry, Resolves Empty
      (memFiles ((memStore.init (pure ()) [⟨"ALICE".toList⟩]).run ∅).2) entry
        [⟨"ALICE".toList⟩]) ↔ ∀ id ∈ [KeyId.mk "ALICE".toList], id.ReadsBack :=
  (init_resolves_iff memStore_onMap noVcs_init memFiles_empty
    (t := ((memStore.init (pure ()) [⟨"ALICE".toList⟩]).run ∅).2) rfl).1

/-- **A recipient can get lost** between `init` and `resolve_recipients`: `#x` is read as a
comment. -/
theorem recipient_can_get_lost :
    ¬ ∀ (recipients : List KeyId) (t : MemFiles),
      (memStore.init (pure ()) recipients).run ∅ = (.ok (), t) →
        ∀ entry, Resolves Empty (memFiles t) entry recipients := by
  intro h
  have hrun : (memStore.init (pure ()) [⟨"#x".toList⟩]).run ∅ =
      (.ok (), ((memStore.init (pure ()) [⟨"#x".toList⟩]).run ∅).2) := rfl
  have hres := h _ _ hrun gpgIdPath
  rw [Resolves, init_recipientsFor memStore_onMap noVcs_init memFiles_empty hrun] at hres
  revert hres
  decide +kernel

end Bypass
