import Bypass.Foundations.CreateDirs

/-!
# Replacing a file

The content of a file is written to a new file beside it, which is then moved over it. Wherever that
stops, the file is as it was or has all of the new content.

* `Replacing`: the trees on the way.
* `replaceFile_along`: **these are all**, and how it ends.
-/

namespace Bypass

variable {N : Type} [Ord N] [Std.TransOrd N] [Std.LawfulEqOrd N] [DecidableEq N]

/-! ## The program -/

section Program

variable (os : Os)

/-- `write_all`: the system may stop after any byte. -/
def appendAll (file : List N) : Bytes → FsM N Errno Unit
  | [] => pure ()
  | b :: data => do
    writeTo os file (· ++ [b])
    appendAll file data

/-- Write to a new file and sync it, and move it over the old one. An error names the path that it
is about. -/
def replaceFile (tmp path : List N) (data : Bytes) : FsM N (List N × Errno) Unit := do
  let file ← (createNew os tmp).mapErr fun e => (tmp, e)
  match ← (do appendAll os file data; syncAll os file : FsM N Errno Unit).attempt with
  | .error e =>
    (unlink os tmp).ignore
    throw (tmp, e)
  | .ok () =>
    match ← (rename os tmp path).attempt with
    | .error e =>
      (unlink os tmp).ignore
      throw (path, e)
    | .ok () => pure ()

end Program

/-! ## The trees on the way -/

/-- The trees from which `data` may be found half-way into `y` by way of `x`. -/
inductive Replacing (x y : List N) (data : Bytes) (t : FileTree N Bytes) : FileTree N Bytes → Prop
  | before : Replacing x y data t t
  | part (hnone : t.get x = none) (pre : Bytes) (hpre : pre <+: data) :
    Replacing x y data t (t.set x (.file pre))
  | after (hnone : t.get x = none) (hdir : t.get y ≠ some .dir) :
    Replacing x y data t (t.set y (.file data))

/-- How the replacement ends: in success, if no call fails, nothing is at `x`, and at `y` is no
directory. -/
structure Replaced (os : Os) (x y : List N) (data : Bytes) (t : FileTree N Bytes)
    (r : Except (List N × Errno) Unit) (t' : FileTree N Bytes) : Prop where
  way : Replacing x y data t t'
  ok : r = .ok () → t.get x = none ∧ t.get y ≠ some .dir ∧ t' = t.set y (.file data)
  error : os.Quiet → r ≠ .ok () → t' = t
  success : os.Quiet → t.get x = none → t.get y ≠ some .dir → r = .ok ()

/-! ## Its steps -/

section Steps

variable {os : Os} {x y dir : List N} {n leaf : N} {data : Bytes} {t : FileTree N Bytes} {d : Disk N}

/-- The new file is made where nothing is. -/
theorem createTmp_along (hdir : d.tree.get dir = some .dir) :
    Along (fun places t' => (∀ z ∈ places, z = dir ++ [n]) ∧ Replacing (dir ++ [n]) y data d.tree t')
      (fun r t' => r = .ok (dir ++ [n]) ∧ d.tree.get (dir ++ [n]) = none ∧
          t' = d.tree.set (dir ++ [n]) (.file []) ∨
        (∃ e, r = .error e) ∧ t' = d.tree ∧ (os.Quiet → d.tree.get (dir ++ [n]) ≠ none))
      (createNew os (dir ++ [n])) d := by
  have hmake : d.tree.make (dir ++ [n]) (.file []) = _ := FileTree.make_of_dir _ hdir
  have hreach : ∀ z ∈ d.tree.reachEntry (dir ++ [n]), z = dir ++ [n] := by
    rw [FileTree.reachEntry, FileTree.entryPlace_of_dir hdir]
    exact fun z => List.mem_singleton.1
  by_cases hsome : (d.tree.get (dir ++ [n])).isSome
  · rw [if_pos hsome] at hmake
    refine Along.mono (along_sys ⟨by simp, .before⟩ ⟨hreach, by rw [hmake]; exact .before⟩)
      (fun _ _ h => h) ?_
    rintro r t (⟨rfl, rfl⟩ | ⟨hloud, ⟨e, rfl⟩, rfl⟩)
    · dsimp only
      rw [hmake]
      exact Or.inr ⟨⟨_, rfl⟩, rfl, fun _ => Option.isSome_iff_ne_none.1 hsome⟩
    · exact Or.inr ⟨⟨_, rfl⟩, rfl, fun hquiet => absurd hquiet hloud⟩
  · rw [if_neg hsome] at hmake
    have hnone := Option.not_isSome_iff_eq_none.1 hsome
    refine Along.mono (along_sys ⟨by simp, .before⟩
      ⟨hreach, by rw [hmake]; exact .part hnone [] List.nil_prefix⟩) (fun _ _ h => h) ?_
    rintro r t (⟨rfl, rfl⟩ | ⟨hloud, ⟨e, rfl⟩, rfl⟩)
    · dsimp only
      rw [hmake]
      exact Or.inl ⟨rfl, hnone, rfl⟩
    · exact Or.inr ⟨⟨_, rfl⟩, rfl, fun hquiet => absurd hquiet hloud⟩

/-- The rest of the data, after some of it. -/
theorem appendAll_along (hx : t.CanSet x (.file [])) (hnone : t.get x = none) {pre rest : Bytes}
    (hdata : pre ++ rest = data) (htree : d.tree = t.set x (.file pre)) :
    Along (fun places t' => (∀ z ∈ places, z = x) ∧ Replacing x y data t t')
      (fun r t' => (∃ pre', pre' <+: data ∧ t' = t.set x (.file pre')) ∧
        (r = .ok () → t' = t.set x (.file data)) ∧ (os.Quiet → r = .ok ()))
      (appendAll os x rest) d := by
  have hcan (c : Bytes) : t.CanSet x (.file c) := .of_none hx.1 hx.2.1 hnone
  induction rest generalizing pre d with
  | nil =>
    rw [List.append_nil] at hdata
    subst hdata
    exact along_pure ⟨⟨pre, List.prefix_refl _, htree⟩, fun _ => htree, fun _ => rfl⟩
  | cons b rest ih =>
    have hpre : pre <+: data := ⟨b :: rest, hdata⟩
    have hpre' : pre ++ [b] <+: data := ⟨rest, by rw [← hdata]; simp⟩
    have hmodify : d.tree.modify x (· ++ [b]) = t.set x (.file (pre ++ [b])) := by
      rw [htree, FileTree.modify_set hcan]
    refine along_bind (along_sys ⟨nofun, htree ▸ .part hnone pre hpre⟩
      ⟨fun z => List.mem_singleton.1, hmodify ▸ .part hnone _ hpre'⟩) ?_ ?_
    · rintro u d' (⟨-, htree'⟩ | ⟨-, ⟨e, he⟩, -⟩)
      · exact ih (by rw [← hdata]; simp) (htree'.trans hmodify)
      · cases he
    · rintro e t' (⟨hr, -⟩ | ⟨hloud, -, rfl⟩)
      · cases hr
      · exact ⟨⟨pre, hpre, htree⟩, nofun, fun hquiet => absurd hquiet hloud⟩

/-- All of the data is written to the new file, which is then synced. -/
theorem writeTmp_along (hx : t.CanSet x (.file [])) (hnone : t.get x = none)
    (htree : d.tree = t.set x (.file [])) :
    Along (fun places t' => (∀ z ∈ places, z = x) ∧ Replacing x y data t t')
      (fun r t' => (∃ pre, pre <+: data ∧ t' = t.set x (.file pre)) ∧
        (r = .ok () → t' = t.set x (.file data)) ∧ (os.Quiet → r = .ok ()))
      (do appendAll os x data; syncAll os x) d := by
  refine along_bind (appendAll_along hx hnone (List.nil_append data) htree) ?_ ?_
  · rintro u d' ⟨-, hall, -⟩
    have htree' := hall rfl
    have hpart := htree' ▸ Replacing.part (y := y) hnone data (List.prefix_refl data)
    refine Along.mono (along_sys ⟨nofun, hpart⟩ ⟨fun z => List.mem_singleton.1, hpart⟩)
      (fun _ _ h => h) ?_
    rintro r t' (⟨rfl, rfl⟩ | ⟨hloud, ⟨e, rfl⟩, rfl⟩)
    · exact ⟨⟨data, List.prefix_refl _, htree'⟩, fun _ => htree', fun _ => rfl⟩
    · exact ⟨⟨data, List.prefix_refl _, htree'⟩, nofun, fun hquiet => absurd hquiet hloud⟩
  · rintro e t' ⟨hpre, -, hquiet⟩
    exact ⟨hpre, nofun, fun hq => nomatch hquiet hq⟩

/-- The new file is taken away again after an error. -/
theorem removeTmp_along {e : List N × Errno} (hdir : t.get dir = some .dir)
    (hnone : t.get (dir ++ [n]) = none) {pre : Bytes} (hpre : pre <+: data)
    (htree : d.tree = t.set (dir ++ [n]) (.file pre)) :
    Along (fun places t' => (∀ z ∈ places, z = dir ++ [n]) ∧ Replacing (dir ++ [n]) y data t t')
      (fun r t' => r = .error e ∧ Replacing (dir ++ [n]) y data t t' ∧ (os.Quiet → t' = t))
      (do (unlink os (dir ++ [n])).ignore; throw e : FsM N (List N × Errno) Unit) d := by
  have hcan : t.CanSet (dir ++ [n]) (.file pre) :=
    .of_none (by simp) (by rwa [List.dropLast_concat]) hnone
  have hdir' : d.tree.get dir = some .dir := by
    rw [htree, FileTree.get_set hcan, if_neg (by simp), hdir]
  have hfile : d.tree.get (dir ++ [n]) = some (.file pre) := by
    rw [htree, FileTree.get_set hcan, if_pos rfl]
  have hremove : d.tree.removeFile (dir ++ [n]) = (.ok (), t) := by
    rw [FileTree.removeFile_of_dir hdir' hfile (by simp), htree, FileTree.unset_set hcan (by simp) hnone]
  have hreach : ∀ z ∈ d.tree.reachEntry (dir ++ [n]), z = dir ++ [n] := by
    rw [FileTree.reachEntry, FileTree.entryPlace_of_dir hdir']
    exact fun z => List.mem_singleton.1
  refine along_bind (R := fun r t' => r = .ok () ∧ Replacing (dir ++ [n]) y data t t' ∧
    (os.Quiet → t' = t)) (along_ignore (along_sys ⟨by simp, htree ▸ .part hnone pre hpre⟩
      ⟨hreach, by rw [hremove]; exact .before⟩) ?_) ?_ ?_
  · rintro r t' (⟨-, rfl⟩ | ⟨hloud, -, rfl⟩)
    · dsimp only
      rw [hremove]
      exact ⟨rfl, .before, fun _ => rfl⟩
    · exact ⟨rfl, htree ▸ .part hnone pre hpre, fun hquiet => absurd hquiet hloud⟩
  · rintro u d' ⟨-, hway, hquiet⟩
    exact along_throw ⟨rfl, hway, hquiet⟩
  · rintro e' t' ⟨hr, -⟩
    cases hr

/-- The new file is moved over the old one. -/
theorem rename_along (hdir : t.get dir = some .dir) (hne : n ≠ leaf)
    (hnone : t.get (dir ++ [n]) = none)
    (htree : d.tree = t.set (dir ++ [n]) (.file data)) :
    Along (fun places t' => (∀ z ∈ places, z = dir ++ [n] ∨ z = dir ++ [leaf]) ∧
        Replacing (dir ++ [n]) (dir ++ [leaf]) data t t')
      (fun r t' => (r = .ok () → t.get (dir ++ [leaf]) ≠ some .dir ∧
          t' = t.set (dir ++ [leaf]) (.file data)) ∧
        (r ≠ .ok () → t' = t.set (dir ++ [n]) (.file data)) ∧
        (os.Quiet → t.get (dir ++ [leaf]) ≠ some .dir → r = .ok ()))
      (rename os (dir ++ [n]) (dir ++ [leaf])) d := by
  have hcan : t.CanSet (dir ++ [n]) (.file data) :=
    .of_none (by simp) (by rwa [List.dropLast_concat]) hnone
  have hplaces : dir ++ [leaf] ≠ dir ++ [n] := fun h => hne (by simpa using h.symm)
  have hdir' : d.tree.get dir = some .dir := by
    rw [htree, FileTree.get_set hcan, if_neg (by simp), hdir]
  have hfile : d.tree.get (dir ++ [n]) = some (.file data) := by
    rw [htree, FileTree.get_set hcan, if_pos rfl]
  have hleaf : d.tree.get (dir ++ [leaf]) = t.get (dir ++ [leaf]) := by
    rw [htree, FileTree.get_set hcan, if_neg hplaces]
  have hrename := FileTree.renameFile_of_dir hdir' hfile (by simp) hne
  rw [hleaf, htree, FileTree.unset_set hcan (by simp) hnone] at hrename
  have hreach : ∀ z ∈ d.tree.reachEntry (dir ++ [n]) ++ d.tree.reachEntry (dir ++ [leaf]),
      z = dir ++ [n] ∨ z = dir ++ [leaf] := by
    rw [FileTree.reachEntry, FileTree.reachEntry, FileTree.entryPlace_of_dir hdir',
      FileTree.entryPlace_of_dir hdir']
    exact fun z hz => by simpa [Except.toOption] using hz
  have hpart := htree ▸ Replacing.part (y := dir ++ [leaf]) hnone data (List.prefix_refl data)
  by_cases hold : t.get (dir ++ [leaf]) = some .dir
  · rw [if_pos hold, ← htree] at hrename
    refine Along.mono (along_sys ⟨by simp, hpart⟩ ⟨hreach, by rwa [hrename]⟩) (fun _ _ h => h) ?_
    rintro r t' (⟨rfl, rfl⟩ | ⟨hloud, ⟨e, rfl⟩, rfl⟩)
    · dsimp only
      rw [hrename]
      exact ⟨by simp, fun _ => htree, fun _ h => absurd hold h⟩
    · exact ⟨by simp, fun _ => htree, fun hquiet => absurd hquiet hloud⟩
  · rw [if_neg hold, ← htree] at hrename
    refine Along.mono (along_sys ⟨by simp, hpart⟩ ⟨hreach, by rw [hrename]; exact .after hnone hold⟩)
      (fun _ _ h => h) ?_
    rintro r t' (⟨rfl, rfl⟩ | ⟨hloud, ⟨e, rfl⟩, rfl⟩)
    · dsimp only
      rw [hrename]
      exact ⟨fun _ => ⟨hold, rfl⟩, fun h => absurd rfl h, fun _ _ => rfl⟩
    · exact ⟨by simp, fun _ => htree, fun hquiet => absurd hquiet hloud⟩

end Steps

/-! ## The whole -/

/-- **Wherever the replacement stops**, the file is as it was or has all of the new content, and
besides there is at most the new file. -/
theorem replaceFile_along {os : Os} {dir : List N} {n leaf : N} {data : Bytes} {d : Disk N}
    (hdir : d.tree.get dir = some .dir) (hne : n ≠ leaf) :
    Along (fun places t => (∀ z ∈ places, z = dir ++ [n] ∨ z = dir ++ [leaf]) ∧
        Replacing (dir ++ [n]) (dir ++ [leaf]) data d.tree t)
      (Replaced os (dir ++ [n]) (dir ++ [leaf]) data d.tree)
      (replaceFile os (dir ++ [n]) (dir ++ [leaf]) data) d := by
  have hfirst {places : List (List N)} {t : FileTree N Bytes}
      (h : (∀ z ∈ places, z = dir ++ [n]) ∧
        Replacing (dir ++ [n]) (dir ++ [leaf]) data d.tree t) :
      (∀ z ∈ places, z = dir ++ [n] ∨ z = dir ++ [leaf]) ∧
        Replacing (dir ++ [n]) (dir ++ [leaf]) data d.tree t :=
    ⟨fun z hz => Or.inl (h.1 z hz), h.2⟩
  refine along_bind (R := fun r t => r = .ok (dir ++ [n]) ∧ d.tree.get (dir ++ [n]) = none ∧
      t = d.tree.set (dir ++ [n]) (.file []) ∨
    (∃ e, r = .error e) ∧ t = d.tree ∧ (os.Quiet → d.tree.get (dir ++ [n]) ≠ none))
    (along_mapErr ((createTmp_along (y := dir ++ [leaf]) hdir).mono (fun _ _ => hfirst) ?_)) ?_ ?_
  · rintro r t (⟨rfl, hmade⟩ | ⟨⟨e, rfl⟩, hnot⟩)
    · exact Or.inl ⟨rfl, hmade⟩
    · exact Or.inr ⟨⟨_, rfl⟩, hnot⟩
  · rintro file d₁ (⟨hfile, hnone, htree₁⟩ | ⟨⟨e, he⟩, -⟩)
    · obtain rfl := Except.ok.inj hfile
      have hcan : d.tree.CanSet (dir ++ [n]) (.file []) :=
        .of_none (by simp) (by rwa [List.dropLast_concat]) hnone
      refine along_try ((writeTmp_along (y := dir ++ [leaf]) hcan hnone htree₁).mono
        (fun _ _ => hfirst) fun _ _ hR => hR) ?_
      rintro r d₂ ⟨⟨pre, hpre, htree₂⟩, hall, hquiet₂⟩
      cases r with
      | error e =>
        refine (removeTmp_along (y := dir ++ [leaf]) hdir hnone hpre htree₂).mono
          (fun _ _ => hfirst) ?_
        rintro r t ⟨rfl, hway, hsame⟩
        exact ⟨hway, nofun, fun hq _ => hsame hq, fun hq => nomatch hquiet₂ hq⟩
      | ok u =>
        refine along_try (rename_along hdir hne hnone (hall rfl)) ?_
        rintro r d₃ ⟨hmoved, hnot, hquiet₃⟩
        cases r with
        | error e =>
          refine (removeTmp_along (y := dir ++ [leaf]) hdir hnone (List.prefix_refl data)
            (hnot nofun)).mono (fun _ _ => hfirst) ?_
          rintro r t ⟨rfl, hway, hsame⟩
          exact ⟨hway, nofun, fun hq _ => hsame hq, fun hq _ hold => nomatch hquiet₃ hq hold⟩
        | ok u =>
          obtain ⟨hold, htree₃⟩ := hmoved rfl
          refine along_pure ⟨?_, fun _ => ⟨hnone, hold, htree₃⟩, fun _ h => absurd rfl h,
            fun _ _ _ => rfl⟩
          rw [htree₃]
          exact .after hnone hold
    · cases he
  · rintro e t (⟨hr, -⟩ | ⟨-, rfl, htaken⟩)
    · cases hr
    · exact ⟨.before, nofun, fun _ _ => rfl, fun hq hnone => absurd hnone (htaken hq)⟩

/-! ## With its directory -/

section Save

/-- Replace a file in a directory, which is made if it is missing. -/
def saveFile (os : Os) (parent : List N) (tmp leaf : N) (data : Bytes) :
    FsM N (List N × Errno) Unit := do
  (createDirAll os parent).mapErr fun e => (parent, e)
  replaceFile os (parent ++ [tmp]) (parent ++ [leaf]) data

variable {os : Os} {base l parent : List N} {tmp leaf : N} {data : Bytes} {t t' : FileTree N Bytes}
  {d : Disk N}

omit [Std.LawfulEqOrd N] [DecidableEq N] in
theorem DirsAdded.from_root (h : DirsAdded base l t t') : DirsAdded [] (base ++ l) t t' := by
  intro y
  refine (h y).imp_right fun ⟨hnone, hdir, l', hl', hy⟩ => ⟨hnone, hdir, base ++ l', ?_, hy⟩
  exact (List.prefix_append_right_inj base).2 hl'

omit [Std.LawfulEqOrd N] [DecidableEq N] in
/-- Beside the way nothing has changed. -/
theorem DirsAdded.get_entry (h : DirsAdded [] parent t t') (n : N) :
    t'.get (parent ++ [n]) = t.get (parent ++ [n]) := by
  rcases h (parent ++ [n]) with hsame | ⟨-, -, l', hl', hy⟩
  · exact hsame
  · rw [List.nil_append] at hy
    have hlen := hl'.length_le
    rw [← hy, List.length_append, List.length_singleton] at hlen
    omega

/-- The trees on the way: directories are added, and then the file is replaced. -/
inductive Saving (parent : List N) (tmp leaf : N) (data : Bytes) (t : FileTree N Bytes) :
    FileTree N Bytes → Prop
  | dirs {t' : FileTree N Bytes} (h : DirsAdded [] parent t t') : Saving parent tmp leaf data t t'
  | file {t' t'' : FileTree N Bytes} (h : DirsAdded [] parent t t')
    (hdir : t'.get parent = some .dir)
    (hway : Replacing (parent ++ [tmp]) (parent ++ [leaf]) data t' t'') :
    Saving parent tmp leaf data t t''

/-- The file can be saved: no file is on the way, nothing at the new name, and no directory at the
old one. -/
structure CanSave (parent : List N) (tmp leaf : N) (t : FileTree N Bytes) : Prop where
  noFile : ∀ l, l <+: parent → ∀ c, t.get l ≠ some (.file c)
  tmp_none : t.get (parent ++ [tmp]) = none
  leaf_noDir : t.get (parent ++ [leaf]) ≠ some .dir

omit [Std.LawfulEqOrd N] [DecidableEq N] in
/-- What could be saved once the directory was there. -/
theorem CanSave.of_added (h : DirsAdded [] parent t t') (hdir : t'.get parent = some .dir)
    (hnone : t'.get (parent ++ [tmp]) = none) (hold : t'.get (parent ++ [leaf]) ≠ some .dir) :
    CanSave parent tmp leaf t := by
  refine ⟨fun l' hl' c hfile => ?_, by rw [← h.get_entry, hnone], by rwa [← h.get_entry]⟩
  -- a file on the way would still be one
  exact FileTree.noFile_of_dir hdir hl' c (h.get_some hfile)

/-- **What is at a place while a file is saved**: what was there, or a directory on the way, or part
of the data at the new name, or all of it at the old one. -/
theorem Saving.get (h : Saving parent tmp leaf data t t') (y : List N) :
    t'.get y = t.get y ∨ t.get y = none ∧ t'.get y = some .dir ∧ y <+: parent ∨
      (y = parent ++ [tmp] ∧ (∀ l, l <+: parent → ∀ c, t.get l ≠ some (.file c)) ∧
        t.get y = none ∧ ∃ pre, t'.get y = some (.file pre)) ∨
      y = parent ++ [leaf] ∧ t'.get y = some (.file data) ∧ CanSave parent tmp leaf t := by
  have hdirs {u : FileTree N Bytes} (hadded : DirsAdded [] parent t u) :
      u.get y = t.get y ∨ t.get y = none ∧ u.get y = some .dir ∧ y <+: parent := by
    refine (hadded y).imp_right fun ⟨hnone, hdir, l', hl', hy⟩ => ⟨hnone, hdir, ?_⟩
    rwa [hy, List.nil_append]
  cases h with
  | dirs hadded => exact (hdirs hadded).imp_right Or.inl
  | @file u _ hadded hdir hway =>
    have hparent (n : N) : (parent ++ [n]).dropLast = parent := List.dropLast_concat
    cases hway with
    | before => exact (hdirs hadded).imp_right Or.inl
    | part hnone pre hpre =>
      have hcan : u.CanSet (parent ++ [tmp]) (.file pre) :=
        .of_none (by simp) (by rwa [hparent]) hnone
      rw [FileTree.get_set hcan]
      split_ifs with hy
      · refine Or.inr (Or.inr (Or.inl ⟨hy, fun l hl c hfile => ?_, ?_, pre, rfl⟩))
        · exact FileTree.noFile_of_dir hdir hl c (hadded.get_some hfile)
        · rw [hy, ← hadded.get_entry, hnone]
      · exact (hdirs hadded).imp_right Or.inl
    | after hnone hold =>
      have hcan : u.CanSet (parent ++ [leaf]) (.file data) :=
        ⟨by simp, by rwa [hparent], fun h => absurd h hold⟩
      rw [FileTree.get_set hcan]
      split_ifs with hy
      · exact Or.inr (Or.inr (Or.inr ⟨hy, rfl, .of_added hadded hdir hnone hold⟩))
      · exact (hdirs hadded).imp_right Or.inl

/-- The other files are as they were, but where the new file can be made. -/
theorem Saving.file_iff (h : Saving parent tmp leaf data t t') {y : List N}
    (hy : y ≠ parent ++ [leaf])
    (htmp : y = parent ++ [tmp] →
      (∃ l, l <+: parent ∧ ∃ c, t.get l = some (.file c)) ∨ t.get (parent ++ [tmp]) ≠ none) :
    (∃ c, t'.get y = some (.file c)) ↔ ∃ c, t.get y = some (.file c) := by
  rcases h.get y with hsame | ⟨hnone, hdir, -⟩ | ⟨rfl, hfiles, hnone, -⟩ | ⟨hleaf, -⟩
  · rw [hsame]
  · rw [hnone, hdir]
    constructor
    · rintro ⟨c, hc⟩
      cases hc
    · rintro ⟨c, hc⟩
      cases hc
  · rcases htmp rfl with ⟨l, hl, c, hfile⟩ | hsome
    · exact absurd hfile (hfiles l hl c)
    · exact absurd hnone hsome
  · exact absurd hleaf hy

/-- The file itself is the old one or the new one. -/
theorem Saving.get_leaf (h : Saving parent tmp leaf data t t') (hne : tmp ≠ leaf) :
    t'.get (parent ++ [leaf]) = t.get (parent ++ [leaf]) ∨
      t'.get (parent ++ [leaf]) = some (.file data) ∧ CanSave parent tmp leaf t := by
  rcases h.get (parent ++ [leaf]) with hsame | ⟨-, -, hpre⟩ | ⟨htmp, -⟩ | ⟨-, hdata, hcan⟩
  · exact Or.inl hsame
  · have hlen := hpre.length_le
    rw [List.length_append, List.length_singleton] at hlen
    omega
  · rw [List.append_cancel_left_eq, List.singleton_inj] at htmp
    exact absurd htmp.symm hne
  · exact Or.inr ⟨hdata, hcan⟩

/-- No link is added. -/
theorem Saving.noLink (h : Saving parent tmp leaf data t t') {x l : List N} (hlink : t.NoLink x l) :
    t'.NoLink x l := by
  intro l' hl' target htarget
  rcases h.get (x ++ l') with hsame | ⟨-, hdir, -⟩ | ⟨-, -, -, pre, hpre⟩ | ⟨-, hdata, -⟩
  · exact hlink l' hl' target (hsame ▸ htarget)
  · rw [hdir] at htarget
    cases htarget
  · rw [hpre] at htarget
    cases htarget
  · rw [hdata] at htarget
    cases htarget

theorem Saving.linkless (h : Saving parent tmp leaf data t t') (hlinkless : t.Linkless) :
    t'.Linkless := fun x target => by
  have hno := h.noLink (hlinkless.noLink [] x) x (List.prefix_refl x) target
  rwa [List.nil_append] at hno

/-- The way to the file stays clear. -/
theorem Saving.clear (h : Saving parent tmp leaf data t t') (hclear : t.Clear (parent ++ [leaf])) :
    t'.Clear (parent ++ [leaf]) := by
  refine ⟨h.noLink hclear.noLink, fun l hl hne c hfile => ?_⟩
  have hlen : l.length < (parent ++ [leaf]).length :=
    lt_of_le_of_ne hl.length_le fun heq => hne (hl.eq_of_length heq)
  rcases h.get l with hsame | ⟨-, hdir, -⟩ | ⟨rfl, -⟩ | ⟨rfl, -⟩
  · exact hclear.noFile l hl hne c (hsame ▸ hfile)
  · rw [hdir] at hfile
    cases hfile
  · rw [List.length_append, List.length_append, List.length_singleton, List.length_singleton] at hlen
    omega
  · exact absurd rfl hne

/-- How saving ends: in success, if no call fails and the file can be saved. -/
structure Saved (os : Os) (parent : List N) (tmp leaf : N) (data : Bytes) (t : FileTree N Bytes)
    (r : Except (List N × Errno) Unit) (t' : FileTree N Bytes) : Prop where
  way : Saving parent tmp leaf data t t'
  ok : r = .ok () → CanSave parent tmp leaf t ∧ t'.get (parent ++ [leaf]) = some (.file data) ∧
    t'.get (parent ++ [tmp]) = none
  error : os.Quiet → r ≠ .ok () → DirsAdded [] parent t t'
  success : os.Quiet → CanSave parent tmp leaf t → r = .ok ()

/-- Without faults, nothing is left at the new name. -/
theorem Saved.tmp_none {r : Except (List N × Errno) Unit} (h : Saved os parent tmp leaf data t r t')
    (hquiet : os.Quiet) (hnone : t.get (parent ++ [tmp]) = none) : t'.get (parent ++ [tmp]) = none := by
  by_cases hok : r = .ok ()
  · exact (h.ok hok).2.2
  · rw [(h.error hquiet hok).get_entry, hnone]

/-- **Wherever saving stops**, the file is as it was or has all of the new content. Besides there
are at most more directories, and the new file. -/
theorem saveFile_along (hbase : d.tree.get base = some .dir) (hparent : base ++ l = parent)
    (hlink : d.tree.NoLink base l) (hne : tmp ≠ leaf) :
    Along (fun places t => (∀ y ∈ places, base <+: y) ∧ Saving parent tmp leaf data d.tree t)
      (Saved os parent tmp leaf data d.tree) (saveFile os parent tmp leaf data) d := by
  subst hparent
  have hplaces (m : List N) : base <+: base ++ m := List.prefix_append _ _
  refine along_bind (R := fun r t => DirsAdded [] (base ++ l) d.tree t ∧
    (r = .ok () → t.get (base ++ l) = some .dir) ∧
    (os.Quiet → (∀ l', l' <+: base ++ l → ∀ c, d.tree.get l' ≠ some (.file c)) → r = .ok ()))
    (along_mapErr ((createDirAll_along os hbase hlink).mono ?_ ?_)) ?_ ?_
  · rintro places t ⟨hway, hadded⟩
    refine ⟨fun y hy => ?_, .dirs hadded.from_root⟩
    obtain ⟨l', -, rfl⟩ := hway y hy
    exact hplaces l'
  · rintro r t ⟨hadded, hdir, hquiet⟩
    refine ⟨hadded.from_root, fun hok => hdir ?_, fun hq hfiles => ?_⟩
    · cases r with
      | ok u => rfl
      | error e => cases hok
    · rw [hquiet hq fun l' hl' => hfiles _ ((List.prefix_append_right_inj base).2 hl')]
      rfl
  · rintro u d' ⟨hadded, hdir, -⟩
    refine (replaceFile_along (hdir rfl) hne).mono ?_ ?_
    · rintro places t ⟨hreached, hway⟩
      refine ⟨fun y hy => ?_, .file hadded (hdir rfl) hway⟩
      rcases hreached y hy with rfl | rfl
      · exact (hplaces l).trans (List.prefix_append _ _)
      · exact (hplaces l).trans (List.prefix_append _ _)
    · rintro r t ⟨hway, hok, herror, hsuccess⟩
      refine ⟨.file hadded (hdir rfl) hway, fun hr => ?_, fun hq hr => herror hq hr ▸ hadded,
        fun hq hcan => ?_⟩
      · obtain ⟨hnone, hold, rfl⟩ := hok hr
        have hcan : d'.tree.CanSet (base ++ l ++ [leaf]) (.file data) :=
          ⟨by simp, by rw [List.dropLast_concat]; exact hdir rfl, fun h => absurd h hold⟩
        refine ⟨.of_added hadded (hdir rfl) hnone hold, ?_, ?_⟩
        · rw [FileTree.get_set hcan, if_pos rfl]
        · rw [FileTree.get_set hcan, if_neg (by simpa using hne), hnone]
      · refine hsuccess hq ?_ ?_
        · rw [hadded.get_entry, hcan.tmp_none]
        · rw [hadded.get_entry]
          exact hcan.leaf_noDir
  · rintro e t ⟨hadded, -, hquiet⟩
    refine ⟨.dirs hadded, nofun, fun _ _ => hadded, fun hq hcan => ?_⟩
    cases hquiet hq hcan.noFile

/-- Without faults the new file is there for a while. -/
theorem saveFile_creates (hbase : d.tree.get base = some .dir) (hparent : base ++ l = parent)
    (hlink : d.tree.NoLink base l) (hquiet : os.Quiet)
    (hfiles : ∀ l, l <+: parent → ∀ c, d.tree.get l ≠ some (.file c))
    (hnone : d.tree.get (parent ++ [tmp]) = none) :
    ∃ call ∈ (saveFile os parent tmp leaf data).trace d,
      call.after.tree.get (parent ++ [tmp]) = some (.file []) := by
  subst hparent
  obtain ⟨hadded, hdir, hok⟩ := (createDirAll_along os hbase hlink).2
  have hmade := hok hquiet fun l' hl' => hfiles _ ((List.prefix_append_right_inj base).2 hl')
  obtain ⟨d', hrun⟩ : ∃ d', (createDirAll os (base ++ l)).run d = (.ok (), d') :=
    ⟨_, Prod.ext hmade rfl⟩
  simp only [hrun, forall_const] at hadded hdir
  have hnone' : d'.tree.get (base ++ l ++ [tmp]) = none := by
    rw [hadded.from_root.get_entry, hnone]
  have hcan : d'.tree.CanSet (base ++ l ++ [tmp]) (.file []) :=
    .of_none (by simp) (by rwa [List.dropLast_concat]) hnone'
  have hmake : d'.tree.make (base ++ l ++ [tmp]) (.file []) = _ := FileTree.make_of_dir _ hdir
  rw [hnone', if_neg (by simp)] at hmake
  -- the call that makes the new file
  obtain ⟨call, hcall, hafter⟩ : ∃ call ∈ (createNew os (base ++ l ++ [tmp])).trace d',
      call.after.tree.get (base ++ l ++ [tmp]) = some (.file []) := by
    refine ⟨_, List.mem_cons_self, ?_⟩
    dsimp only
    rw [hquiet, if_neg (by simp), hmake, FileTree.get_set hcan, if_pos rfl]
  refine ⟨call, ?_, hafter⟩
  refine Prog.mem_trace_bind.2 (Or.inr ⟨(), d', ?_, Prog.mem_trace_bind.2 (Or.inl ?_)⟩)
  · rw [Prog.run_mapErr, hrun]
    rfl
  · rwa [Prog.trace_mapErr]

end Save

end Bypass
