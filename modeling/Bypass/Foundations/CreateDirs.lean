import Bypass.Foundations.FileSystem

/-!
# Making directories

`fs::create_dir_all`: it tries to make a directory, and where that fails for want of a parent, makes
the parent first. Below a directory, along a way without links, it adds directories of that way and
nothing else, however it ends.

* `DirsAdded`: from one tree to another, some directories of a way have been added.
* `createDirAll_along`: **what it reaches and leaves**, and when it succeeds.
-/

namespace Bypass

variable {N ε α : Type} [Ord N] [Std.TransOrd N]

/-! ## Trees with more directories -/

/-- From `t` to `t'` some directories have been added, on the way from `x` along `l`. -/
def DirsAdded (x l : List N) (t t' : FileTree N Bytes) : Prop :=
  ∀ y, t'.get y = t.get y ∨
    t.get y = none ∧ t'.get y = some .dir ∧ ∃ l', l' <+: l ∧ y = x ++ l'

namespace DirsAdded

variable {x l l' : List N} {t t' t'' : FileTree N Bytes}

theorem refl (t : FileTree N Bytes) : DirsAdded x l t t := fun _ => Or.inl rfl

theorem trans (h : DirsAdded x l t t') (h' : DirsAdded x l t' t'') : DirsAdded x l t t'' := by
  intro y
  rcases h y with hy | ⟨hnone, hdir, hway⟩
  · rcases h' y with hy' | ⟨hnone', hdir', hway'⟩
    · exact Or.inl (hy'.trans hy)
    · exact Or.inr ⟨hy ▸ hnone', hdir', hway'⟩
  · refine Or.inr ⟨hnone, ?_, hway⟩
    rcases h' y with hy' | ⟨-, hdir', -⟩
    · rw [hy', hdir]
    · exact hdir'

theorem mono (h : DirsAdded x l t t') (hl : l <+: l') : DirsAdded x l' t t' := by
  intro y
  refine (h y).imp_right fun ⟨hnone, hdir, l₀, hl₀, hy⟩ => ?_
  exact ⟨hnone, hdir, l₀, hl₀.trans hl, hy⟩

/-- What was there is there. -/
theorem get_some (h : DirsAdded x l t t') {y : List N} {node : FileNode N Bytes}
    (hy : t.get y = some node) : t'.get y = some node := by
  rcases h y with hsame | ⟨hnone, -⟩
  · rw [hsame, hy]
  · rw [hnone] at hy
    cases hy

/-- What is there now and not a directory was there. -/
theorem get_of_get (h : DirsAdded x l t t') {y : List N} {node : FileNode N Bytes}
    (hy : t'.get y = some node) (hnode : node ≠ .dir) : t.get y = some node := by
  rcases h y with hsame | ⟨-, hdir, -⟩
  · rw [← hsame, hy]
  · rw [hdir] at hy
    exact absurd (Option.some.inj hy).symm hnode

theorem noLink (h : DirsAdded x l t t') {y m : List N} (hlink : t.NoLink y m) : t'.NoLink y m :=
  fun l' hl' target htarget => hlink l' hl' target (h.get_of_get htarget nofun)

end DirsAdded

/-! ## Looking for a directory -/

section Looking

variable {os : Os} {d : Disk N} {path : List N} {I : List (List N) → FileTree N Bytes → Prop}

/-- The question whether a directory is there. -/
theorem isDir_along {Q : Except ε Bool → FileTree N Bytes → Prop} (hnone : I [] d.tree)
    (hreach : I (d.tree.reach true path) d.tree)
    (hQ : ∀ b, (b = true → d.tree.nodeAt true path = .ok .dir) →
      (os.Quiet → d.tree.nodeAt true path = .ok .dir → b = true) → Q (.ok b) d.tree) :
    Along I Q (isDir os path) d := by
  refine along_try (along_sys hnone hreach) ?_
  rintro r d' (⟨rfl, htree⟩ | ⟨hloud, ⟨e, rfl⟩, htree⟩)
  · dsimp only at htree ⊢
    rw [← htree] at hQ ⊢
    split
    · next hdir => exact along_pure (hQ true (fun _ => hdir) fun _ _ => rfl)
    · next hne => exact along_pure (hQ false nofun fun _ hdir => absurd hdir hne)
  · rw [← htree] at hQ
    exact along_pure (hQ false nofun fun hquiet => absurd hquiet hloud)

/-- A directory that could not be made may be there. -/
def orDir (os : Os) (path : List N) : Except Errno (List N) → FsM N Errno Unit
  | .ok _ => pure ()
  | .error e => do if ← isDir os path then pure () else throw e

/-- What `orDir` makes of a directory that could not be made, or could. -/
theorem orDir_along {made : Except Errno (List N)} {Q : Except Errno Unit → FileTree N Bytes → Prop}
    (hnone : I [] d.tree) (hreach : I (d.tree.reach true path) d.tree)
    (hok : (∃ y, made = .ok y) ∨ d.tree.nodeAt true path = .ok .dir → Q (.ok ()) d.tree)
    (herr : ∀ e, ¬ (os.Quiet ∧ d.tree.nodeAt true path = .ok .dir) → Q (.error e) d.tree) :
    Along I Q (orDir os path made) d := by
  cases made with
  | ok y => exact along_pure (hok (Or.inl ⟨y, rfl⟩))
  | error e =>
    refine along_bind (R := fun r t => t = d.tree ∧ ∃ b, r = .ok b ∧
      (b = true → d.tree.nodeAt true path = .ok .dir) ∧
      (os.Quiet → d.tree.nodeAt true path = .ok .dir → b = true)) (isDir_along hnone hreach ?_) ?_ ?_
    · exact fun b htrue hquiet => ⟨rfl, b, rfl, htrue, hquiet⟩
    · rintro b d' ⟨htree, b', hb, htrue, hquiet⟩
      obtain rfl := Except.ok.inj hb
      cases b with
      | true =>
        rw [if_pos rfl]
        exact along_pure (htree ▸ hok (Or.inr (htrue rfl)))
      | false =>
        rw [if_neg (by simp)]
        refine along_throw (htree ▸ herr e fun ⟨hq, hdir⟩ => ?_)
        exact absurd (hquiet hq hdir) (by simp)
    · rintro e t ⟨-, b, hb, -⟩
      cases hb

end Looking

variable [Std.LawfulEqOrd N] [DecidableEq N]

/-! ## The program -/

section Program

variable (os : Os)

/-- `create_dir_all`, on the names of a path from the last one on. -/
def createDirAllRev : List N → FsM N Errno Unit
  | [] => do orDir os [] (← (mkdir os []).attempt)
  | n :: up => do
    match ← (mkdir os (n :: up).reverse).attempt with
    | .error .notFound =>
      createDirAllRev up
      orDir os (n :: up).reverse (← (mkdir os (n :: up).reverse).attempt)
    | r => orDir os (n :: up).reverse r

/-- `fs::create_dir_all`. -/
def createDirAll (path : List N) : FsM N Errno Unit := createDirAllRev os path.reverse

end Program

/-- Making one of them. -/
theorem DirsAdded.set {x l l' : List N} {t : FileTree N Bytes} {n : N} (hl : l' ++ [n] <+: l)
    (hdir : t.get (x ++ l') = some .dir) (hnone : t.get (x ++ l' ++ [n]) = none) :
    DirsAdded x l t (t.set (x ++ l' ++ [n]) .dir) := by
  have hcan : t.CanSet (x ++ l' ++ [n]) .dir :=
    ⟨by simp, by rwa [List.dropLast_concat], fun _ => rfl⟩
  intro y
  rw [FileTree.get_set hcan]
  split_ifs with hy
  · exact Or.inr ⟨hy ▸ hnone, rfl, l' ++ [n], hl, by rw [hy, List.append_assoc]⟩
  · exact Or.inl rfl

/-! ## What is made -/

section Along

variable {os : Os} {x l : List N} {n : N} {t : FileTree N Bytes} {d : Disk N}

/-- A call that reaches the way from `x` along `l`, and has at most added directories of it. -/
def OnWay (x l : List N) (t : FileTree N Bytes) (places : List (List N)) (t' : FileTree N Bytes) :
    Prop :=
  (∀ y ∈ places, ∃ l', l' <+: l ∧ y = x ++ l') ∧ DirsAdded x l t t'

/-- How the making of the directories from `x` along `l` ends: in success, if no call fails and no
file is in the way. -/
def DirsMade (os : Os) (x l : List N) (t : FileTree N Bytes) (r : Except Errno Unit)
    (t' : FileTree N Bytes) : Prop :=
  DirsAdded x l t t' ∧ (r = .ok () → t'.get (x ++ l) = some .dir) ∧
    (os.Quiet → (∀ l', l' <+: l → ∀ c, t.get (x ++ l') ≠ some (.file c)) → r = .ok ())

/-- Where a directory is, none is made. -/
theorem createDirAll_existing (hx : d.tree.get x = some .dir) :
    Along (fun places t => (∀ y ∈ places, y = x) ∧ t = d.tree)
      (fun r t => t = d.tree ∧ (os.Quiet → r = .ok ())) (createDirAll os x) d := by
  have hplace : d.tree.entryPlace x = .ok x := by
    rcases List.eq_nil_or_concat' x with rfl | ⟨z, n, rfl⟩
    · rfl
    · exact FileTree.entryPlace_of_dir (FileTree.get_parent (by rw [hx]; rfl))
  have hmake : d.tree.make x .dir = (.error .alreadyExists, d.tree) := by
    rw [FileTree.make, hplace]
    exact if_pos (by rw [hx]; rfl)
  have hself : ∀ y ∈ d.tree.reachEntry x, y = x := by
    rw [FileTree.reachEntry, hplace]
    exact fun y => List.mem_singleton.1
  have hat : d.tree.nodeAt true x = .ok .dir := FileTree.nodeAt_of_get hx (by simp)
  have hlook : ∀ y ∈ d.tree.reach true x, y = x := by
    rw [FileTree.reach, FileTree.locate_of_get hx (by simp)]
    exact fun y => List.mem_singleton.1
  -- the call that fails, and the look at what is there
  have hcall : Along (fun places t => (∀ y ∈ places, y = x) ∧ t = d.tree)
      (fun r t => t = d.tree ∧ ∃ e, r = .error e ∧ e ≠ .notFound) (mkdir os x) d := by
    refine Along.mono (along_sys ⟨by simp, rfl⟩ ⟨hself, by rw [hmake]⟩) (fun _ _ h => h) ?_
    rintro r t (⟨rfl, rfl⟩ | ⟨-, ⟨e, rfl⟩, rfl⟩)
    · dsimp only
      rw [hmake]
      exact ⟨rfl, _, rfl, by simp⟩
    · exact ⟨rfl, _, rfl, by simp⟩
  have hrest (e : Errno) (d' : Disk N) (htree : d'.tree = d.tree) :
      Along (fun places t => (∀ y ∈ places, y = x) ∧ t = d.tree)
        (fun r t => t = d.tree ∧ (os.Quiet → r = .ok ())) (orDir os x (.error e)) d' := by
    refine orDir_along ⟨by simp, htree⟩ ⟨htree ▸ hlook, htree⟩ (fun _ => ⟨htree, fun _ => rfl⟩) ?_
    exact fun e hloud => ⟨htree, fun hquiet => absurd ⟨hquiet, htree ▸ hat⟩ hloud⟩
  rw [createDirAll]
  rcases List.eq_nil_or_concat' x with rfl | ⟨z, n, rfl⟩
  · refine along_try hcall ?_
    rintro _ d' ⟨htree, e, rfl, -⟩
    exact hrest e d' htree
  · rw [List.reverse_append, List.reverse_singleton, List.singleton_append, createDirAllRev,
      List.reverse_cons, List.reverse_reverse]
    refine along_try hcall ?_
    rintro _ d' ⟨htree, e, rfl, hne⟩
    cases e with
    | notFound => exact absurd rfl hne
    | _ => exact hrest _ d' htree

section Way

variable (hx : t.get x = some .dir) (h : t.NoLink x (l ++ [n]))
  (hadded : DirsAdded x (l ++ [n]) t d.tree)
include h hadded

omit [Std.LawfulEqOrd N] [DecidableEq N] in
/-- What is at the end of the way is a directory, if no file is in the way. -/
theorem DirsAdded.dir_of_some (hsome : (d.tree.get (x ++ (l ++ [n]))).isSome)
    (hfiles : ∀ l', l' <+: l ++ [n] → ∀ c, t.get (x ++ l') ≠ some (.file c)) :
    d.tree.get (x ++ (l ++ [n])) = some .dir := by
  obtain ⟨node, hnode⟩ := Option.isSome_iff_exists.1 hsome
  cases node with
  | dir => exact hnode
  | file c => exact absurd (hadded.get_of_get hnode nofun) (hfiles _ (List.prefix_refl _) c)
  | link target => exact absurd (hadded.get_of_get hnode nofun) (h _ (List.prefix_refl _) target)

include hx

omit [Std.LawfulEqOrd N] [DecidableEq N] in
/-- A directory that was made is there, and one that could not be made is looked for. -/
theorem orDir_made {made : Except Errno (List N)}
    (hmade : ∀ y, made = .ok y → d.tree.get (x ++ (l ++ [n])) = some .dir)
    (hquiet : os.Quiet → (∀ l', l' <+: l ++ [n] → ∀ c, t.get (x ++ l') ≠ some (.file c)) →
      d.tree.get (x ++ (l ++ [n])) = some .dir) :
    Along (OnWay x (l ++ [n]) t) (DirsMade os x (l ++ [n]) t)
      (orDir os (x ++ (l ++ [n])) made) d := by
  have hx' := hadded.get_some hx
  have h' := hadded.noLink h
  refine orDir_along ⟨nofun, hadded⟩ ⟨?_, hadded⟩ ?_ ?_
  · exact fun y hy => ⟨l ++ [n], List.prefix_refl _, FileTree.reach_eq hx' h' hy⟩
  · rintro (⟨y, hok⟩ | hdir)
    · exact ⟨hadded, fun _ => hmade y hok, fun _ _ => rfl⟩
    · exact ⟨hadded, fun _ => FileTree.nodeAt_eq_ok hx' h' hdir, fun _ _ => rfl⟩
  · intro e hloud
    refine ⟨hadded, nofun, fun hq hfiles => absurd ⟨hq, ?_⟩ hloud⟩
    exact FileTree.nodeAt_of_get (hquiet hq hfiles) fun _ _ => nofun

/-- Making the last directory of the way: it is missing afterwards only if its parent was. -/
theorem mkdir_along :
    Along (OnWay x (l ++ [n]) t)
      (fun r t' => DirsAdded x (l ++ [n]) t t' ∧
        (∀ y, r = .ok y → t'.get (x ++ (l ++ [n])) = some .dir) ∧
        (d.tree.get (x ++ l) = some .dir → r ≠ .error .notFound) ∧
        (os.Quiet → (∀ l', l' <+: l ++ [n] → ∀ c, t.get (x ++ l') ≠ some (.file c)) →
          r ≠ .error .notFound → t'.get (x ++ (l ++ [n])) = some .dir))
      (mkdir os (x ++ (l ++ [n]))) d := by
  have hx' := hadded.get_some hx
  have hway := (hadded.noLink h).mono (List.prefix_append l [n])
  have hpath : x ++ (l ++ [n]) = x ++ l ++ [n] := (List.append_assoc _ _ _).symm
  have hreach : ∀ y ∈ d.tree.reachEntry (x ++ (l ++ [n])), ∃ l', l' <+: l ++ [n] ∧ y = x ++ l' := by
    intro y hy
    rw [hpath] at hy
    exact ⟨l ++ [n], List.prefix_refl _, (FileTree.reachEntry_eq hx' hway hy).trans hpath.symm⟩
  -- what the call does where it does not fail
  have hmake : DirsAdded x (l ++ [n]) t (d.tree.make (x ++ (l ++ [n])) .dir).2 ∧
      (∀ y, (d.tree.make (x ++ (l ++ [n])) .dir).1 = .ok y →
        (d.tree.make (x ++ (l ++ [n])) .dir).2.get (x ++ (l ++ [n])) = some .dir) ∧
      (d.tree.get (x ++ l) = some .dir →
        (d.tree.make (x ++ (l ++ [n])) .dir).1 ≠ .error .notFound) ∧
      ((∀ l', l' <+: l ++ [n] → ∀ c, t.get (x ++ l') ≠ some (.file c)) →
        (d.tree.make (x ++ (l ++ [n])) .dir).1 ≠ .error .notFound →
        (d.tree.make (x ++ (l ++ [n])) .dir).2.get (x ++ (l ++ [n])) = some .dir) := by
    rcases FileTree.way_cases hx' hway with hdir | ⟨c, hfile⟩ | ⟨l₁, m, l₂, rfl, hdir, hnone⟩ |
      ⟨l₁, l₂, c, rfl, hne, hfile⟩
    · rw [hpath, FileTree.make_of_dir _ hdir]
      by_cases hsome : (d.tree.get (x ++ l ++ [n])).isSome
      · rw [if_pos hsome]
        refine ⟨hadded, by simp, by simp, fun hfiles _ => ?_⟩
        rw [← hpath] at hsome ⊢
        exact hadded.dir_of_some h hsome hfiles
      · rw [if_neg hsome]
        have hnone := Option.not_isSome_iff_eq_none.1 hsome
        have hcan : d.tree.CanSet (x ++ l ++ [n]) .dir :=
          ⟨by simp, by rwa [List.dropLast_concat], fun _ => rfl⟩
        have hget : (d.tree.set (x ++ l ++ [n]) .dir).get (x ++ l ++ [n]) = some .dir := by
          rw [FileTree.get_set hcan, if_pos rfl]
        exact ⟨hadded.trans (.set (List.prefix_refl _) hdir hnone), fun _ _ => hget, by simp,
          fun _ _ => hget⟩
    · have herr : d.tree.make (x ++ (l ++ [n])) .dir = (.error .notADirectory, d.tree) := by
        have hbelow := FileTree.entryPlace_below_file (m := n) hfile []
        rw [List.append_nil] at hbelow
        rw [FileTree.make, hpath, hbelow]
      rw [herr]
      refine ⟨hadded, by simp, by simp, fun hfiles _ => ?_⟩
      exact absurd (hadded.get_of_get hfile (by simp)) (hfiles _ (List.prefix_append _ _) c)
    · have herr : d.tree.make (x ++ (l₁ ++ m :: l₂ ++ [n])) .dir = (.error .notFound, d.tree) := by
        rw [← List.append_assoc] at hnone
        have hmissing := FileTree.entryPlace_missing hdir hnone (m := n) l₂
        rw [List.append_assoc, List.append_assoc, ← List.append_assoc l₁] at hmissing
        rw [FileTree.make, hmissing]
      rw [herr]
      refine ⟨hadded, by simp, fun hdir' => ?_, fun _ hne => absurd rfl hne⟩
      have hbelow := FileTree.get_eq_none (y := l₂) hnone
      rw [List.append_assoc, List.append_assoc, List.singleton_append, hdir'] at hbelow
      cases hbelow
    · have herr : d.tree.make (x ++ (l₁ ++ l₂ ++ [n])) .dir = (.error .notADirectory, d.tree) := by
        have hbelow := FileTree.entryPlace_below_file (m := n) hfile l₂
        rw [List.append_assoc, List.append_assoc, ← List.append_assoc l₁] at hbelow
        rw [FileTree.make, hbelow]
      rw [herr]
      refine ⟨hadded, by simp, by simp, fun hfiles _ => ?_⟩
      refine absurd (hadded.get_of_get hfile (by simp)) (hfiles _ ?_ c)
      exact (List.prefix_append _ _).trans (List.prefix_append _ _)
  refine Along.mono (along_sys ⟨by simp, hadded⟩ ⟨hreach, hmake.1⟩) (fun _ _ h => h) ?_
  rintro r t' (⟨rfl, rfl⟩ | ⟨hloud, ⟨e, rfl⟩, rfl⟩)
  · exact ⟨hmake.1, hmake.2.1, hmake.2.2.1, fun _ => hmake.2.2.2⟩
  · exact ⟨hadded, by simp, by simp, fun hq => absurd hq hloud⟩

end Way

/-- **Making the directories of a way without links**: others are neither reached nor made. -/
theorem createDirAll_along (os : Os) (hx : d.tree.get x = some .dir) (h : d.tree.NoLink x l) :
    Along (OnWay x l d.tree) (DirsMade os x l d.tree) (createDirAll os (x ++ l)) d := by
  induction l using List.reverseRecOn generalizing d with
  | nil =>
    rw [List.append_nil]
    refine (createDirAll_existing hx).mono ?_ ?_
    · rintro places t ⟨hplaces, rfl⟩
      exact ⟨fun y hy => ⟨[], List.prefix_refl _, by rw [hplaces y hy, List.append_nil]⟩, .refl _⟩
    · rintro r t ⟨rfl, hquiet⟩
      refine ⟨.refl _, fun _ => ?_, fun hq _ => hquiet hq⟩
      rwa [List.append_nil]
  | append_singleton l n ih =>
    have hpre : l <+: l ++ [n] := List.prefix_append _ _
    have hrev : (x ++ (l ++ [n])).reverse = n :: (x ++ l).reverse := by simp
    rw [createDirAll, hrev, createDirAllRev, ← hrev, List.reverse_reverse]
    refine along_try (mkdir_along hx h (.refl _)) ?_
    rintro r d₁ ⟨hadded, hok, -, hquiet⟩
    by_cases hmissing : r = .error .notFound
    · -- the parent is missing, and is made first
      rw [hmissing]
      have hx₁ := hadded.get_some hx
      have hway := (hadded.noLink h).mono hpre
      refine along_bind ((ih hx₁ hway).mono ?_ fun _ _ hR => hR) ?_ ?_
      · rintro places t ⟨hplaces, ht⟩
        refine ⟨fun y hy => ?_, hadded.trans (ht.mono hpre)⟩
        obtain ⟨l', hl', rfl⟩ := hplaces y hy
        exact ⟨l', hl'.trans hpre, rfl⟩
      · rintro u d₂ ⟨hmade, hdir, -⟩
        have hadded₂ := hadded.trans (hmade.mono hpre)
        refine along_try (mkdir_along hx h hadded₂) ?_
        rintro r d₃ ⟨hadded₃, hok₃, hfound, hquiet₃⟩
        exact orDir_made hx h hadded₃ hok₃ fun hq hfiles => hquiet₃ hq hfiles (hfound (hdir rfl))
      · rintro e t ⟨hmade, -, hquiet₁⟩
        refine ⟨hadded.trans (hmade.mono hpre), nofun, fun hq hfiles => ?_⟩
        have hno : ∀ l', l' <+: l → ∀ c, d₁.tree.get (x ++ l') ≠ some (.file c) :=
          fun l' hl' c hfile => hfiles l' (hl'.trans hpre) c (hadded.get_of_get hfile nofun)
        cases hquiet₁ hq hno
    · have hrest := orDir_made hx h hadded hok fun hq hfiles => hquiet hq hfiles hmissing
      split
      · exact absurd rfl hmissing
      · exact hrest

end Along

end Bypass
