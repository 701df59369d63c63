import Bypass.Foundations.FileSystem

/-!
# Walking through directories

A directory is walked through with all below it, but for the names that are skipped; links are not
followed. What is collected of each file is up to the caller.

* `walkFrom_along`: **the walk reaches nothing but what lies below its start**, and collects the
  files of `FileTree.walkAt`.
* `mem_walkAt`, `nodup_walkAt`: what these are.
-/

namespace Bypass

variable {N ε α β : Type} [Ord N] [Std.TransOrd N] [DecidableEq N]

/-! ## The program -/

section Program

/-- A loop that collects what its turns return. -/
def collect (f : β → FsM N ε (List α)) : List β → FsM N ε (List α)
  | [] => pure []
  | b :: bs => do
    let here ← f b
    let rest ← collect f bs
    pure (here ++ rest)

variable (os : Os) (fail : List N → Errno → ε) (skip : N → Bool) (shown : List N → Option α)

/-- Walk through a directory, down to a depth. -/
def walkDir : ℕ → List N → FsM N ε (List α)
  | 0, _ => pure []
  | depth + 1, dir => do
    let read ← (readDir os dir).mapErr (fail dir)
    collect (fun entry =>
      if skip entry.1 then pure []
      else
        match entry.2 with
        | .dir => walkDir depth (dir ++ [entry.1])
        | .file _ => pure (shown (dir ++ [entry.1])).toList
        | .link _ => pure []) read

/-- Walk through a directory: no tree goes down further than its height. -/
def walkFrom (dir : List N) : FsM N ε (List α) := do
  let height ← ask (·.tree.height)
  walkDir os fail skip shown (height + 1) dir

end Program

/-! ## What is collected -/

section Collected

variable [Std.LawfulEqOrd N] (skip : N → Bool) (shown : List N → Option α)

/-- What a walk through the directory `x` collects, down to a depth. -/
def FileTree.walkAt (t : FileTree N Bytes) : ℕ → List N → List α
  | 0, _ => []
  | depth + 1, x => (t.entries x).flatMap fun entry =>
    if skip entry.1 then []
    else
      match entry.2 with
      | .dir => t.walkAt depth (x ++ [entry.1])
      | .file _ => (shown (x ++ [entry.1])).toList
      | .link _ => []

variable {skip shown} {t : FileTree N Bytes} {x : List N} {a : α} {depth : ℕ}

/-- **The files that a walk collects**: those below its start with no name that is skipped. -/
theorem mem_walkAt (hdepth : t.height < x.length + depth) :
    a ∈ t.walkAt skip shown depth x ↔ ∃ l c, l ≠ [] ∧ (∀ n ∈ l, skip n = false) ∧
      t.get (x ++ l) = some (.file c) ∧ shown (x ++ l) = some a := by
  induction depth generalizing x with
  | zero =>
    constructor
    · intro h
      cases h
    · rintro ⟨l, c, hl, -, hfile, -⟩
      have hlen := FileTree.length_le_height (t := t) (x := x ++ l) (by rw [hfile]; rfl)
      rw [List.length_append] at hlen
      omega
  | succ depth ih =>
    have hdepth' (n : N) : t.height < (x ++ [n]).length + depth := by
      rw [List.length_append, List.length_singleton]
      omega
    rw [FileTree.walkAt, List.mem_flatMap]
    constructor
    · rintro ⟨⟨n, node⟩, hentry, ha⟩
      have hnode := FileTree.mem_entries.1 hentry
      split_ifs at ha with hskip
      · cases ha
      rw [Bool.not_eq_true] at hskip
      cases node with
      | dir =>
        obtain ⟨l, c, -, hl, hfile, hshown⟩ := (ih (hdepth' n)).1 ha
        rw [List.append_assoc] at hfile hshown
        refine ⟨n :: l, c, by simp, fun m hm => ?_, hfile, hshown⟩
        rcases List.mem_cons.1 hm with rfl | hm
        · exact hskip
        · exact hl m hm
      | file c =>
        refine ⟨[n], c, by simp, fun m hm => ?_, hnode, by simpa using ha⟩
        rwa [List.mem_singleton.1 hm]
      | link target => cases ha
    · rintro ⟨l, c, hne, hl, hfile, hshown⟩
      obtain ⟨n, l, rfl⟩ := List.exists_cons_of_ne_nil hne
      have hskip := hl n List.mem_cons_self
      by_cases hnil : l = []
      · subst hnil
        refine ⟨(n, .file c), FileTree.mem_entries.2 hfile, ?_⟩
        rw [hskip, if_neg (by simp)]
        simp [hshown]
      · have hcons : x ++ n :: l = x ++ [n] ++ l := by simp
        rw [hcons] at hfile hshown
        have hdir := FileTree.get_before (by rw [hfile]; rfl) hnil
        refine ⟨(n, .dir), FileTree.mem_entries.2 hdir, ?_⟩
        rw [hskip, if_neg (by simp)]
        exact (ih (hdepth' n)).2 ⟨l, c, hnil, fun m hm => hl m (List.mem_cons_of_mem _ hm), hfile,
          hshown⟩

/-- What is collected lies below the start, and is not left out. -/
theorem exists_of_mem_walkAt (h : a ∈ t.walkAt skip shown depth x) :
    ∃ l c, (∀ n ∈ l, skip n = false) ∧ t.get (x ++ l) = some (.file c) ∧ shown (x ++ l) = some a := by
  induction depth generalizing x with
  | zero => cases h
  | succ depth ih =>
    rw [FileTree.walkAt, List.mem_flatMap] at h
    obtain ⟨⟨n, node⟩, hentry, ha⟩ := h
    split_ifs at ha with hskip
    · cases ha
    have hkept := Bool.eq_false_of_not_eq_true hskip
    cases node with
    | dir =>
      obtain ⟨l, c, hl, hfile, hshown⟩ := ih ha
      rw [List.append_assoc] at hfile hshown
      exact ⟨n :: l, c, List.forall_mem_cons.2 ⟨hkept, hl⟩, hfile, hshown⟩
    | file c =>
      exact ⟨[n], c, List.forall_mem_singleton.2 hkept, FileTree.mem_entries.1 hentry, by simpa using ha⟩
    | link target => cases ha

/-- Files that are not left out, and not shown as the same, are collected once. -/
theorem nodup_walkAt_of_skip (hshown : ∀ l l' c c' b, (∀ n ∈ l, skip n = false) →
    (∀ n ∈ l', skip n = false) → t.get (x ++ l) = some (.file c) →
    t.get (x ++ l') = some (.file c') → shown (x ++ l) = some b → shown (x ++ l') = some b → l = l') :
    (t.walkAt skip shown depth x).Nodup := by
  induction depth generalizing x with
  | zero => exact List.nodup_nil
  | succ depth ih =>
    -- where what is collected of an entry comes from
    have hbelow {entry : N × FileNode N Bytes} {b : α} (hentry : entry ∈ t.entries x)
        (hb : b ∈ if skip entry.1 then ([] : List α) else match entry.2 with
          | .dir => t.walkAt skip shown depth (x ++ [entry.1])
          | .file _ => (shown (x ++ [entry.1])).toList
          | .link _ => []) :
        ∃ l c, (∀ n ∈ entry.1 :: l, skip n = false) ∧
          t.get (x ++ entry.1 :: l) = some (.file c) ∧ shown (x ++ entry.1 :: l) = some b := by
      obtain ⟨n, node⟩ := entry
      split_ifs at hb with hskip
      · cases hb
      have hkept := Bool.eq_false_of_not_eq_true hskip
      cases node with
      | dir =>
        obtain ⟨l, c, hl, hfile, hb⟩ := exists_of_mem_walkAt hb
        rw [List.append_assoc] at hfile hb
        exact ⟨l, c, List.forall_mem_cons.2 ⟨hkept, hl⟩, hfile, hb⟩
      | file c =>
        exact ⟨[], c, List.forall_mem_singleton.2 hkept, FileTree.mem_entries.1 hentry, by simpa using hb⟩
      | link target => cases hb
    rw [FileTree.walkAt, List.nodup_flatMap]
    constructor
    · rintro ⟨n, node⟩ -
      split_ifs with hskip
      · exact List.nodup_nil
      have hkept := Bool.eq_false_of_not_eq_true hskip
      cases node with
      | dir =>
        refine ih fun l l' c c' b hl hl' hfile hfile' hb hb' => ?_
        rw [List.append_assoc] at hfile hfile' hb hb'
        exact (List.cons.inj (hshown _ _ _ _ _ (List.forall_mem_cons.2 ⟨hkept, hl⟩)
          (List.forall_mem_cons.2 ⟨hkept, hl'⟩) hfile hfile' hb hb')).2
      | file c => cases shown (x ++ [n]) <;> simp
      | link target => exact List.nodup_nil
    · have hfst := FileTree.nodup_entries (t := t) (x := x)
      refine ((List.pairwise_map.1 hfst).imp_of_mem ?_)
      intro e e' he he' hne b hb hb'
      obtain ⟨l, c, hl, hfile, hb⟩ := hbelow he hb
      obtain ⟨l', c', hl', hfile', hb'⟩ := hbelow he' hb'
      exact hne (List.cons.inj (hshown _ _ _ _ _ hl hl' hfile hfile' hb hb')).1

/-- Files that are not shown as the same are collected once. -/
theorem nodup_walkAt (hshown : ∀ y z c c' b, t.get y = some (.file c) → t.get z = some (.file c') →
    shown y = some b → shown z = some b → y = z) : (t.walkAt skip shown depth x).Nodup :=
  nodup_walkAt_of_skip fun _ _ _ _ _ _ _ hfile hfile' hb hb' =>
    List.append_cancel_left (hshown _ _ _ _ _ hfile hfile' hb hb')

end Collected

/-! ## The walk -/

section Along

variable [Std.LawfulEqOrd N] {os : Os} {fail : List N → Errno → ε} {skip : N → Bool}
  {shown : List N → Option α} {x : List N} {d : Disk N}

/-- How a walk through `t` ends that is to collect `collected`. -/
def WalkEnds (os : Os) (t : FileTree N Bytes) (collected : List α) (r : Except ε (List α))
    (t' : FileTree N Bytes) : Prop :=
  t' = t ∧ (∀ l, r = .ok l → l = collected) ∧ (os.Quiet → r = .ok collected)

omit [DecidableEq N] [Std.LawfulEqOrd N] in
theorem collect_along {I : List (List N) → FileTree N Bytes → Prop} {t : FileTree N Bytes}
    {f : β → FsM N ε (List α)} {g : β → List α} {bs : List β}
    (hf : ∀ b ∈ bs, ∀ d : Disk N, d.tree = t → Along I (WalkEnds os t (g b)) (f b) d)
    (htree : d.tree = t) :
    Along I (WalkEnds os t (bs.flatMap g)) (collect f bs) d := by
  induction bs generalizing d with
  | nil => exact along_pure ⟨htree, fun l hl => (Except.ok.inj hl).symm, fun _ => rfl⟩
  | cons b bs ih =>
    refine along_bind (hf b List.mem_cons_self d htree) ?_ ?_
    · rintro here d' ⟨htree', hhere, -⟩
      obtain rfl := hhere here rfl
      refine along_bind (ih (fun b hb => hf b (List.mem_cons_of_mem _ hb)) htree') ?_ ?_
      · rintro rest d'' ⟨htree'', hrest, -⟩
        obtain rfl := hrest rest rfl
        refine along_pure ⟨htree'', fun l hl => ?_, fun _ => rfl⟩
        exact (Except.ok.inj hl).symm
      · rintro e t' ⟨hsame, -, hquiet⟩
        exact ⟨hsame, nofun, fun hq => nomatch hquiet hq⟩
    · rintro e t' ⟨hsame, -, hquiet⟩
      exact ⟨hsame, nofun, fun hq => nomatch hquiet hq⟩

theorem walkDir_along (hdir : d.tree.get x = some .dir) (depth : ℕ) :
    Along (fun places t => (∀ y ∈ places, x <+: y) ∧ t = d.tree)
      (WalkEnds os d.tree (d.tree.walkAt skip shown depth x))
      (walkDir os fail skip shown depth x) d := by
  induction depth generalizing x d with
  | zero => exact along_pure ⟨rfl, fun l hl => (Except.ok.inj hl).symm, fun _ => rfl⟩
  | succ depth ih =>
    have hreach : ∀ y ∈ d.tree.reach true x, x <+: y := by
      rw [FileTree.reach, FileTree.locate_of_get hdir (by simp)]
      intro y hy
      rw [List.mem_singleton.1 hy]
    have hread : Along (fun places t => (∀ y ∈ places, x <+: y) ∧ t = d.tree)
        (fun r t => t = d.tree ∧ (∀ l, r = .ok l → l = d.tree.entries x) ∧
          (os.Quiet → r = .ok (d.tree.entries x))) ((readDir os x).mapErr (fail x)) d := by
      refine along_mapErr (Along.mono (along_sys ⟨by simp, rfl⟩ ⟨hreach, rfl⟩) (fun _ _ h => h) ?_)
      rintro r t (⟨rfl, rfl⟩ | ⟨hloud, ⟨e, rfl⟩, rfl⟩)
      · dsimp only
        rw [FileTree.entriesAt_of_dir hdir]
        exact ⟨rfl, fun l hl => (Except.ok.inj hl).symm, fun _ => rfl⟩
      · exact ⟨rfl, by simp [Except.mapError], fun hquiet => absurd hquiet hloud⟩
    refine along_bind hread ?_ ?_
    · rintro read d' ⟨htree, hentries, -⟩
      obtain rfl := hentries read rfl
      refine collect_along (fun entry hentry d'' htree'' => ?_) htree
      obtain ⟨n, node⟩ := entry
      have hnode := FileTree.mem_entries.1 hentry
      dsimp only
      split_ifs
      · exact along_pure ⟨htree'', fun l hl => (Except.ok.inj hl).symm, fun _ => rfl⟩
      cases node with
      | dir =>
        have hbelow := ih (x := x ++ [n]) (d := d'') (by rw [htree'', hnode])
        rw [htree''] at hbelow
        refine hbelow.mono ?_ fun _ _ hR => hR
        rintro places t ⟨hplaces, ht⟩
        exact ⟨fun y hy => (List.prefix_append x [n]).trans (hplaces y hy), ht⟩
      | file c => exact along_pure ⟨htree'', fun l hl => (Except.ok.inj hl).symm, fun _ => rfl⟩
      | link target => exact along_pure ⟨htree'', fun l hl => (Except.ok.inj hl).symm, fun _ => rfl⟩
    · rintro e t ⟨hsame, -, hquiet⟩
      exact ⟨hsame, by simp, fun hq => by cases hquiet hq⟩

/-- **A walk reaches what lies below its start, and changes nothing.** -/
theorem walkFrom_along (hdir : d.tree.get x = some .dir) :
    Along (fun places t => (∀ y ∈ places, x <+: y) ∧ t = d.tree)
      (WalkEnds os d.tree (d.tree.walkAt skip shown (d.tree.height + 1) x))
      (walkFrom os fail skip shown x) d := by
  refine along_bind (R := fun r t => t = d.tree ∧ r = .ok d.tree.height)
    (along_ask ⟨nofun, rfl⟩ ⟨rfl, rfl⟩) ?_ ?_
  · rintro height d' ⟨htree, hheight⟩
    obtain rfl := Except.ok.inj hheight
    rw [← htree] at hdir ⊢
    exact walkDir_along hdir _
  · rintro e t ⟨-, he⟩
    cases he

omit [Std.LawfulEqOrd N] in
/-- What is no directory is not walked through. -/
theorem walkFrom_of_file {c : Bytes} (hfile : d.tree.get x = some (.file c)) :
    Along (fun places t => (∀ y ∈ places, x <+: y) ∧ t = d.tree)
      (fun r t => t = d.tree ∧ (∃ e, r = .error e) ∧ (os.Quiet → r = .error (fail x .notADirectory)))
      (walkFrom os fail skip shown x) d := by
  have hentries : d.tree.entriesAt x = .error .notADirectory := by
    rw [FileTree.entriesAt, FileTree.locate_of_get hfile (by simp)]
    dsimp only [Except.bind]
    rw [hfile]
  have hreach : ∀ y ∈ d.tree.reach true x, x <+: y := by
    rw [FileTree.reach, FileTree.locate_of_get hfile (by simp)]
    intro y hy
    rw [List.mem_singleton.1 hy]
  refine along_bind (R := fun r t => t = d.tree ∧ r = .ok d.tree.height)
    (along_ask ⟨by simp, rfl⟩ ⟨rfl, rfl⟩) ?_ ?_
  · rintro height d' ⟨htree, -⟩
    rw [← htree] at hentries hreach ⊢
    refine along_bind (R := fun r t => t = d'.tree ∧ (∃ e, r = .error e) ∧
      (os.Quiet → r = .error (fail x .notADirectory))) (along_mapErr (along_look.mono
        (fun places t h => ⟨fun y hy => hreach y (h.1 y hy), h.2⟩) ?_)) ?_ ?_
    · rintro r t ⟨ht, hr | ⟨hloud, e, he⟩⟩
      · rw [hentries] at hr
        rw [hr]
        exact ⟨ht, ⟨_, rfl⟩, fun _ => rfl⟩
      · rw [he]
        exact ⟨ht, ⟨_, rfl⟩, fun hquiet => absurd hquiet hloud⟩
    · rintro read d'' ⟨-, ⟨e, he⟩, -⟩
      cases he
    · rintro e t ⟨ht, -, hquiet⟩
      refine ⟨ht, ⟨e, rfl⟩, fun hq => ?_⟩
      rw [Except.error.inj (hquiet hq)]
  · rintro e t ⟨-, he⟩
    cases he

/-- What a walk answers without faults that starts at `x`. -/
def FileTree.walkAnswer (t : FileTree N Bytes) (fail : List N → Errno → ε) (skip : N → Bool)
    (shown : List N → Option α) (x : List N) : Except ε (List α) :=
  match t.get x with
  | none => .ok []
  | some .dir => .ok (t.walkAt skip shown (t.height + 1) x)
  | some _ => .error (fail x .notADirectory)

omit [Std.LawfulEqOrd N] in
theorem walkAnswer_of_dir {t : FileTree N Bytes} (h : t.get x = some .dir) :
    t.walkAnswer fail skip shown x = .ok (t.walkAt skip shown (t.height + 1) x) := by
  rw [FileTree.walkAnswer, h]

omit [Std.LawfulEqOrd N] in
theorem walkAnswer_of_none {t : FileTree N Bytes} (h : t.get x = none) :
    t.walkAnswer fail skip shown x = .ok [] := by
  rw [FileTree.walkAnswer, h]

omit [Std.LawfulEqOrd N] in
theorem walkAnswer_of_file {t : FileTree N Bytes} {c : Bytes} (h : t.get x = some (.file c)) :
    t.walkAnswer fail skip shown x = .error (fail x .notADirectory) := by
  rw [FileTree.walkAnswer, h]

/-- A walk through what may be missing. -/
theorem walkIfThere_along (hlink : d.tree.NoLink [] x) :
    Along (fun places t => (∀ y ∈ places, x <+: y) ∧ t = d.tree)
      (fun r t => t = d.tree ∧
        (∀ l, r = .ok l → l = [] ∨ d.tree.get x = some .dir ∧
          l = d.tree.walkAt skip shown (d.tree.height + 1) x) ∧
        (os.Quiet → r = d.tree.walkAnswer fail skip shown x))
      (do if ← pathExists os x then walkFrom os fail skip shown x else pure []) d := by
  refine along_bind ((pathExists_along hlink).mono (fun places t ⟨hplaces, ht⟩ => ⟨fun y hy => ?_, ht⟩)
    fun _ _ hR => hR) ?_ ?_
  · rw [hplaces y hy]
  · rintro b d' ⟨htree, b', hb, htrue, hquiet⟩
    obtain rfl := Except.ok.inj hb
    rw [← htree] at htrue hquiet hlink ⊢
    cases b with
    | false =>
      rw [if_neg (by simp)]
      refine along_pure ⟨rfl, fun l hl => Or.inl (Except.ok.inj hl).symm, fun hq => ?_⟩
      have hnone := Option.isSome_eq_false_iff.1 (hquiet hq).symm
      rw [walkAnswer_of_none (Option.isNone_iff_eq_none.1 hnone)]
    | true =>
      rw [if_pos rfl]
      obtain ⟨node, hnode⟩ := Option.isSome_iff_exists.1 (htrue rfl)
      cases node with
      | dir =>
        refine (walkFrom_along hnode).mono (fun _ _ h => h) ?_
        rintro r t ⟨ht, hl, hq⟩
        exact ⟨ht, fun l hr => Or.inr ⟨hnode, hl l hr⟩, fun hquiet => by
          rw [walkAnswer_of_dir hnode, hq hquiet]⟩
      | file c =>
        refine (walkFrom_of_file hnode).mono (fun _ _ h => h) ?_
        rintro r t ⟨ht, ⟨e, rfl⟩, hq⟩
        exact ⟨ht, nofun, fun hquiet => by rw [walkAnswer_of_file hnode, hq hquiet]⟩
      | link target =>
        have hno := hlink x (List.prefix_refl _) target
        rw [List.nil_append] at hno
        exact absurd hnode hno
  · rintro e t ⟨-, b, hb, -⟩
    cases hb

end Along

end Bypass
