import Bypass.Foundations.FileTree
import Bypass.Foundations.Prog
import Bypass.Foundations.Text

/-!
# Calls of a file system

The calls that programs make of a file system, as actions on a file tree. Any of them may fail, for
a reason of its own; a trace shows which places each of them reaches. A program that is stopped
leaves one of the trees that its trace goes through.

The rules of `Along` are for both: what holds of every call of a run, and what holds at its end.

* `along_bind`, `along_sys`: a run, one call after the other.
* `FileTree.reach_eq`, `FileTree.reachEntry_eq`: **where there are no links in the way, a call
  reaches what its path names**.
-/

namespace Bypass

/-! ## What calls do to a tree -/

namespace FileTree

section Asking

variable {N C : Type} [Ord N] [Std.TransOrd N]

/-- The node that a path leads to. -/
def nodeAt (t : FileTree N C) (follow : Bool) (path : List N) : Except Errno (FileNode N C) :=
  (t.locate follow path).bind fun x =>
    match t.get x with
    | some node => .ok node
    | none => .error .notFound

/-- The content of the file that a path leads to. -/
def contentAt (t : FileTree N C) (path : List N) : Except Errno C :=
  (t.nodeAt true path).bind fun
    | .file content => .ok content
    | .dir => .error .isADirectory
    | .link _ => .error .loop

/-- The places that are reached by a path, -/
def reach (t : FileTree N C) (follow : Bool) (path : List N) : List (List N) :=
  (t.locate follow path).toOption.toList

/-- and by one whose last name need not exist. -/
def reachEntry (t : FileTree N C) (path : List N) : List (List N) :=
  (t.entryPlace path).toOption.toList

variable {t : FileTree N C} {x y l : List N} {n : N} {node : FileNode N C} {follow : Bool}

theorem nodeAt_of_get (h : t.get x = some node)
    (hlink : follow = true → ∀ target, node ≠ .link target) : t.nodeAt follow x = .ok node := by
  rw [nodeAt, locate_of_get h hlink]
  show (match t.get x with | some node => _ | none => _ : Except Errno (FileNode N C)) = _
  rw [h]

theorem nodeAt_missing (hdir : t.get x = some .dir) (hnone : t.get (x ++ [n]) = none) (y : List N) :
    t.nodeAt follow (x ++ n :: y) = .error .notFound := by
  rw [nodeAt, locate_missing hdir hnone]
  rfl

theorem nodeAt_below_file {c : C} (h : t.get x = some (.file c)) (hy : y ≠ []) :
    t.nodeAt follow (x ++ y) = .error .notADirectory := by
  rw [nodeAt, locate_below_file h hy]
  rfl

/-- Without links, what a path leads to is what it names. -/
theorem nodeAt_eq_ok (hx : t.get x = some .dir) (h : t.NoLink x l)
    (hnode : t.nodeAt follow (x ++ l) = .ok node) : t.get (x ++ l) = some node := by
  have hself : ∀ {k}, t.get (x ++ l) = some k → (∀ target, k ≠ .link target) →
      t.get (x ++ l) = some node := by
    intro k hk hlink
    rw [nodeAt_of_get hk fun _ => hlink] at hnode
    rw [hk, Except.ok.inj hnode]
  rcases way_cases hx h with hdir | ⟨c, hfile⟩ | ⟨l₁, n, l₂, rfl, hdir, hnone⟩ |
    ⟨l₁, l₂, c, rfl, hne, hfile⟩
  · exact hself hdir fun _ => nofun
  · exact hself hfile fun _ => nofun
  · rw [← List.append_assoc] at hnone
    rw [← List.append_assoc, nodeAt_missing hdir hnone] at hnode
    cases hnode
  · rw [← List.append_assoc, nodeAt_below_file hfile hne] at hnode
    cases hnode

/-- **What is reached without links** is what the path names. -/
theorem reach_eq (hx : t.get x = some .dir) (h : t.NoLink x l) (hy : y ∈ t.reach follow (x ++ l)) :
    y = x ++ l := by
  have hself : ∀ {node}, t.get (x ++ l) = some node → (∀ target, node ≠ .link target) →
      y = x ++ l := by
    intro node hnode hlink
    rw [reach, locate_of_get hnode fun _ => hlink] at hy
    exact List.mem_singleton.1 hy
  rcases way_cases hx h with hdir | ⟨c, hfile⟩ | ⟨l₁, n, l₂, rfl, hdir, hnone⟩ |
    ⟨l₁, l₂, c, rfl, hne, hfile⟩
  · exact hself hdir fun _ => nofun
  · exact hself hfile fun _ => nofun
  · rw [← List.append_assoc] at hnone
    rw [← List.append_assoc, reach, locate_missing hdir hnone] at hy
    cases hy
  · rw [← List.append_assoc, reach, locate_below_file hfile hne] at hy
    cases hy

theorem reachEntry_eq (hx : t.get x = some .dir) (h : t.NoLink x l)
    (hy : y ∈ t.reachEntry (x ++ l ++ [n])) : y = x ++ l ++ [n] := by
  rcases way_cases hx h with hdir | ⟨c, hfile⟩ | ⟨l₁, m, l₂, rfl, hdir, hnone⟩ |
    ⟨l₁, l₂, c, rfl, hne, hfile⟩
  · rw [reachEntry, entryPlace_of_dir hdir] at hy
    exact List.mem_singleton.1 hy
  · rw [reachEntry, ← List.append_nil (x ++ l), entryPlace_below_file hfile] at hy
    cases hy
  · rw [← List.append_assoc] at hnone
    rw [← List.append_assoc, reachEntry, entryPlace_missing hdir hnone] at hy
    cases hy
  · rw [← List.append_assoc, reachEntry, entryPlace_below_file hfile] at hy
    cases hy

/-- Without links, a path leads to what is there, if something is. -/
theorem nodeAt_noLink (h : t.NoLink [] x) :
    (∃ node, t.nodeAt follow x = .ok node ∧ t.get x = some node) ∨
      (∃ e, t.nodeAt follow x = .error e) ∧ t.get x = none := by
  have hway := way_cases get_nil h
  simp only [List.nil_append] at hway
  rcases hway with hdir | ⟨c, hfile⟩ | ⟨l₁, m, l₂, rfl, hdir, hnone⟩ | ⟨l₁, l₂, c, rfl, hne, hfile⟩
  · exact Or.inl ⟨_, nodeAt_of_get hdir fun _ _ => nofun, hdir⟩
  · exact Or.inl ⟨_, nodeAt_of_get hfile fun _ _ => nofun, hfile⟩
  · have hmissing := get_eq_none (y := l₂) hnone
    rw [List.append_assoc, List.singleton_append] at hmissing
    exact Or.inr ⟨⟨_, nodeAt_missing hdir hnone l₂⟩, hmissing⟩
  · exact Or.inr ⟨⟨_, nodeAt_below_file hfile hne⟩, get_below_file hfile hne⟩

theorem reach_noLink (h : t.NoLink [] x) (hy : y ∈ t.reach follow x) : y = x := by
  have hy' : y ∈ t.reach follow ([] ++ x) := hy
  exact reach_eq get_nil h hy'

/-! ### Along clear ways -/

theorem nodeAt_clear (h : t.Clear x) : t.nodeAt follow x = match t.get x with
    | some node => .ok node
    | none => .error .notFound := by
  rcases h.cases with hdir | ⟨c, hfile⟩ | ⟨l₁, m, l₂, rfl, hdir, hnone⟩
  · rw [nodeAt_of_get hdir fun _ _ => nofun, hdir]
  · rw [nodeAt_of_get hfile fun _ _ => nofun, hfile]
  · have hmissing := get_eq_none (y := l₂) hnone
    rw [List.append_assoc, List.singleton_append] at hmissing
    rw [nodeAt_missing hdir hnone, hmissing]

theorem contentAt_clear (h : t.Clear x) : t.contentAt x = match t.get x with
    | some (.file content) => .ok content
    | some .dir => .error .isADirectory
    | _ => .error .notFound := by
  rw [contentAt, nodeAt_clear h]
  rcases h.cases with hdir | ⟨c, hfile⟩ | ⟨l₁, m, l₂, rfl, hdir, hnone⟩
  · rw [hdir]
    rfl
  · rw [hfile]
    rfl
  · have hmissing := get_eq_none (y := l₂) hnone
    rw [List.append_assoc, List.singleton_append] at hmissing
    rw [hmissing]
    rfl

/-- What is at a name, along a way without links: its directory is there, or missing, or no
directory. -/
theorem nodeAt_last (h : t.NoLink [] x) :
    t.get x = some .dir ∧ t.nodeAt false (x ++ [n]) = (match t.get (x ++ [n]) with
      | some node => .ok node
      | none => .error .notFound) ∨
    t.nodeAt false (x ++ [n]) = .error .notFound ∧ t.get (x ++ [n]) = none ∧
      (∀ l, l <+: x → ∀ c, t.get l ≠ some (.file c)) ∨
    t.nodeAt false (x ++ [n]) = .error .notADirectory ∧ ∃ l c, l <+: x ∧ t.get l = some (.file c) := by
  have hway := way_cases get_nil h
  simp only [List.nil_append] at hway
  rcases hway with hdir | ⟨c, hfile⟩ | ⟨l₁, m, l₂, rfl, hdir, hnone⟩ | ⟨l₁, l₂, c, rfl, hne, hfile⟩
  · refine Or.inl ⟨hdir, ?_⟩
    cases hnode : t.get (x ++ [n]) with
    | none => exact nodeAt_missing hdir hnode []
    | some node => exact nodeAt_of_get hnode nofun
  · exact Or.inr (Or.inr ⟨nodeAt_below_file hfile (by simp), x, c, List.prefix_refl _, hfile⟩)
  · have hbelow := get_eq_none (y := l₂ ++ [n]) hnone
    have hpath : l₁ ++ m :: l₂ ++ [n] = l₁ ++ m :: (l₂ ++ [n]) := by simp
    refine Or.inr (Or.inl ⟨?_, ?_, fun _ => noFile_of_missing hdir hnone⟩)
    · rw [hpath, nodeAt_missing hdir hnone]
    · rw [hpath, ← hbelow, List.append_assoc, List.singleton_append]
  · refine Or.inr (Or.inr ⟨?_, l₁, c, List.prefix_append _ _, hfile⟩)
    rw [List.append_assoc]
    exact nodeAt_below_file hfile (by simp)

theorem reach_last (h : t.NoLink [] x) (hy : y ∈ t.reach false (x ++ [n])) : y = x ++ [n] := by
  have hway := way_cases get_nil h
  simp only [List.nil_append] at hway
  rcases hway with hdir | ⟨c, hfile⟩ | ⟨l₁, m, l₂, rfl, hdir, hnone⟩ | ⟨l₁, l₂, c, rfl, hne, hfile⟩
  · cases hnode : t.get (x ++ [n]) with
    | none =>
      rw [reach, locate_missing hdir hnode []] at hy
      cases hy
    | some node =>
      have hself : t.locate false (x ++ [n]) = .ok (x ++ [n]) := locate_of_get hnode nofun
      rw [reach, hself] at hy
      exact List.mem_singleton.1 hy
  · rw [reach, locate_below_file hfile (by simp)] at hy
    cases hy
  · have hpath : l₁ ++ m :: l₂ ++ [n] = l₁ ++ m :: (l₂ ++ [n]) := by simp
    rw [hpath, reach, locate_missing hdir hnone] at hy
    cases hy
  · rw [List.append_assoc, reach, locate_below_file hfile (by simp)] at hy
    cases hy

end Asking

section Changing

variable {N C : Type} [Ord N] [Std.TransOrd N] [Std.LawfulEqOrd N] [DecidableEq N] [DecidableEq C]

/-- The names in a directory, with what they are. -/
def entries (t : FileTree N C) (x : List N) : List (N × FileNode N C) :=
  (t.children x).filterMap fun n => (t.get (x ++ [n])).map fun node => (n, node)

/-- The names in the directory that a path leads to, with what they are. -/
def entriesAt (t : FileTree N C) (path : List N) : Except Errno (List (N × FileNode N C)) :=
  (t.locate true path).bind fun x =>
    match t.get x with
    | some .dir => .ok (t.entries x)
    | some _ => .error .notADirectory
    | none => .error .notFound

/-- Make something where there is nothing. -/
def make (t : FileTree N C) (path : List N) (node : FileNode N C) :
    Except Errno (List N) × FileTree N C :=
  match t.entryPlace path with
  | .error e => (.error e, t)
  | .ok x => if (t.get x).isSome then (.error .alreadyExists, t) else (.ok x, t.set x node)

/-- Remove a file, or a link. -/
def removeFile (t : FileTree N C) (path : List N) : Except Errno Unit × FileTree N C :=
  match t.entryPlace path with
  | .error e => (.error e, t)
  | .ok x =>
    match t.get x with
    | none => (.error .notFound, t)
    | some .dir => (.error .isADirectory, t)
    | some _ => (.ok (), t.unset x)

/-- Move a file, over what is there. -/
def renameFile (t : FileTree N C) (src dst : List N) : Except Errno Unit × FileTree N C :=
  match t.entryPlace src, t.entryPlace dst with
  | .ok x, .ok y =>
    match t.get x, t.get y with
    | none, _ => (.error .notFound, t)
    | some .dir, _ => (.error (.other "not a file".toList), t)
    | some _, some .dir => (.error .isADirectory, t)
    | some node, _ => if x = y then (.ok (), t) else (.ok (), (t.unset x).set y node)
  | .error e, _ => (.error e, t)
  | _, .error e => (.error e, t)

/-- The place of the file that a path leads to. -/
def openFile (t : FileTree N C) (path : List N) : Except Errno (List N) :=
  (t.locate true path).bind fun x =>
    match t.get x with
    | some (.file _) => .ok x
    | some _ => .error .isADirectory
    | none => .error .notFound

/-- Change the content of a file, if it is still there. -/
def modify (t : FileTree N C) (x : List N) (f : C → C) : FileTree N C :=
  match t.get x with
  | some (.file content) => t.set x (.file (f content))
  | _ => t

/-! ### In a directory -/

variable {t : FileTree N C} {x : List N} {n m : N} {node : FileNode N C}

omit [DecidableEq C] in
theorem mem_entries : (n, node) ∈ t.entries x ↔ t.get (x ++ [n]) = some node := by
  rw [entries, List.mem_filterMap]
  constructor
  · rintro ⟨m, -, hm⟩
    obtain ⟨k, hnode, heq⟩ := Option.map_eq_some_iff.1 hm
    obtain ⟨rfl, rfl⟩ := Prod.mk.inj heq
    exact hnode
  · intro hnode
    exact ⟨n, mem_children.2 (by rw [hnode]; rfl), by rw [hnode]; rfl⟩

omit [Std.LawfulEqOrd N] [DecidableEq C] in
theorem nodup_entries : ((t.entries x).map Prod.fst).Nodup := by
  have hfst :
      (t.entries x).map Prod.fst = (t.children x).filter fun n => (t.get (x ++ [n])).isSome := by
    rw [entries, List.map_filterMap, ← List.filterMap_eq_filter]
    refine List.filterMap_congr fun m _ => ?_
    cases hnode : t.get (x ++ [m]) <;> simp [hnode, Option.guard]
  rw [hfst]
  exact nodup_children.filter _

omit [Std.LawfulEqOrd N] [DecidableEq C] in
theorem entriesAt_of_dir (hx : t.get x = some .dir) : t.entriesAt x = .ok (t.entries x) := by
  rw [entriesAt, locate_of_get hx fun _ _ => nofun]
  show (match t.get x with | some .dir => _ | some _ => _ | none => _ : Except Errno _) = _
  rw [hx]

theorem modify_set {c : C} {f : C → C} (hcan : ∀ c, t.CanSet x (.file c)) :
    (t.set x (.file c)).modify x f = t.set x (.file (f c)) := by
  rw [modify, get_set (hcan c), if_pos rfl]
  exact set_set (hcan c) nofun (hcan _)

theorem make_of_dir (node : FileNode N C) (hx : t.get x = some .dir) : t.make (x ++ [n]) node =
    if (t.get (x ++ [n])).isSome then (.error .alreadyExists, t)
    else (.ok (x ++ [n]), t.set (x ++ [n]) node) := by
  rw [make, entryPlace_of_dir hx]

theorem removeFile_of_dir (hx : t.get x = some .dir) (hnode : t.get (x ++ [n]) = some node)
    (hne : node ≠ .dir) : t.removeFile (x ++ [n]) = (.ok (), t.unset (x ++ [n])) := by
  rw [removeFile, entryPlace_of_dir hx]
  dsimp only
  rw [hnode]
  cases node with
  | dir => exact absurd rfl hne
  | _ => rfl

theorem renameFile_of_dir (hx : t.get x = some .dir) (hnode : t.get (x ++ [n]) = some node)
    (hne : node ≠ .dir) (hnm : n ≠ m) : t.renameFile (x ++ [n]) (x ++ [m]) =
      if t.get (x ++ [m]) = some .dir then (.error .isADirectory, t)
      else (.ok (), (t.unset (x ++ [n])).set (x ++ [m]) node) := by
  have hplaces : x ++ [n] ≠ x ++ [m] := fun h => hnm (by simpa using h)
  rw [renameFile, entryPlace_of_dir hx, entryPlace_of_dir hx]
  dsimp only
  rw [hnode]
  cases node with
  | dir => exact absurd rfl hne
  | file c =>
    cases ht : t.get (x ++ [m]) with
    | none => simp [hplaces]
    | some old => cases old <;> simp [hplaces]
  | link target =>
    cases ht : t.get (x ++ [m]) with
    | none => simp [hplaces]
    | some old => cases old <;> simp [hplaces]

end Changing

end FileTree

/-! ## Calls -/

/-- What an operating system brings: which of its calls fail, and why (not because a file is missing
that is there); its clock, the id of the process, and its random bytes. -/
structure Os where
  fault : ℕ → Option Str
  nanos : ℕ → ℕ
  pid : ℕ
  random : ℕ → ℕ → UInt8

/-- No call fails. -/
def Os.Quiet (os : Os) : Prop := ∀ n, os.fault n = none

/-- The system without faults. -/
def Os.quiet (os : Os) : Os := { os with fault := fun _ => none }

theorem Os.quiet_quiet (os : Os) : os.quiet.Quiet := fun _ => rfl

/-- A file tree, and how many calls there have been. -/
structure Disk (N : Type) [Ord N] [Std.TransOrd N] where
  tree : FileTree N Bytes
  clock : ℕ

section Calls

variable {N ε δ α β : Type} [Ord N] [Std.TransOrd N]

/-- A program that calls a file system. An event has the places that a call reaches. -/
abbrev FsM (N ε α : Type) [Ord N] [Std.TransOrd N] := Prog (List (List N)) (Disk N) ε α

/-- A call: it fails, or it does `f`. -/
def sys (os : Os) (reached : FileTree N Bytes → List (List N))
    (f : FileTree N Bytes → Except Errno α × FileTree N Bytes) : FsM N Errno α :=
  .act (fun d => if (os.fault d.clock).isSome then [] else reached d.tree)
    (fun d => ⟨if (os.fault d.clock).isSome then d.tree else (f d.tree).2, d.clock + 1⟩)
    fun d => .done (match os.fault d.clock with
      | some e => .error (.other e)
      | none => (f d.tree).1)

/-- A look at the disk that is no call. -/
def ask (f : Disk N → α) : FsM N ε α := .act (fun _ => []) id fun d => .done (.ok (f d))

theorem run_ask {f : Disk N → α} (d : Disk N) : (ask f : FsM N ε α).run d = (.ok (f d), d) := rfl

/-- A call that does not fail. -/
theorem run_sys {os : Os} {reached : FileTree N Bytes → List (List N)}
    {f : FileTree N Bytes → Except Errno α × FileTree N Bytes} (hquiet : os.Quiet) (d : Disk N) :
    (sys os reached f).run d = ((f d.tree).1, ⟨(f d.tree).2, d.clock + 1⟩) := by
  simp [sys, Prog.run, hquiet d.clock]

variable (os : Os)

/-- `symlink_metadata`, or `metadata`, which follows a link. -/
def stat (follow : Bool) (path : List N) : FsM N Errno (FileNode N Bytes) :=
  sys os (·.reach follow path) fun t => (t.nodeAt follow path, t)

/-- `fs::read`. -/
def readFile (path : List N) : FsM N Errno Bytes :=
  sys os (·.reach true path) fun t => (t.contentAt path, t)

/-- `Path::exists`. -/
def pathExists (path : List N) : FsM N ε Bool := do
  match ← (stat os true path).attempt with
  | .ok _ => pure true
  | .error _ => pure false

/-- `Path::is_dir`. -/
def isDir (path : List N) : FsM N ε Bool := do
  match ← (stat os true path).attempt with
  | .ok .dir => pure true
  | _ => pure false

variable [Std.LawfulEqOrd N] [DecidableEq N]

/-- `fs::read_dir`, with the types of the entries. -/
def readDir (path : List N) : FsM N Errno (List (N × FileNode N Bytes)) :=
  sys os (·.reach true path) fun t => (t.entriesAt path, t)

/-- `mkdir`. -/
def mkdir (path : List N) : FsM N Errno (List N) :=
  sys os (·.reachEntry path) fun t => t.make path .dir

/-- `OpenOptions::create_new`; a file that is open is its place. -/
def createNew (path : List N) : FsM N Errno (List N) :=
  sys os (·.reachEntry path) fun t => t.make path (.file [])

/-- `fs::remove_file`. -/
def unlink (path : List N) : FsM N Errno Unit :=
  sys os (·.reachEntry path) (·.removeFile path)

/-- `fs::rename`. -/
def rename (src dst : List N) : FsM N Errno Unit :=
  sys os (fun t => t.reachEntry src ++ t.reachEntry dst) (·.renameFile src dst)

/-- `OpenOptions::write`. -/
def openWrite (path : List N) : FsM N Errno (List N) :=
  sys os (·.reach true path) fun t => (t.openFile path, t)

/-- Change the content of an open file. -/
def writeTo (file : List N) (f : Bytes → Bytes) : FsM N Errno Unit :=
  sys os (fun _ => [file]) fun t => (.ok (), t.modify file f)

/-- `File::seek`. -/
def seek (file : List N) : FsM N Errno Unit :=
  sys os (fun _ => [file]) fun t => (.ok (), t)

/-- `File::sync_all`. -/
def syncAll (file : List N) : FsM N Errno Unit :=
  sys os (fun _ => [file]) fun t => (.ok (), t)

end Calls

/-! ## Along a run -/

section Along

variable {N ε δ α β : Type} [Ord N] [Std.TransOrd N]
  {I J : List (List N) → FileTree N Bytes → Prop} {Q R : Except ε α → FileTree N Bytes → Prop}
  {p : FsM N ε α} {d : Disk N}

/-- Each call of the run of `p` on `d` reaches what `I` allows, and leaves a tree that `I` allows;
at the end is `Q`. -/
def Along (I : List (List N) → FileTree N Bytes → Prop) (Q : Except ε α → FileTree N Bytes → Prop)
    (p : FsM N ε α) (d : Disk N) : Prop :=
  (∀ call ∈ p.trace d, I call.ev call.after.tree) ∧ Q (p.run d).1 (p.run d).2.tree

theorem Along.mono (h : Along I R p d) (hI : ∀ places t, I places t → J places t)
    (hQ : ∀ r t, R r t → Q r t) : Along J Q p d :=
  ⟨fun call hcall => hI _ _ (h.1 call hcall), hQ _ _ h.2⟩

theorem along_pure {a : α} (h : Q (.ok a) d.tree) : Along I Q (pure a) d :=
  ⟨fun _ hcall => absurd hcall List.not_mem_nil, h⟩

theorem along_throw {e : ε} (h : Q (.error e) d.tree) : Along I Q (throw e) d :=
  ⟨fun _ hcall => absurd hcall List.not_mem_nil, h⟩

/-- **One program after the other.** -/
theorem along_bind {f : α → FsM N ε β} {Q : Except ε β → FileTree N Bytes → Prop}
    (h : Along I R p d) (hok : ∀ a d', R (.ok a) d'.tree → Along I Q (f a) d')
    (herr : ∀ e t, R (.error e) t → Q (.error e) t) : Along I Q (p >>= f) d := by
  have hend := h.2
  unfold Along
  rw [Prog.trace_bind, Prog.run_bind]
  rcases hp : p.run d with ⟨e | a, d'⟩
  · rw [hp] at hend
    exact ⟨by simpa using h.1, herr e _ hend⟩
  · rw [hp] at hend
    obtain ⟨htrace, hlast⟩ := hok a d' hend
    refine ⟨fun call hcall => ?_, hlast⟩
    rcases List.mem_append.1 hcall with hcall | hcall
    · exact h.1 call hcall
    · exact htrace call hcall

/-- A program whose result is looked at, also if it is an error. -/
theorem along_try {f : Except ε α → FsM N δ β} {Q : Except δ β → FileTree N Bytes → Prop}
    (h : Along I R p d) (hf : ∀ r d', R r d'.tree → Along I Q (f r) d') :
    Along I Q (p.attempt >>= f) d := by
  refine along_bind (R := fun r t => ∃ r', r = .ok r' ∧ R r' t) ?_ ?_ ?_
  · unfold Along
    rw [Prog.trace_attempt, Prog.run_attempt]
    exact ⟨h.1, _, rfl, h.2⟩
  · rintro _ d' ⟨r, hr, hR⟩
    obtain rfl := Except.ok.inj hr
    exact hf _ d' hR
  · rintro e t ⟨r, hr, -⟩
    cases hr

/-- A program whose result is dropped. -/
theorem along_ignore {Q : Except δ Unit → FileTree N Bytes → Prop} (h : Along I R p d)
    (hQ : ∀ r t, R r t → Q (.ok ()) t) : Along I Q (p.ignore : FsM N δ Unit) d := by
  unfold Along
  rw [Prog.trace_ignore, Prog.run_ignore]
  exact ⟨h.1, hQ _ _ h.2⟩

theorem along_mapErr {g : ε → δ} {Q : Except δ α → FileTree N Bytes → Prop}
    (h : Along I (fun r t => Q (r.mapError g) t) p d) : Along I Q (p.mapErr g) d := by
  unfold Along
  rw [Prog.trace_mapErr, Prog.run_mapErr]
  exact h

theorem along_ask {f : Disk N → α} (hnone : I [] d.tree) (h : Q (.ok (f d)) d.tree) :
    Along I Q (ask f) d := by
  unfold Along ask
  rw [Prog.trace, Prog.run, Prog.trace, Prog.run]
  exact ⟨by simpa using hnone, h⟩

/-- What a call that does `f` to `t` can end as. -/
def CallOutcome (os : Os) (f : FileTree N Bytes → Except Errno α × FileTree N Bytes)
    (t : FileTree N Bytes) (r : Except Errno α) (t' : FileTree N Bytes) : Prop :=
  r = (f t).1 ∧ t' = (f t).2 ∨ ¬ os.Quiet ∧ (∃ e, r = .error (.other e)) ∧ t' = t

/-- **One call.** -/
theorem along_sys {os : Os} {reached : FileTree N Bytes → List (List N)}
    {f : FileTree N Bytes → Except Errno α × FileTree N Bytes} (hnone : I [] d.tree)
    (hreach : I (reached d.tree) (f d.tree).2) :
    Along I (CallOutcome os f d.tree) (sys os reached f) d := by
  unfold Along sys
  rw [Prog.trace, Prog.run, Prog.trace, Prog.run]
  cases hf : os.fault d.clock with
  | some e =>
    have hloud : ¬ os.Quiet := fun hquiet => by
      rw [hquiet] at hf
      cases hf
    exact ⟨by simpa using hnone, Or.inr ⟨hloud, ⟨e, rfl⟩, rfl⟩⟩
  | none => exact ⟨by simpa using hreach, Or.inl ⟨rfl, rfl⟩⟩

/-! ### Questions -/

/-- The answer to a question, or a fault. -/
def Answered (os : Os) (t : FileTree N Bytes) (answer : Except Errno α) (r : Except Errno α)
    (t' : FileTree N Bytes) : Prop :=
  t' = t ∧ (r = answer ∨ ¬ os.Quiet ∧ ∃ e, r = .error (.other e))

/-- A call that changes nothing. -/
theorem along_look {os : Os} {reached : FileTree N Bytes → List (List N)}
    {answer : FileTree N Bytes → Except Errno α} :
    Along (fun places t => (∀ y ∈ places, y ∈ reached d.tree) ∧ t = d.tree)
      (Answered os d.tree (answer d.tree)) (sys os reached fun t => (answer t, t)) d := by
  refine Along.mono (along_sys ⟨nofun, rfl⟩ ⟨fun _ hy => hy, rfl⟩) (fun _ _ h => h) ?_
  rintro r t (⟨rfl, rfl⟩ | ⟨hloud, herr, rfl⟩)
  · exact ⟨rfl, Or.inl rfl⟩
  · exact ⟨rfl, Or.inr ⟨hloud, herr⟩⟩

/-- Whether something is there, along a way without links. -/
theorem pathExists_along {os : Os} {x : List N} (h : d.tree.NoLink [] x) :
    Along (fun places t => (∀ y ∈ places, y = x) ∧ t = d.tree)
      (fun r t => t = d.tree ∧ ∃ b, (r : Except ε Bool) = .ok b ∧
        (b = true → (d.tree.get x).isSome) ∧ (os.Quiet → b = (d.tree.get x).isSome))
      (pathExists os x) d := by
  refine along_try (along_look.mono (fun places t ⟨hplaces, ht⟩ => ⟨fun y hy => ?_, ht⟩)
    fun _ _ hR => hR) ?_
  · exact FileTree.reach_noLink h (hplaces y hy)
  rintro r d' ⟨htree, rfl | ⟨hloud, e, rfl⟩⟩
  · rcases @FileTree.nodeAt_noLink _ _ _ _ _ _ true h with ⟨node, hnode, hget⟩ | ⟨⟨e, he⟩, hget⟩
    · rw [hnode]
      exact along_pure ⟨htree, true, rfl, fun _ => by rw [hget]; rfl, fun _ => by rw [hget]; rfl⟩
    · rw [he]
      exact along_pure ⟨htree, false, rfl, nofun, fun _ => by rw [hget]; rfl⟩
  · exact along_pure ⟨htree, false, rfl, nofun, fun hquiet => absurd hquiet hloud⟩

end Along

/-! ## Runs without faults -/

section Timeless

variable {N ε δ α β : Type} [Ord N] [Std.TransOrd N] {p : FsM N ε α}

/-- How many calls there have been does not matter. -/
def Timeless (p : FsM N ε α) : Prop :=
  ∀ d d' : Disk N, d.tree = d'.tree →
    (p.run d).1 = (p.run d').1 ∧ (p.run d).2.tree = (p.run d').2.tree

theorem timeless_pure (a : α) : Timeless (pure a : FsM N ε α) := fun _ _ h => ⟨rfl, h⟩

theorem timeless_throw (e : ε) : Timeless (throw e : FsM N ε α) := fun _ _ h => ⟨rfl, h⟩

theorem Timeless.bind {f : α → FsM N ε β} (h : Timeless p) (hf : ∀ a, Timeless (f a)) :
    Timeless (p >>= f) := by
  intro d d' htree
  obtain ⟨hr, ht⟩ := h d d' htree
  rw [Prog.run_bind, Prog.run_bind]
  rcases hp : p.run d with ⟨e | a, t⟩
  · rcases hp' : p.run d' with ⟨e' | a', t'⟩
    · rw [hp, hp'] at hr ht
      obtain rfl : e = e' := Except.error.inj hr
      exact ⟨rfl, ht⟩
    · rw [hp, hp'] at hr
      cases hr
  · rcases hp' : p.run d' with ⟨e' | a', t'⟩
    · rw [hp, hp'] at hr
      cases hr
    · rw [hp, hp'] at hr ht
      obtain rfl := Except.ok.inj hr
      exact hf a t t' ht

theorem Timeless.attempt (h : Timeless p) : Timeless (p.attempt : FsM N δ (Except ε α)) := by
  intro d d' htree
  obtain ⟨hr, ht⟩ := h d d' htree
  rw [Prog.run_attempt, Prog.run_attempt]
  exact ⟨congrArg Except.ok hr, ht⟩

theorem timeless_sys {os : Os} (hquiet : os.Quiet) {reached : FileTree N Bytes → List (List N)}
    {f : FileTree N Bytes → Except Errno α × FileTree N Bytes} : Timeless (sys os reached f) := by
  intro d d' htree
  rw [run_sys hquiet, run_sys hquiet, htree]
  exact ⟨rfl, rfl⟩

end Timeless

end Bypass
