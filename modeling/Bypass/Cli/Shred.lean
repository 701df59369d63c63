import Bypass.Cli.StorageFs

/-!
# Overwriting a file, write by write

`overwrite_in_place` of `storage_fs.rs` seeks to the start of the file before each pass, and from
there each write goes on where the last one ended. A write may take fewer bytes than it is given;
`write_all` then writes the rest. Here the file is open, with a cursor, and a trace shows where each
write begins and what it writes.

* `Adjacent.covered`: writes that follow one another without a gap write each byte between their
  ends once.
* `overwriteBlocks_wrote`: one pass goes through the file, and not beyond its end.
* `shred_covers`: **each pass writes every byte of the file once**.
* `overwriteInPlace_refines`: with writes that take all they are given, this is what `StorageFs`
  does on its file tree.
-/

namespace Bypass

namespace Shred

/-! ## An open file -/

/-- An open file: what is in it, where the next write begins, and how many calls there have been. -/
structure Handle where
  content : Bytes
  cursor : ℕ
  clock : ℕ

/-- A call, with what it wrote and where. -/
inductive FileCall where
  | metadata (len : ℕ)
  | opened
  | seek (pos : ℕ)
  | random (len : ℕ)
  | write (pos : ℕ) (block : Bytes)
  | syncAll
  deriving DecidableEq

/-- Calls of which none fails. -/
abbrev FileM (α : Type) := Prog FileCall Handle Empty α

/-- A call that does not write. -/
def quietCall (call : FileCall) (cursor : ℕ → ℕ) : FileM Unit :=
  .act (fun _ => call) (fun f => { f with cursor := cursor f.cursor, clock := f.clock + 1 })
    fun _ => .done (.ok ())

/-- `fs::metadata`, for the length. -/
def metadata : FileM ℕ :=
  .act (fun f => .metadata f.content.length) (fun f => { f with clock := f.clock + 1 })
    fun f => .done (.ok f.content.length)

/-- `OpenOptions::open`, which leaves the cursor at the start. -/
def openWrite : FileM Unit := quietCall .opened fun _ => 0

/-- `File::seek`. -/
def seek (pos : ℕ) : FileM Unit := quietCall (.seek pos) fun _ => pos

/-- `File::sync_all`. -/
def syncAll : FileM Unit := quietCall .syncAll id

section Program

variable (short : ℕ → ℕ) (random : ℕ → ℕ → UInt8)

/-- A write at the cursor. -/
def Handle.put (block : Bytes) (f : Handle) : Handle :=
  ⟨StorageFs.overwriteAt f.cursor block f.content, f.cursor + block.length, f.clock + 1⟩

/-- `write_all`: calls of `write`, each with what the last one has left. A call takes at least one
byte of those it is given. -/
def writeAll (block : Bytes) : FileM Unit :=
  if h : block = [] then pure ()
  else .act (fun f => .write f.cursor (block.take (short f.clock + 1)))
    (fun f => f.put (block.take (short f.clock + 1)))
    fun f => writeAll (block.drop (short f.clock + 1))
termination_by block.length
decreasing_by
  have hpos : 0 < block.length := List.length_pos_iff.2 h
  rw [List.length_drop]
  omega

/-- `fill_bytes`. -/
def fillBytes (len : ℕ) : FileM Bytes :=
  .act (fun _ => .random len) id fun f => .done (.ok ((List.range len).map (random f.clock)))

/-- The inner loop of `overwrite_in_place`. -/
def overwriteBlocks (remaining : ℕ) : FileM Unit :=
  if _h : remaining = 0 then pure ()
  else do
    let chunk := min remaining 4096
    let block ← fillBytes random chunk
    writeAll short block
    overwriteBlocks (remaining - chunk)
termination_by remaining
decreasing_by omega

/-- The outer loop. -/
def overwritePasses (len : ℕ) : ℕ → FileM Unit
  | 0 => pure ()
  | passes + 1 => do
    seek 0
    overwriteBlocks short random len
    syncAll
    overwritePasses len passes

/-- `overwrite_in_place`. -/
def overwriteInPlace (passes : ℕ) : FileM Unit := do
  let len ← metadata
  openWrite
  if len = 0 then syncAll
  else overwritePasses short random len passes

end Program

/-! ## Writes without a gap -/

/-- A write: where it begins, and what it writes. -/
abbrev Written := ℕ × Bytes

/-- The byte at a position is among those written. -/
def Written.At (i : ℕ) (w : Written) : Prop := w.1 ≤ i ∧ i < w.1 + w.2.length

instance (i : ℕ) : DecidablePred (Written.At i) := fun _ => inferInstanceAs (Decidable (_ ∧ _))

/-- The writes go from one position to another, each from where the last one ended. -/
def Adjacent : ℕ → List Written → ℕ → Prop
  | pos, [], fin => pos = fin
  | pos, w :: ws, fin => w.1 = pos ∧ Adjacent (pos + w.2.length) ws fin

theorem Adjacent.append {pos mid fin : ℕ} {ws ws' : List Written} (h : Adjacent pos ws mid)
    (h' : Adjacent mid ws' fin) : Adjacent pos (ws ++ ws') fin := by
  induction ws generalizing pos with
  | nil =>
    obtain rfl : pos = mid := h
    exact h'
  | cons w ws ih => exact ⟨h.1, ih h.2⟩

theorem Adjacent.le {pos fin : ℕ} {ws : List Written} (h : Adjacent pos ws fin) : pos ≤ fin := by
  induction ws generalizing pos with
  | nil => exact Nat.le_of_eq h
  | cons w ws ih =>
    have hrest := ih h.2
    omega

/-- **Each byte between the ends is written once**, and no other. -/
theorem Adjacent.covered {pos fin : ℕ} {ws : List Written} (h : Adjacent pos ws fin) (i : ℕ) :
    ws.countP (Written.At i) = if pos ≤ i ∧ i < fin then 1 else 0 := by
  induction ws generalizing pos with
  | nil =>
    obtain rfl : pos = fin := h
    rw [List.countP_nil, if_neg (by omega)]
  | cons w ws ih =>
    obtain ⟨rfl, hrest⟩ := h
    have hle := hrest.le
    by_cases hi : Written.At i w
    · rw [List.countP_cons_of_pos (by simpa using hi), ih hrest]
      obtain ⟨hlow, hhigh⟩ := hi
      rw [if_neg (by omega), if_pos (by omega)]
    · rw [List.countP_cons_of_neg (by simpa using hi), ih hrest]
      have hout : ¬ (w.1 ≤ i ∧ i < w.1 + w.2.length) := hi
      split_ifs <;> omega

/-! ## What is written -/

/-- The writes among some calls, in their order. -/
def writesOf (calls : List FileCall) : List Written :=
  calls.filterMap fun
    | .write pos block => some (pos, block)
    | _ => none

/-- The calls of a pass that come between its `seek` and its `sync_all`. -/
def FileCall.Fills : FileCall → Prop
  | .random _ => True
  | .write _ _ => True
  | _ => False

theorem length_overwriteAt {pos : ℕ} {block content : Bytes}
    (h : pos + block.length ≤ content.length) :
    (StorageFs.overwriteAt pos block content).length = content.length := by
  rw [StorageFs.overwriteAt, List.length_append, List.length_append, List.length_take,
    List.length_drop]
  omega

/-- The calls of some steps. -/
abbrev callsOf (tr : List (Step FileCall Handle)) : List FileCall := tr.map (·.ev)

/-- What has been done on an open file by calls that went on to a position: they wrote up to there,
and the file is as long as it was, after each of them. -/
structure Wrote (f : Handle) (fin : ℕ) (r : Except Empty Unit) (tr : List (Step FileCall Handle))
    (f' : Handle) : Prop where
  ok : r = .ok ()
  cursor : f'.cursor = fin
  length : f'.content.length = f.content.length
  kept : ∀ call ∈ tr, call.after.content.length = f.content.length
  fills : ∀ call ∈ callsOf tr, call.Fills
  adjacent : Adjacent f.cursor (writesOf (callsOf tr)) fin

namespace Wrote

variable {f f' f'' : Handle} {mid fin : ℕ} {r r' : Except Empty Unit}
  {tr tr' : List (Step FileCall Handle)}

theorem refl (f : Handle) : Wrote f f.cursor (.ok ()) [] f where
  ok := rfl
  cursor := rfl
  length := rfl
  kept := by simp
  fills := by simp
  adjacent := rfl

theorem trans (h : Wrote f mid r tr f') (h' : Wrote f' fin r' tr' f'') :
    Wrote f fin r' (tr ++ tr') f'' where
  ok := h'.ok
  cursor := h'.cursor
  length := h'.length.trans h.length
  kept := by
    intro call hcall
    rcases List.mem_append.1 hcall with hcall | hcall
    · exact h.kept call hcall
    · exact (h'.kept call hcall).trans h.length
  fills := by
    intro call hcall
    rw [callsOf, List.map_append] at hcall
    rcases List.mem_append.1 hcall with hcall | hcall
    · exact h.fills call hcall
    · exact h'.fills call hcall
  adjacent := by
    have hnext := h'.adjacent
    rw [h.cursor] at hnext
    rw [callsOf, List.map_append, writesOf, List.filterMap_append]
    exact h.adjacent.append hnext

/-- One write. -/
theorem write {f : Handle} {block : Bytes} (h : f.cursor + block.length ≤ f.content.length) :
    Wrote f (f.cursor + block.length) (.ok ()) [⟨.write f.cursor block, f, f.put block⟩]
      (f.put block) where
  ok := rfl
  cursor := rfl
  length := length_overwriteAt h
  kept := by
    intro call hcall
    rw [List.mem_singleton.1 hcall]
    exact length_overwriteAt h
  fills := by simp [FileCall.Fills]
  adjacent := ⟨rfl, rfl⟩

end Wrote

section Spec

variable {short : ℕ → ℕ} {random : ℕ → ℕ → UInt8}

@[simp] theorem wp_metadata {f : Handle}
    {Q : Except Empty ℕ → List (Step FileCall Handle) → Handle → Prop} :
    Prog.wp metadata Q f ↔ Q (.ok f.content.length)
      [⟨.metadata f.content.length, f, ⟨f.content, f.cursor, f.clock + 1⟩⟩]
      ⟨f.content, f.cursor, f.clock + 1⟩ := Iff.rfl

@[simp] theorem wp_fillBytes {len : ℕ} {f : Handle}
    {Q : Except Empty Bytes → List (Step FileCall Handle) → Handle → Prop} :
    Prog.wp (fillBytes random len) Q f ↔
      Q (.ok ((List.range len).map (random f.clock))) [⟨.random len, f, f⟩] f := Iff.rfl

@[simp] theorem wp_quietCall {call : FileCall} {cursor : ℕ → ℕ} {f : Handle}
    {Q : Except Empty Unit → List (Step FileCall Handle) → Handle → Prop} :
    Prog.wp (quietCall call cursor) Q f ↔
      Q (.ok ()) [⟨call, f, ⟨f.content, cursor f.cursor, f.clock + 1⟩⟩]
        ⟨f.content, cursor f.cursor, f.clock + 1⟩ := Iff.rfl

/-- **`write_all` writes each byte of the block once**, however many calls of `write` it takes. -/
theorem writeAll_wrote {block : Bytes} {f : Handle}
    (h : f.cursor + block.length ≤ f.content.length) :
    Prog.wp (writeAll short block) (Wrote f (f.cursor + block.length)) f := by
  induction hn : block.length using Nat.strong_induction_on generalizing block f with
  | _ n ih =>
    subst hn
    rw [writeAll]
    split_ifs with hempty
    · subst hempty
      exact Wrote.refl f
    have hpos : 0 < block.length := List.length_pos_iff.2 hempty
    have htaken : (block.take (short f.clock + 1)).length ≤ block.length := List.length_take_le' ..
    have hsum : f.cursor + (block.take (short f.clock + 1)).length +
        (block.drop (short f.clock + 1)).length = f.cursor + block.length := by
      rw [List.length_take, List.length_drop]
      omega
    have hfits : f.cursor + (block.take (short f.clock + 1)).length ≤ f.content.length := by omega
    have hwrite := Wrote.write hfits
    have hrest := ih (block.drop (short f.clock + 1)).length (by rw [List.length_drop]; omega)
      (f := f.put (block.take (short f.clock + 1)))
      (by rw [hwrite.length, hwrite.cursor]; omega) rfl
    rw [hwrite.cursor, hsum] at hrest
    exact Prog.wp_act.2 (Prog.wp_mono hrest fun r tr f' hwrote => hwrite.trans hwrote)

/-- **One pass** goes through what remains of the file, and not beyond its end. -/
theorem overwriteBlocks_wrote {remaining : ℕ} {f : Handle}
    (h : f.cursor + remaining = f.content.length) :
    Prog.wp (overwriteBlocks short random remaining) (Wrote f f.content.length) f := by
  induction remaining using Nat.strong_induction_on generalizing f with
  | _ remaining ih =>
    rw [overwriteBlocks]
    split_ifs with hzero
    · subst hzero
      rw [← h]
      exact Wrote.refl f
    have hdraw : Wrote f f.cursor (.ok ()) [⟨.random (min remaining 4096), f, f⟩] f :=
      { Wrote.refl f with kept := by simp, fills := by simp [FileCall.Fills], adjacent := rfl }
    have hblock : ((List.range (min remaining 4096)).map (random f.clock)).length =
        min remaining 4096 := by simp
    rw [Prog.wp_bind, wp_fillBytes]
    dsimp only
    rw [Prog.wp_bind]
    refine Prog.wp_mono (writeAll_wrote (by rw [hblock]; omega)) fun r tr f' hwrote => ?_
    obtain rfl := hwrote.ok
    rw [hblock] at hwrote
    refine Prog.wp_mono (ih (remaining - min remaining 4096) (by omega) ?_) fun r tr' f'' hrest => ?_
    · rw [hwrote.cursor, hwrote.length]
      omega
    · rw [hwrote.length] at hrest
      exact hdraw.trans (hwrote.trans hrest)

/-- The calls of one pass over a file of a length: **each byte of the file is written once**, and
nothing else is. -/
def CoversOnce (len : ℕ) (round : List FileCall) : Prop :=
  ∃ fills, round = .seek 0 :: (fills ++ [.syncAll]) ∧ (∀ call ∈ fills, call.Fills) ∧
    ∀ i, (writesOf fills).countP (Written.At i) = if i < len then 1 else 0

/-- What all passes over a file have done. -/
structure Passed (passes : ℕ) (f : Handle) (r : Except Empty Unit)
    (tr : List (Step FileCall Handle)) (f' : Handle) : Prop where
  ok : r = .ok ()
  length : f'.content.length = f.content.length
  kept : ∀ call ∈ tr, call.after.content.length = f.content.length
  rounds : ∃ rounds : List (List FileCall), rounds.length = passes ∧
    (∀ round ∈ rounds, CoversOnce f.content.length round) ∧ callsOf tr = rounds.flatten

theorem overwritePasses_passed {passes : ℕ} {f : Handle} :
    Prog.wp (overwritePasses short random f.content.length passes) (Passed passes f) f := by
  induction passes generalizing f with
  | zero =>
    exact ⟨rfl, rfl, fun _ hcall => absurd hcall List.not_mem_nil, [], rfl, by simp, rfl⟩
  | succ passes ih =>
    rw [overwritePasses, Prog.wp_bind, seek, wp_quietCall]
    dsimp only
    rw [Prog.wp_bind]
    refine Prog.wp_mono (overwriteBlocks_wrote (f := ⟨f.content, 0, f.clock + 1⟩)
      (Nat.zero_add _)) fun r tr f' hwrote => ?_
    obtain rfl := hwrote.ok
    have hlength : f'.content.length = f.content.length := hwrote.length
    dsimp only
    rw [Prog.wp_bind, syncAll, wp_quietCall]
    dsimp only
    rw [← hlength]
    refine Prog.wp_mono (ih (f := ⟨f'.content, f'.cursor, f'.clock + 1⟩))
      fun r tr' f'' hpassed => ?_
    obtain ⟨rounds, hrounds, hcovers, hcalls⟩ := hpassed.rounds
    rw [hlength] at hcovers
    have hround : CoversOnce f.content.length (.seek 0 :: (callsOf tr ++ [.syncAll])) := by
      refine ⟨callsOf tr, rfl, hwrote.fills, fun i => ?_⟩
      rw [hwrote.adjacent.covered]
      simp
    refine ⟨hpassed.ok, hpassed.length.trans hlength, fun call hcall => ?_,
      (.seek 0 :: (callsOf tr ++ [.syncAll])) :: rounds, by rw [List.length_cons, hrounds],
      List.forall_mem_cons.2 ⟨hround, hcovers⟩, by simp [callsOf, hcalls]⟩
    simp only [List.singleton_append, List.mem_cons, List.mem_append] at hcall
    rcases hcall with rfl | hcall | rfl | hcall
    · rfl
    · exact hwrote.kept call hcall
    · exact hlength
    · exact (hpassed.kept call hcall).trans hlength

end Spec

/-- `overwrite_in_place` ends, **each of its passes writes every byte of the file once** and nothing
beyond it, and the length of the file is the same after each call. -/
theorem shred_covers (short : ℕ → ℕ) (random : ℕ → ℕ → UInt8) (passes : ℕ) (f : Handle) :
    Prog.wp (overwriteInPlace short random passes) (fun r tr f' =>
      r = .ok () ∧ f'.content.length = f.content.length ∧
        (∀ call ∈ tr, call.after.content.length = f.content.length) ∧
        (f.content = [] → callsOf tr = [.metadata 0, .opened, .syncAll]) ∧
        (f.content ≠ [] → ∃ rounds : List (List FileCall), rounds.length = passes ∧
          (∀ round ∈ rounds, CoversOnce f.content.length round) ∧
          callsOf tr = .metadata f.content.length :: .opened :: rounds.flatten)) f := by
  rw [overwriteInPlace, Prog.wp_bind, wp_metadata]
  dsimp only
  rw [Prog.wp_bind, openWrite, wp_quietCall]
  dsimp only
  split_ifs with hempty
  · rw [syncAll, wp_quietCall]
    rw [List.length_eq_zero_iff] at hempty
    simp [hempty, callsOf]
  · refine Prog.wp_mono (overwritePasses_passed (f := ⟨f.content, 0, f.clock + 1 + 1⟩))
      fun r tr f' hpassed => ?_
    obtain ⟨rounds, hrounds, hcovers, hcalls⟩ := hpassed.rounds
    refine ⟨hpassed.ok, hpassed.length, fun call hcall => ?_, fun hnil => ?_,
      fun _ => ⟨rounds, hrounds, hcovers, by simpa [callsOf] using hcalls⟩⟩
    · simp only [List.singleton_append, List.mem_cons] at hcall
      rcases hcall with rfl | rfl | hcall
      · rfl
      · rfl
      · exact hpassed.kept call hcall
    · exact absurd (List.length_eq_zero_iff.2 hnil) hempty

/-! ## On a file tree -/

/-- A write takes all it is given. -/
def whole : ℕ → ℕ := fun _ => 4095

/-- The disk with an open file in it. -/
def Handle.onDisk (t : FileTree FileName Bytes) (x : List FileName) (f : Handle) : Disk FileName :=
  ⟨t.set x (.file f.content), f.clock⟩

section Tree

variable {os : Os} {t : FileTree FileName Bytes} {x : List FileName} {c : Bytes} {f : Handle}

theorem run_writeAll_whole {block : Bytes} (hne : block ≠ []) (hle : block.length ≤ 4096) :
    (writeAll whole block).run f = (.ok (), f.put block) := by
  rw [writeAll, dif_neg hne]
  simp only [whole, Prog.run]
  rw [List.take_of_length_le hle, List.drop_of_length_le hle, writeAll, dif_pos rfl]
  rfl

@[simp] theorem run_metadata :
    metadata.run f = (.ok f.content.length, ⟨f.content, f.cursor, f.clock + 1⟩) := rfl

@[simp] theorem run_fillBytes {random : ℕ → ℕ → UInt8} {len : ℕ} :
    (fillBytes random len).run f = (.ok ((List.range len).map (random f.clock)), f) := rfl

@[simp] theorem run_quietCall {call : FileCall} {cursor : ℕ → ℕ} :
    (quietCall call cursor).run f = (.ok (), ⟨f.content, cursor f.cursor, f.clock + 1⟩) := rfl

/-- **A pass** does to a file tree what it does to the open file. -/
theorem run_overwriteBlocks (hquiet : os.Quiet) (hfile : t.get x = some (.file c))
    (remaining : ℕ) :
    ∃ f', (overwriteBlocks whole os.random remaining).run f = (.ok (), f') ∧
      (StorageFs.overwriteBlocks os x f.cursor remaining).run (f.onDisk t x) =
        (.ok (), f'.onDisk t x) := by
  induction remaining using Nat.strong_induction_on generalizing f with
  | _ remaining ih =>
    rw [StorageFs.overwriteBlocks, overwriteBlocks]
    split_ifs with hzero
    · exact ⟨f, rfl, rfl⟩
    have hlength : ((List.range (min remaining 4096)).map (os.random f.clock)).length =
        min remaining 4096 := by simp
    have hne : (List.range (min remaining 4096)).map (os.random f.clock) ≠ [] := by
      rw [← List.length_pos_iff]
      omega
    obtain ⟨f', hf', hdisk⟩ := ih (remaining - min remaining 4096) (by omega)
      (f := f.put ((List.range (min remaining 4096)).map (os.random f.clock)))
    refine ⟨f', ?_, ?_⟩
    · rw [Prog.run_bind, run_fillBytes]
      dsimp only
      rw [Prog.run_bind, run_writeAll_whole hne (by omega)]
      exact hf'
    · have hput : (f.put ((List.range (min remaining 4096)).map (os.random f.clock))).cursor =
          f.cursor + min remaining 4096 := by rw [Handle.put, hlength]
      rw [hput] at hdisk
      have hwrite : (f.onDisk t x).tree.modify x (StorageFs.overwriteAt f.cursor
          ((List.range (min remaining 4096)).map (os.random f.clock))) =
          t.set x (.file (f.put ((List.range (min remaining 4096)).map
            (os.random f.clock))).content) :=
        FileTree.modify_set fun _ => FileTree.canSet_of_file hfile
      rw [Prog.run_bind, run_ask]
      dsimp only
      rw [Prog.run_bind, writeTo, run_sys hquiet]
      dsimp only
      rw [Handle.onDisk] at hwrite ⊢
      rw [hwrite]
      exact hdisk

/-- **All passes** do to a file tree what they do to the open file. -/
theorem run_overwritePasses (hquiet : os.Quiet) (hfile : t.get x = some (.file c))
    (len passes : ℕ) :
    ∃ f', (overwritePasses whole os.random len passes).run f = (.ok (), f') ∧
      (StorageFs.overwritePasses os x len passes).run (f.onDisk t x) =
        (.ok (), f'.onDisk t x) := by
  induction passes generalizing f with
  | zero => exact ⟨f, rfl, rfl⟩
  | succ passes ih =>
    obtain ⟨f₁, hf₁, hdisk₁⟩ := run_overwriteBlocks hquiet hfile len
      (f := ⟨f.content, 0, f.clock + 1⟩)
    obtain ⟨f₂, hf₂, hdisk₂⟩ := ih (f := ⟨f₁.content, f₁.cursor, f₁.clock + 1⟩)
    refine ⟨f₂, ?_, ?_⟩
    · rw [overwritePasses, Prog.run_bind, seek, run_quietCall]
      dsimp only
      rw [Prog.run_bind, hf₁]
      dsimp only
      rw [Prog.run_bind, syncAll, run_quietCall]
      exact hf₂
    · rw [StorageFs.overwritePasses, Prog.run_bind, Bypass.seek, run_sys hquiet]
      dsimp only
      change Prog.run _ (Handle.onDisk t x ⟨f.content, 0, f.clock + 1⟩) = _
      rw [Prog.run_bind, hdisk₁]
      dsimp only
      rw [Prog.run_bind, Bypass.syncAll, run_sys hquiet]
      exact hdisk₂

/-- **With writes that take all they are given**, this is the overwriting of a file tree. -/
theorem overwriteInPlace_refines {d : Disk FileName} (hquiet : os.Quiet)
    (hfile : d.tree.get x = some (.file c)) (passes : ℕ) :
    ∃ f', (overwriteInPlace whole os.random passes).run ⟨c, 0, d.clock⟩ = (.ok (), f') ∧
      (StorageFs.overwriteInPlace os x passes).run d = (.ok (), f'.onDisk d.tree x) := by
  have hclear := FileTree.clear_of_get hfile (by simp)
  have hstat : d.tree.nodeAt true x = .ok (.file c) := by rw [FileTree.nodeAt_clear hclear, hfile]
  have hopen : d.tree.openFile x = .ok x := by
    rw [FileTree.openFile, FileTree.locate_of_get hfile (by simp)]
    dsimp only [Except.bind]
    rw [hfile]
  have hself : d.tree.set x (.file c) = d.tree :=
    FileTree.set_self (FileTree.canSet_of_file hfile) hfile
  rw [StorageFs.overwriteInPlace, Prog.run_bind, stat, run_sys hquiet]
  dsimp only
  rw [hstat]
  dsimp only
  rw [Prog.run_bind, Bypass.openWrite, run_sys hquiet]
  dsimp only
  rw [hopen]
  dsimp only
  rw [overwriteInPlace, Prog.run_bind, run_metadata]
  dsimp only
  rw [Prog.run_bind, openWrite, run_quietCall]
  dsimp only
  have hdisk : (⟨d.tree, d.clock + 1 + 1⟩ : Disk FileName) =
      Handle.onDisk d.tree x ⟨c, 0, d.clock + 1 + 1⟩ := by rw [Handle.onDisk, hself]
  split_ifs with hempty
  · rw [syncAll, run_quietCall, Bypass.syncAll, run_sys hquiet]
    exact ⟨_, rfl, by rw [Handle.onDisk, hself]⟩
  · rw [hdisk]
    exact run_overwritePasses hquiet hfile c.length passes

end Tree

end Shred

end Bypass
