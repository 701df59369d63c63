import Bypass.Core.StoreMap
import Bypass.Foundations.Alike

/-!
# A storage that is a map for a while

A real storage is not a map of paths to bytes: it has directories, files of others, names that it
keeps to itself. It may still be one for the paths that a store uses, as long as some invariant
holds. `OnMapWhile` says so of one: what `OnMap` asks of every call, it asks of the calls on a scope
of entries and directories, where `I` holds, which they keep.

* `Store.guarded`: the store whose storage fails on any other call. It is on a map
  (`OnMapWhile.guarded`).
* `program_alike`: **an operation within the scope does not tell the two apart**.
* `runOps_refines_while`: **every such run of the store is a run of the map**.
-/

namespace Bypass

variable {W CE SE VE : Type}

/-! ## Paths in use -/

/-- What operations may be about: entries, which are in the directories `dirs` or at the root, and
the directories that may be listed. -/
structure Scope where
  dirs : Set RelPath
  entry : RelPath → Prop
  list : Option RelPath → Prop

/-- All entries in the directories `dirs` or at the root. -/
def Scope.below (dirs : Set RelPath) : Scope where
  dirs
  entry e := ∀ q ∈ e.parent, q ∈ dirs
  list d := ∀ q ∈ d, q ∈ dirs

/-- A path that the operations use: the blob of an entry, or a recipients file. -/
def Reached (scope : Scope) (p : RelPath) : Prop :=
  (∃ d : Option RelPath, (∀ q ∈ d, q ∈ scope.dirs) ∧ p = gpgIdIn d) ∨
    ∃ e : RelPath, scope.entry e ∧ p = entryToBlob e

/-- An operation on these entries. -/
def Op.Within (scope : Scope) : Op → Prop
  | .insert entry _ _ => scope.entry entry
  | .insertNoCommit entry _ => scope.entry entry
  | .show entry => scope.entry entry
  | .list subpath => scope.list subpath
  | .find _ => scope.list none
  | .remove entry => scope.entry entry
  | .copy source dest _ => scope.entry source ∧ scope.entry dest
  | .rename source dest _ => scope.entry source ∧ scope.entry dest
  | .removeRecursive dir => scope.list (some dir)

theorem reached_gpgIdIn {scope : Scope} {d : Option RelPath} (h : ∀ q ∈ d, q ∈ scope.dirs) :
    Reached scope (gpgIdIn d) :=
  Or.inl ⟨d, h, rfl⟩

theorem reached_entryToBlob {scope : Scope} {e : RelPath} (h : scope.entry e) :
    Reached scope (entryToBlob e) :=
  Or.inr ⟨e, h, rfl⟩

/-! ## The promise -/

/-- **The storage is a map within the scope while `I` holds**, and the calls keep `I`. -/
structure OnMapWhile (I : W → Prop) (scope : Scope) (store : Store W CE SE VE)
    (files : W → Files) : Prop where
  parent : ∀ p q, p ∈ scope.dirs → p.parent = some q → q ∈ scope.dirs
  inside : ∀ e, scope.entry e → ∀ q ∈ e.parent, q ∈ scope.dirs
  /-- What is found below a directory that may be listed is in the scope. -/
  listed : ∀ w d e, I w → scope.list d → (files w (entryToBlob e)).isSome = true →
    scope.entry e
  encrypt : ∀ p rs w, I w → I (store.crypto.encryptFn p rs w).2 ∧
    files (store.crypto.encryptFn p rs w).2 = files w
  decrypt : ∀ c w, I w → I (store.crypto.decryptFn c w).2 ∧
    files (store.crypto.decryptFn c w).2 = files w
  read : ∀ p w, Reached scope p → I w → I (store.storage.readFn p w).2 ∧
    files (store.storage.readFn p w).2 = files w ∧
    ∀ v, (store.storage.readFn p w).1 = .ok v → v = files w p
  write : ∀ p d w, Reached scope p → I w → I (store.storage.writeFn p d w).2 ∧
    (∀ q, q ≠ p → files (store.storage.writeFn p d w).2 q = files w q) ∧
    ((store.storage.writeFn p d w).1 = .ok () →
      files (store.storage.writeFn p d w).2 = Function.update (files w) p (some d))
  remove : ∀ p w, Reached scope p → I w → I (store.storage.removeFn p w).2 ∧
    (∀ q, q ≠ p → files (store.storage.removeFn p w).2 q = files w q) ∧
    ((store.storage.removeFn p w).1 = .ok () →
      files (store.storage.removeFn p w).2 = Function.update (files w) p none)
  exists_ : ∀ p w, Reached scope p → I w → I (store.storage.existsFn p w).2 ∧
    files (store.storage.existsFn p w).2 = files w ∧
    ∀ b, (store.storage.existsFn p w).1 = .ok b → b = (files w p).isSome
  list : ∀ d w, scope.list d → I w → I (store.storage.listFn d w).2 ∧
    files (store.storage.listFn d w).2 = files w ∧
    ∀ l, (store.storage.listFn d w).1 = .ok l →
      l.Nodup ∧ ∀ q, q ∈ l ↔ (files w q).isSome ∧ ∀ p ∈ d, p.Below q
  commit : ∀ ps m w, I w → I (store.vcs.commitFn ps m w).2 ∧
    files (store.vcs.commitFn ps m w).2 = files w

section Guard

open Classical in
/-- A call where `c` holds; the world is as it was where it does not. -/
noncomputable def guardAnswer {ε α : Type} (c : Prop) (call : Except ε α × W)
    (other : Except ε α) (w : W) : Except ε α × W :=
  if c then call else (other, w)

theorem guardAnswer_pos {ε α : Type} {c : Prop} (h : c) (call : Except ε α × W)
    (other : Except ε α) (w : W) : guardAnswer c call other w = call := if_pos h

/-- What holds of a guarded call, by whether it is made. -/
theorem guardAnswer_cases {ε α : Type} {c : Prop} {call : Except ε α × W} {other : Except ε α}
    {w : W} {P : Except ε α × W → Prop} (hmade : c → P call) (hnot : P (other, w)) :
    P (guardAnswer c call other w) := by
  rw [guardAnswer]
  split_ifs with hc
  · exact hmade hc
  · exact hnot

/-- **The store whose storage fails outside**: where `I` does not hold, or on a path that is not in
the scope. -/
noncomputable def Store.guarded (I : W → Prop) (scope : Scope) (fail : SE)
    (store : Store W CE SE VE) : Store W CE SE VE where
  crypto := {
    encryptFn := fun p rs w =>
      guardAnswer (I w) (store.crypto.encryptFn p rs w) (store.crypto.encryptFn p rs w).1 w
    decryptFn := fun c w =>
      guardAnswer (I w) (store.crypto.decryptFn c w) (store.crypto.decryptFn c w).1 w }
  storage := {
    readFn := fun p w => guardAnswer (Reached scope p ∧ I w) (store.storage.readFn p w) (.error fail) w
    writeFn := fun p d w =>
      guardAnswer (Reached scope p ∧ I w) (store.storage.writeFn p d w) (.error fail) w
    removeFn := fun p w =>
      guardAnswer (Reached scope p ∧ I w) (store.storage.removeFn p w) (.error fail) w
    existsFn := fun p w =>
      guardAnswer (Reached scope p ∧ I w) (store.storage.existsFn p w) (.error fail) w
    listFn := fun d w =>
      guardAnswer (scope.list d ∧ I w) (store.storage.listFn d w) (.error fail) w }
  vcs := {
    commitFn := fun ps m w =>
      guardAnswer (I w) (store.vcs.commitFn ps m w) (store.vcs.commitFn ps m w).1 w }

variable {I : W → Prop} {scope : Scope} {fail : SE} {store : Store W CE SE VE}
  {files : W → Files}

theorem guarded_encrypt_fst (p : Bytes) (rs : List KeyId) (w : W) :
    ((store.guarded I scope fail).crypto.encryptFn p rs w).1 = (store.crypto.encryptFn p rs w).1 :=
  guardAnswer_cases (P := fun r => r.1 = (store.crypto.encryptFn p rs w).1) (fun _ => rfl) rfl

theorem guarded_decrypt_fst (c : Bytes) (w : W) :
    ((store.guarded I scope fail).crypto.decryptFn c w).1 = (store.crypto.decryptFn c w).1 :=
  guardAnswer_cases (P := fun r => r.1 = (store.crypto.decryptFn c w).1) (fun _ => rfl) rfl

/-- **The guarded store is on a map.** -/
theorem OnMapWhile.guarded (h : OnMapWhile I scope store files) (fail : SE) :
    OnMap (store.guarded I scope fail) files where
  encrypt_files p rs w := guardAnswer_cases (P := fun r => files r.2 = files w)
    (fun hw => (h.encrypt p rs w hw).2) rfl
  decrypt_files c w := guardAnswer_cases (P := fun r => files r.2 = files w)
    (fun hw => (h.decrypt c w hw).2) rfl
  read_files p w := guardAnswer_cases (P := fun r => files r.2 = files w)
    (fun hw => (h.read p w hw.1 hw.2).2.1) rfl
  read_ok p w := guardAnswer_cases (P := fun r => ∀ v, r.1 = .ok v → v = files w p)
    (fun hw => (h.read p w hw.1 hw.2).2.2) nofun
  write_frame p d w := guardAnswer_cases (P := fun r => ∀ q, q ≠ p → files r.2 q = files w q)
    (fun hw => (h.write p d w hw.1 hw.2).2.1) fun _ _ => rfl
  write_ok p d w := guardAnswer_cases
    (P := fun r => r.1 = .ok () → files r.2 = Function.update (files w) p (some d))
    (fun hw => (h.write p d w hw.1 hw.2).2.2) nofun
  remove_frame p w := guardAnswer_cases (P := fun r => ∀ q, q ≠ p → files r.2 q = files w q)
    (fun hw => (h.remove p w hw.1 hw.2).2.1) fun _ _ => rfl
  remove_ok p w := guardAnswer_cases
    (P := fun r => r.1 = .ok () → files r.2 = Function.update (files w) p none)
    (fun hw => (h.remove p w hw.1 hw.2).2.2) nofun
  exists_files p w := guardAnswer_cases (P := fun r => files r.2 = files w)
    (fun hw => (h.exists_ p w hw.1 hw.2).2.1) rfl
  exists_ok p w := guardAnswer_cases (P := fun r => ∀ b, r.1 = .ok b → b = (files w p).isSome)
    (fun hw => (h.exists_ p w hw.1 hw.2).2.2) nofun
  list_files d w := guardAnswer_cases (P := fun r => files r.2 = files w)
    (fun hw => (h.list d w hw.1 hw.2).2.1) rfl
  list_nodup d w := guardAnswer_cases (P := fun r => ∀ l : List RelPath, r.1 = .ok l → l.Nodup)
    (fun hw l hl => ((h.list d w hw.1 hw.2).2.2 l hl).1) nofun
  mem_list d w := guardAnswer_cases (P := fun r => ∀ l : List RelPath, r.1 = .ok l →
      ∀ q, q ∈ l ↔ (files w q).isSome ∧ ∀ p ∈ d, p.Below q)
    (fun hw l hl => ((h.list d w hw.1 hw.2).2.2 l hl).2) nofun
  commit_files ps m w := guardAnswer_cases (P := fun r => files r.2 = files w)
    (fun hw => (h.commit ps m w hw).2) rfl

/-- What the store decrypts and encrypts, the guarded store does. -/
theorem roundTrip_guarded (hrt : RoundTrip store) : RoundTrip (store.guarded I scope fail) := by
  intro p rs w c hc w' q hq
  rw [guarded_encrypt_fst] at hc
  rw [guarded_decrypt_fst] at hq
  exact hrt p rs w c hc w' q hq

theorem holds_guarded {f : Files} {m : EntryMap} :
    Holds (store.guarded I scope fail) f m ↔ Holds store f m := by
  have hsame (c p : Bytes) : Decrypts (store.guarded I scope fail) c p = Decrypts store c p := by
    simp only [Decrypts, guarded_decrypt_fst]
  have hfun : Decrypts (store.guarded I scope fail) = Decrypts store := by
    funext c p
    exact hsame c p
  rw [Holds, Holds, hfun]

end Guard

/-! ## Operations -/

section Alike

open Prog (Alike alike_pure alike_throw alike_call)

variable {I : W → Prop} {scope : Scope} {fail : SE} {store : Store W CE SE VE}
  {files : W → Files} (h : OnMapWhile I scope store files)
include h

theorem read_alike {p : RelPath} (hp : Reached scope p) :
    Alike I (fun _ => True) (store.storage.read p : Prog (Event CE SE VE) W SE _)
      ((store.guarded I scope fail).storage.read p) :=
  alike_call (fun _ hw => (guardAnswer_pos ⟨hp, hw⟩ _ _ _).symm) (fun w hw => (h.read p w hp hw).1)
    fun _ _ _ _ => trivial

theorem write_alike {p : RelPath} (d : Bytes) (hp : Reached scope p) :
    Alike I (fun _ => True) (store.storage.write p d : Prog (Event CE SE VE) W SE _)
      ((store.guarded I scope fail).storage.write p d) :=
  alike_call (fun _ hw => (guardAnswer_pos ⟨hp, hw⟩ _ _ _).symm)
    (fun w hw => (h.write p d w hp hw).1) fun _ _ _ _ => trivial

theorem remove_alike {p : RelPath} (hp : Reached scope p) :
    Alike I (fun _ => True) (store.storage.remove p : Prog (Event CE SE VE) W SE _)
      ((store.guarded I scope fail).storage.remove p) :=
  alike_call (fun _ hw => (guardAnswer_pos ⟨hp, hw⟩ _ _ _).symm)
    (fun w hw => (h.remove p w hp hw).1) fun _ _ _ _ => trivial

theorem exists_alike {p : RelPath} (hp : Reached scope p) :
    Alike I (fun _ => True) (store.storage.exists p : Prog (Event CE SE VE) W SE _)
      ((store.guarded I scope fail).storage.exists p) :=
  alike_call (fun _ hw => (guardAnswer_pos ⟨hp, hw⟩ _ _ _).symm)
    (fun w hw => (h.exists_ p w hp hw).1) fun _ _ _ _ => trivial

/-- What is listed are blobs of entries of the scope, and files that are not blobs. -/
theorem storage_list_alike {d : Option RelPath} (hd : scope.list d) :
    Alike I (fun l => ∀ e, entryToBlob e ∈ l → scope.entry e)
      (store.storage.list d : Prog (Event CE SE VE) W SE _)
      ((store.guarded I scope fail).storage.list d) := by
  refine alike_call (fun _ hw => (guardAnswer_pos ⟨hd, hw⟩ _ _ _).symm)
    (fun w hw => (h.list d w hd hw).1) fun w l hw hl e he => ?_
  exact h.listed w d e hw hd ((((h.list d w hd hw).2.2 l hl).2 _).1 he).1

theorem encrypt_alike (p : Bytes) (rs : List KeyId) :
    Alike I (fun _ => True) (store.crypto.encrypt p rs : Prog (Event CE SE VE) W CE _)
      ((store.guarded I scope fail).crypto.encrypt p rs) :=
  alike_call (fun _ hw => (guardAnswer_pos hw _ _ _).symm) (fun w hw => (h.encrypt p rs w hw).1)
    fun _ _ _ _ => trivial

theorem decrypt_alike (c : Bytes) :
    Alike I (fun _ => True) (store.crypto.decrypt c : Prog (Event CE SE VE) W CE _)
      ((store.guarded I scope fail).crypto.decrypt c) :=
  alike_call (fun _ hw => (guardAnswer_pos hw _ _ _).symm) (fun w hw => (h.decrypt c w hw).1)
    fun _ _ _ _ => trivial

theorem commit_alike (ps : List RelPath) (m : Str) :
    Alike I (fun _ => True) (store.vcs.commit ps m : Prog (Event CE SE VE) W VE _)
      ((store.guarded I scope fail).vcs.commit ps m) :=
  alike_call (fun _ hw => (guardAnswer_pos hw _ _ _).symm) (fun w hw => (h.commit ps m w hw).1)
    fun _ _ _ _ => trivial

/-- The walk up to the recipients stays in the directories. -/
theorem resolveFrom_alike {current : Option RelPath} (hcurrent : ∀ q ∈ current, q ∈ scope.dirs) :
    Alike I (fun _ => True)
      (resolveFrom store.storage current : Prog (Event CE SE VE) W (GpgIdError SE) _)
      (resolveFrom (store.guarded I scope fail).storage current) := by
  induction hn : depth current using Nat.strong_induction_on generalizing current with
  | _ n ih =>
    rw [resolveFrom.eq_def, resolveFrom.eq_def (store.guarded I scope fail).storage]
    refine ((read_alike h (reached_gpgIdIn hcurrent)).mapErr _).bind fun v _ => ?_
    cases v with
    | some bytes =>
      dsimp only
      split
      · exact alike_pure trivial
      · exact alike_throw _
    | none =>
      cases current with
      | none => exact alike_throw _
      | some p =>
        exact ih _ (hn ▸ depth_parent_lt p) (fun q hq => h.parent p q (hcurrent p rfl) hq) rfl

theorem resolve_alike {e : RelPath} (he : scope.entry e) :
    Alike I (fun _ => True)
      (resolveRecipients store.storage e : Prog (Event CE SE VE) W (GpgIdError SE) _)
      (resolveRecipients (store.guarded I scope fail).storage e) :=
  resolveFrom_alike h (h.inside e he)

theorem taken_alike {e : RelPath} (overwrite : Bool) (he : scope.entry e) :
    Alike I (fun _ => True) (store.taken (entryToBlob e) overwrite)
      ((store.guarded I scope fail).taken (entryToBlob e) overwrite) :=
  (alike_pure trivial).ite ((exists_alike h (reached_entryToBlob he)).mapErr _)

theorem insert_alike {e : RelPath} (p : Bytes) (overwrite : Bool)
    (he : scope.entry e) : Alike I (fun _ => True) (store.insert e p overwrite)
      ((store.guarded I scope fail).insert e p overwrite) := by
  refine (taken_alike h overwrite he).bind fun taken _ => (alike_throw _).ite ?_
  refine ((resolve_alike h he).mapErr _).bind fun rs _ => ?_
  refine ((encrypt_alike h p rs).mapErr _).bind fun c _ => ?_
  refine ((write_alike h c (reached_entryToBlob he)).mapErr _).bind fun _ _ => ?_
  exact (commit_alike h _ _).mapErr _

theorem insertNoCommit_alike {e : RelPath} (p : Bytes) (he : scope.entry e) :
    Alike I (fun _ => True) (store.insertNoCommit e p)
      ((store.guarded I scope fail).insertNoCommit e p) := by
  refine ((resolve_alike h he).mapErr _).bind fun rs _ => ?_
  refine ((encrypt_alike h p rs).mapErr _).bind fun c _ => ?_
  refine ((remove_alike h (reached_entryToBlob he)).mapErr _).bind fun _ _ => ?_
  refine ((write_alike h c (reached_entryToBlob he)).mapErr _).bind fun _ _ => ?_
  exact alike_pure trivial

theorem show_alike {e : RelPath} (he : scope.entry e) :
    Alike I (fun _ => True) (store.show e) ((store.guarded I scope fail).show e) := by
  refine ((read_alike h (reached_entryToBlob he)).mapErr _).bind fun v _ => ?_
  cases v with
  | none => exact alike_throw _
  | some c => exact (decrypt_alike h c).mapErr _

/-- The entries that are listed are in the scope. -/
theorem list_alike {d : Option RelPath} (hd : scope.list d) :
    Alike I (fun l => ∀ e ∈ l, scope.entry e) (store.list d)
      ((store.guarded I scope fail).list d) := by
  refine ((storage_list_alike h hd).mapErr _).bind fun blobs hblobs => alike_pure fun e he => ?_
  obtain ⟨b, hb, heq⟩ := List.mem_filterMap.1 ((List.mem_insertionSort _).1 he)
  exact hblobs e (blobToEntry_eq_some.1 heq ▸ hb)

theorem entry_remove_alike {e : RelPath} (he : scope.entry e) :
    Alike I (fun _ => True) (store.remove e) ((store.guarded I scope fail).remove e) := by
  refine ((exists_alike h (reached_entryToBlob he)).mapErr _).bind fun present _ => ?_
  refine Alike.ite (c := present = true) ?_ (alike_throw _)
  refine ((remove_alike h (reached_entryToBlob he)).mapErr _).bind fun _ _ => ?_
  exact (commit_alike h _ _).mapErr _

theorem transferBlob_alike {source dest : RelPath} (overwrite : Bool)
    (hsource : scope.entry source) (hdest : scope.entry dest) :
    Alike I (fun blob => blob = entryToBlob dest) (store.transferBlob source dest overwrite)
      ((store.guarded I scope fail).transferBlob source dest overwrite) := by
  refine (taken_alike h overwrite hdest).bind fun taken _ => (alike_throw _).ite ?_
  refine ((read_alike h (reached_entryToBlob hsource)).mapErr _).bind fun v _ => ?_
  cases v with
  | none => exact alike_throw _
  | some c =>
    refine ((resolve_alike h hsource).mapErr _).bind fun rs _ => ?_
    refine ((resolve_alike h hdest).mapErr _).bind fun rd _ => ?_
    -- both ways end in the same write
    have hwrite (c' : Bytes) : Alike I (fun blob => blob = entryToBlob dest)
        (do (store.storage.write (entryToBlob dest) c').mapErr .storage; pure (entryToBlob dest) :
          StoreM W CE SE VE RelPath)
        (do
          ((store.guarded I scope fail).storage.write (entryToBlob dest) c').mapErr .storage
          pure (entryToBlob dest)) :=
      ((write_alike h c' (reached_entryToBlob hdest)).mapErr _).bind fun _ _ => alike_pure rfl
    refine Alike.ite (hwrite c) ?_
    refine ((decrypt_alike h c).mapErr _).bind fun p _ => ?_
    exact ((encrypt_alike h p rd).mapErr _).bind fun c' _ => hwrite c'

theorem removeEntries_alike {entries : List RelPath}
    (hentries : ∀ e ∈ entries, scope.entry e) :
    Alike I (fun _ => True) (store.removeEntries entries)
      ((store.guarded I scope fail).removeEntries entries) := by
  induction entries with
  | nil => exact alike_pure trivial
  | cons e es ih =>
    obtain ⟨he, hes⟩ := List.forall_mem_cons.1 hentries
    refine ((remove_alike h (reached_entryToBlob he)).mapErr _).bind fun _ _ => ?_
    exact (ih hes).bind fun _ _ => alike_pure trivial

/-- **An operation does not tell the stores apart.** -/
theorem program_alike (fail : SE) {op : Op} (hop : op.Within scope) :
    Alike I (fun _ => True) (store.program op) ((store.guarded I scope fail).program op) := by
  cases op with
  | insert e p overwrite => exact (insert_alike h p overwrite hop).bind fun _ _ => alike_pure trivial
  | insertNoCommit e p => exact (insertNoCommit_alike h p hop).bind fun _ _ => alike_pure trivial
  | «show» e => exact (show_alike h hop).bind fun _ _ => alike_pure trivial
  | list subpath => exact (list_alike h hop).bind fun _ _ => alike_pure trivial
  | find pattern =>
    refine Alike.bind (Q := fun _ => True) ?_ fun _ _ => alike_pure trivial
    exact (list_alike h hop).bind fun _ _ => alike_pure trivial
  | remove e => exact (entry_remove_alike h hop).bind fun _ _ => alike_pure trivial
  | copy source dest overwrite =>
    refine Alike.bind (Q := fun _ => True) ?_ fun _ _ => alike_pure trivial
    refine (transferBlob_alike h overwrite hop.1 hop.2).bind fun _ _ => ?_
    exact (commit_alike h _ _).mapErr _
  | rename source dest overwrite =>
    refine Alike.bind (Q := fun _ => True) ((alike_pure trivial).ite ?_)
      fun _ _ => alike_pure trivial
    refine (transferBlob_alike h overwrite hop.1 hop.2).bind fun _ _ => ?_
    refine ((remove_alike h (reached_entryToBlob hop.1)).mapErr _).bind fun _ _ => ?_
    exact (commit_alike h _ _).mapErr _
  | removeRecursive dir =>
    refine Alike.bind (Q := fun _ => True) ?_ fun _ _ => alike_pure trivial
    refine (list_alike h hop).bind fun entries hentries => ?_
    refine (alike_throw _).ite ((removeEntries_alike h hentries).bind fun _ _ => ?_)
    exact ((commit_alike h _ _).mapErr _).bind fun _ _ => alike_pure trivial

/-- Nor does a run. -/
theorem runOps_alike (fail : SE) {ops : List Op} (hops : ∀ op ∈ ops, op.Within scope) {w : W}
    (hw : I w) :
    store.runOps ops w = (store.guarded I scope fail).runOps ops w ∧
      store.traceOps ops w = (store.guarded I scope fail).traceOps ops w ∧
      I (store.runOps ops w).2 := by
  induction ops generalizing w with
  | nil => exact ⟨rfl, rfl, hw⟩
  | cons op ops ih =>
    obtain ⟨hop, hops⟩ := List.forall_mem_cons.1 hops
    obtain ⟨hrun, htrace, hI, -⟩ := program_alike h fail hop w hw
    obtain ⟨hruns, htraces, hend⟩ := ih hops hI
    rw [Store.runOps_cons, Store.runOps_cons, Store.traceOps_cons, Store.traceOps_cons, ← hrun,
      ← htrace, hruns, htraces]
    exact ⟨rfl, rfl, hruns ▸ hend⟩

/-- **Every run of the store is a run of the map**, as long as its operations are within the scope. -/
theorem runOps_refines_while (fail : SE) (hrt : RoundTrip store) {ops : List Op}
    (hops : ∀ op ∈ ops, op.Within scope) {s : W} {m : EntryMap} (hs : I s)
    (hres : Resolvable SE (files s)) (hm : Holds store (files s) m)
    (hnf : ¬ Faulty (store.traceOps ops s)) :
    (store.runOps ops s).1 = (m.steps ops).1.map (fun a => a.mapError MapError.toStore) ∧
      Holds store (files (store.runOps ops s).2) (m.steps ops).2 ∧
      SameMetadata (files s) (files (store.runOps ops s).2) ∧ I (store.runOps ops s).2 := by
  obtain ⟨hrun, htrace, hend⟩ := runOps_alike h fail hops hs
  rw [htrace] at hnf
  obtain ⟨hrs, hholds, hmeta⟩ := runOps_refines (h.guarded fail)
    (roundTrip_guarded hrt) ops hres (holds_guarded.2 hm) hnf
  rw [← hrun] at hrs hholds hmeta
  exact ⟨hrs, holds_guarded.1 hholds, hmeta, hend⟩

end Alike

end Bypass
