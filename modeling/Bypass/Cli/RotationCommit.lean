import Bypass.Cli.Rotation
import Bypass.Cli.Checkout

/-!
# The commit of a rotation

`bypass restore --in-place` finds the recipients on disk, and commits the blobs that it has written.
The recipients files are not among them: what they were edited to goes into the commit only if it
has been staged before. So the commit may hold blobs for the new recipients beside a recipients file
that names the old ones.

* `restore_commits`: the tree of the commit.
* **`rotation_commit_iff`**: when the commit of a rotation is consistent.
-/

namespace Bypass

open Prog

/-! ## What a commit says of an entry -/

/-- The files of a tree, by their paths. -/
def treeFiles (tree : GitTree) : Files := fun p => tree[p.bytes]?

/-- The blob of the entry is there, and encrypted to exactly the recipients that the tree names for
it. -/
def CommittedFor (SE : Type) (EncryptedTo : Bytes → KeyId → Prop) (tree : GitTree) (e : RelPath) :
    Prop :=
  ∃ d rs, tree[(entryToBlob e).bytes]? = some d ∧ Resolves SE (treeFiles tree) e rs ∧
    ∀ k, EncryptedTo d k ↔ k ∈ rs

/-- The files of an index, but for those in the way of a blob that is staged. -/
def indexBeside (index : GitTree) (blobs : List RelPath) : Files := fun p =>
  if ∃ q ∈ blobs, Collides q.bytes p.bytes then none else index[p.bytes]?

/-- Both name the same recipients for the entry, up to order and repetition. -/
def SameRecipients (SE : Type) (f g : Files) (e : RelPath) : Prop :=
  ∃ rs rs', Resolves SE f e rs ∧ Resolves SE g e rs' ∧ ∀ k, k ∈ rs ↔ k ∈ rs'

/-! ## The commit -/

variable {W CE SE B IE TE : Type} {store : Store W CE SE Git2Error} {git : Git}
  {checkout : W → Checkout} {tar : Tar B IE} {toml : Toml TE} {stream : DecryptStream W CE}

/-- The blobs of entries. -/
def blobsOf (entries : List BundleEntry) : List RelPath := entries.map fun b => entryToBlob b.path

/-- **What a restore that succeeds commits**: every blob as it is on disk, encrypted for the
recipients on disk, beside what the index had. -/
theorem restore_commits (h : OnCheckout store git checkout)
    {dirty : Prog (Event CE SE Git2Error) W Empty Bool}
    (hdirty : dirty.Steps (Asking (SameCheckout checkout))) {bundle plain : Bytes}
    (hstream : ∀ w, SameCheckout checkout w (stream bundle w).2)
    (hopens : ∀ w, (stream bundle w).1.2 = .ok () → (stream bundle w).1.1 = plain)
    {inPlace : Bool} {s t : W} {n : UInt32} (hrepo : (checkout s).initialized = true)
    (hsome : restoredEntries store tar toml plain ≠ [])
    (hrun : (restore store tar toml stream dirty bundle inPlace).run s = (.ok n, t)) :
    ∃ c ∈ (checkout t).repo.head,
      (∀ b ∈ restoredEntries store tar toml plain, ∃ d p rs w,
        c.tree[(entryToBlob b.path).bytes]? = some d ∧ Resolves SE (checkout s).files b.path rs ∧
          (store.crypto.encryptFn p rs w).1 = .ok d) ∧
      ∀ q, q ∉ blobsOf (restoredEntries store tar toml plain) →
        treeFiles c.tree q = indexBeside (checkout s).repo.index
          (blobsOf (restoredEntries store tar toml plain)) q := by
  obtain ⟨w, u, v, plain', touched, hcall, hsu, hvisits, hcommit⟩ :=
    restore_ok SameCheckout.refl (fun _ _ _ => SameCheckout.trans) h.same hdirty hstream hrun
  have hplain : plain' = plain := by
    have hplain := hopens w (by rw [hcall])
    rwa [hcall] at hplain
  subst hplain
  have hwrote : Wrote checkout {q | q ∈ touched} u v := by
    refine (mapM_wrote (fun b s t blob hone => ?_) hvisits).1
    rw [restoreEntry, trace_mapErr]
    exact insertNoCommit_wrote h (run_mapErr_ok hone)
  obtain ⟨htouched, -, hwritten⟩ := visits_ok h.onMap hvisits
  change touched = blobsOf (restoredEntries store tar toml plain') at htouched
  subst htouched
  obtain ⟨x, hvx, ⟨hnil, -⟩ | ⟨message, hpaths, hcommitted⟩⟩ :=
    commitRestored_ok SameCheckout.refl (fun _ _ _ => SameCheckout.trans) h.same hcommit
  · exact absurd (List.map_eq_nil_iff.1 hnil) hsome
  have hgit : SameGit (checkout s) (checkout x) := (hsu.2.trans hwrote.git).trans hvx.2
  have hapart : Apart {q | q ∈ blobsOf (restoredEntries store tar toml plain')}
      (checkout x).files := by
    have hall := hwrote.apart ∅ fun p hp => False.elim hp
    rw [Set.empty_union] at hall
    rw [hvx.1]
    exact hall
  -- every blob is on disk
  have hdisk : ∀ b ∈ restoredEntries store tar toml plain', ∃ d p rs w,
      (checkout x).files (entryToBlob b.path) = some d ∧
        Resolves SE (checkout s).files b.path rs ∧
        (store.crypto.encryptFn p rs w).1 = .ok d := by
    intro b hb
    obtain ⟨d, p, rs, w', hd, hrs, henc⟩ := hwritten b hb
    rw [hsu.1] at hrs
    exact ⟨d, p, rs, w', by rw [hvx.1]; exact hd, hrs, henc⟩
  have hpresent : ∀ q ∈ blobsOf (restoredEntries store tar toml plain'),
      ((checkout x).files q).isSome := by
    intro q hq
    obtain ⟨b, hb, rfl⟩ := List.mem_map.1 hq
    obtain ⟨d, _, _, _, hd, -⟩ := hdisk b hb
    rw [hd]
    rfl
  have hstep := h.commit (blobsOf (restoredEntries store tar toml plain')) message x
  have hruns : ¬ (blobsOf (restoredEntries store tar toml plain') = [] ∨
      (checkout x).initialized = false) := by
    rw [not_or, hgit.initialized, hrepo]
    exact ⟨hpaths, Bool.noConfusion⟩
  rw [hcommitted, Git2Vcs.commit, if_neg hruns] at hstep
  obtain ⟨hok, hrepo'⟩ := Prod.mk.inj hstep
  obtain ⟨c, hc, htree⟩ := commitFn_staged hpaths (Prod.ext hok.symm rfl)
  refine ⟨c, by rw [hrepo']; exact hc, fun b hb => ?_, fun q hq => ?_⟩
  · obtain ⟨d, p, rs, w', hd, hrs, henc⟩ := hdisk b hb
    refine ⟨d, p, rs, w', ?_, hrs, henc⟩
    have hmem : entryToBlob b.path ∈ blobsOf (restoredEntries store tar toml plain') :=
      List.mem_map_of_mem hb
    rw [htree, ← hd]
    refine stage_agrees (Or.inl ⟨_, hmem, rfl⟩) fun q _ hqsome hsome' hcollides => ?_
    exact hapart _ hmem hsome' q hqsome hcollides.symm
  · have hne : ∀ p ∈ blobsOf (restoredEntries store tar toml plain'), p.bytes ≠ q.bytes := by
      intro p hp hpq
      rw [RelPath.bytes_inj.1 hpq] at hp
      exact hq hp
    rw [treeFiles, htree, stage_other hne, indexBeside, hgit.index]
    refine if_congr ⟨?_, ?_⟩ rfl rfl
    · rintro ⟨p, hp, -, hcollides⟩
      exact ⟨p, hp, hcollides⟩
    · rintro ⟨p, hp, hcollides⟩
      exact ⟨p, hp, hpresent p hp, hcollides⟩

/-- **When the commit of a rotation is consistent**: if the index that it started with names for
each entry of the bundle the recipients that are named on disk. -/
theorem rotation_commit_iff (h : OnCheckout store git checkout) {EncryptedTo : Bytes → KeyId → Prop}
    (henc : ∀ p rs w c, (store.crypto.encryptFn p rs w).1 = .ok c → ∀ k, EncryptedTo c k ↔ k ∈ rs)
    {dirty : Prog (Event CE SE Git2Error) W Empty Bool}
    (hdirty : dirty.Steps (Asking (SameCheckout checkout))) {bundle plain : Bytes}
    (hstream : ∀ w, SameCheckout checkout w (stream bundle w).2)
    (hopens : ∀ w, (stream bundle w).1.2 = .ok () → (stream bundle w).1.1 = plain) {s t : W}
    {n : UInt32} (hrepo : (checkout s).initialized = true)
    (hrun : (restore store tar toml stream dirty bundle true).run s = (.ok n, t)) :
    (∀ b ∈ restoredEntries store tar toml plain,
        ∃ c ∈ (checkout t).repo.head, CommittedFor SE EncryptedTo c.tree b.path) ↔
      ∀ b ∈ restoredEntries store tar toml plain, SameRecipients SE
        (indexBeside (checkout s).repo.index (blobsOf (restoredEntries store tar toml plain)))
        (checkout s).files b.path := by
  refine forall₂_congr fun b hb => ?_
  obtain ⟨c, hc, hblobs, hothers⟩ := restore_commits h hdirty hstream hopens hrepo
    (List.ne_nil_of_mem hb) hrun
  obtain ⟨d, p, rs', w, hd, hrs', hcall⟩ := hblobs b hb
  -- the recipients files of the commit are those of the index
  have hnames : ∀ rs, Resolves SE (treeFiles c.tree) b.path rs ↔
      Resolves SE (indexBeside (checkout s).repo.index
        (blobsOf (restoredEntries store tar toml plain))) b.path rs := by
    intro rs
    have hsame : (recipientsFor (treeFiles c.tree) b.path : Except (GpgIdError SE) _) = recipientsFor
        (indexBeside (checkout s).repo.index
          (blobsOf (restoredEntries store tar toml plain))) b.path := by
      refine recipientsIn_congr (fun dir => hothers _ fun hmem => ?_) b.path.parent
      obtain ⟨e, -, he⟩ := List.mem_map.1 hmem
      exact gpgIdIn_ne_entryToBlob dir e.path he.symm
    rw [Resolves, Resolves, hsame]
  constructor
  · rintro ⟨c', hc', d', rs, hd', hrs, hset⟩
    obtain rfl := Option.some.inj ((Option.mem_def.1 hc).symm.trans (Option.mem_def.1 hc'))
    obtain rfl := Option.some.inj (hd.symm.trans hd')
    refine ⟨rs, rs', (hnames rs).1 hrs, hrs', fun k => ?_⟩
    exact (hset k).symm.trans (henc p rs' w d hcall k)
  · rintro ⟨rs, rs₁, hrs, hrs₁, hset⟩
    obtain rfl := hrs₁.unique hrs'
    refine ⟨c, hc, d, rs, hd, (hnames rs).2 hrs, fun k => ?_⟩
    exact (henc p rs₁ w d hcall k).trans (hset k).symm

/-! ## A recipients file that is edited -/

/-- A crypto that lists the recipients behind the plaintext. -/
def framedCrypto {W : Type} : Crypto W TaggedError where
  encryptFn plaintext recipients w :=
    (.ok (frames 1 0 (plaintext :: recipients.map fun r => utf8Encode r.str)), w)
  decryptFn ciphertext w :=
    match unframes 1 ciphertext with
    | [] => (.error .taggedError, w)
    | plaintext :: _ => (.ok plaintext, w)

/-- The ciphertext lists the recipient. -/
def ListsRecipient (ciphertext : Bytes) (k : KeyId) : Prop :=
  utf8Encode k.str ∈ (unframes 1 ciphertext).tail

theorem listsRecipient_encrypt {W : Type} {p c : Bytes} {rs : List KeyId} {w : W}
    (h : (framedCrypto.encryptFn p rs w).1 = .ok c) (k : KeyId) : ListsRecipient c k ↔ k ∈ rs := by
  obtain rfl := Except.ok.inj h
  rw [ListsRecipient, unframes_frames (by decide), List.tail_cons, List.mem_map]
  constructor
  · rintro ⟨r, hr, heq⟩
    rwa [← KeyId.str_injective (utf8Encode_injective heq)]
  · exact fun hk => ⟨k, hk, rfl⟩

theorem framedCrypto_keeps {W : Type} (d : Bytes) (w : W) : (framedCrypto.decryptFn d w).2 = w := by
  unfold framedCrypto
  dsimp only
  split <;> rfl

/-- The stream of this crypto. -/
def framedStream : DecryptStream Checkout TaggedError := fun bundle c =>
  match unframes 1 bundle with
  | [] => (([], .error .taggedError), c)
  | plaintext :: _ => ((plaintext, .ok ()), c)

def framedStore : Store Checkout TaggedError InTheWay Git2Error :=
  checkoutStore framedCrypto (plainGit [])

/-- `Git2Vcs::init` in memory, which shows the look for `.git`. -/
def framedInit : Prog (Event TaggedError InTheWay Git2Error) Checkout Git2Error Unit :=
  Prog.call (fun _ => .exists_ ⟨".git".toList, validate_git⟩ (.ok true)) (Git2Vcs.init fun _ => none)

/-- A repository with a store for one recipient, and an entry. -/
def committedStore : Checkout :=
  ((do framedStore.init framedInit [⟨"ALICE".toList⟩]
       framedStore.insert ⟨"a".toList, validate_a⟩ [1, 0] false :
    StoreM Checkout TaggedError InTheWay Git2Error Unit).run ⟨false, Repo.fresh ∅⟩).2

/-- Its backup. -/
def committedBackup : Bytes :=
  (((backup framedStore plainTar plainToml 7 "BOB".toList none).run committedStore).1 :
    Except (BackupError TaggedError InTheWay Git2Error Empty Empty) Bytes).toOption.getD []

/-- The recipients file is edited on disk. -/
def editedStore : Checkout :=
  let edited := committedStore.repo.worktree.insert gpgIdPath.bytes (utf8Encode "BOB\n".toList)
  { committedStore with repo := { committedStore.repo with worktree := edited } }

/-- The rotation to the new recipient. -/
def editedRotation :
    Except (RestoreError TaggedError InTheWay Git2Error Empty Empty) UInt32 × Checkout :=
  (restore framedStore plainTar plainToml framedStream (pure false) committedBackup true).run
    editedStore

/-- The commit has the blob for the new recipient, beside the file that names the old one. -/
theorem rotation_commit_split :
    editedRotation.1 = .ok 1 ∧ ∀ c ∈ editedRotation.2.repo.head,
      ¬ CommittedFor InTheWay ListsRecipient c.tree ⟨"a".toList, by decide⟩ := by
  refine ⟨by decide +kernel, fun c hc => ?_⟩
  have htree : c.tree = headTree editedRotation.2.repo := by
    rw [headTree, Option.mem_def.1 hc]
    rfl
  rw [htree]
  rintro ⟨d, rs, hd, hrs, hset⟩
  have hblob : (headTree editedRotation.2.repo)[(entryToBlob ⟨"a".toList, by decide⟩).bytes]? =
      some (frames 1 0 [[1, 0], utf8Encode "BOB".toList]) := by decide +kernel
  obtain rfl := Option.some.inj (hblob.symm.trans hd)
  have hnames : (recipientsFor (treeFiles (headTree editedRotation.2.repo))
      ⟨"a".toList, by decide⟩ : Except (GpgIdError InTheWay) _) = .ok [⟨"ALICE".toList⟩] := by
    decide +kernel
  obtain rfl := Except.ok.inj (hnames.symm.trans hrs)
  have halice := (hset ⟨"ALICE".toList⟩).2 (List.mem_singleton_self _)
  rw [ListsRecipient, unframes_frames (by decide)] at halice
  revert halice
  decide

theorem rotation_commit_edited :
    (∀ b ∈ restoredEntries framedStore plainTar plainToml (framedStream committedBackup editedStore).1.1,
        ∃ c ∈ editedRotation.2.repo.head, CommittedFor InTheWay ListsRecipient c.tree b.path) ↔
      ∀ b ∈ restoredEntries framedStore plainTar plainToml
          (framedStream committedBackup editedStore).1.1,
        SameRecipients InTheWay (indexBeside editedStore.repo.index (blobsOf (restoredEntries
          framedStore plainTar plainToml (framedStream committedBackup editedStore).1.1)))
          editedStore.files b.path := by
  have hclean : (pure false : Prog (Event TaggedError InTheWay Git2Error) Checkout Empty Bool).Steps
      (Asking (SameCheckout id)) := Prog.steps_pure false
  have hstream : ∀ w, SameCheckout id w (framedStream committedBackup w).2 := fun w => by
    unfold framedStream
    split <;> exact SameCheckout.refl w
  have hopens : ∀ w, (framedStream committedBackup w).1.2 = .ok () →
      (framedStream committedBackup w).1.1 = (framedStream committedBackup editedStore).1.1 := by
    intro w _
    unfold framedStream
    split <;> rfl
  have hok : editedRotation.1 = .ok 1 := by decide +kernel
  exact rotation_commit_iff
    (checkoutStore_onCheckout (plainGit []) (fun _ _ _ => rfl) framedCrypto_keeps)
    (fun _ _ _ _ => listsRecipient_encrypt) hclean hstream hopens (by decide +kernel)
    (Prod.ext hok rfl)

end Bypass
