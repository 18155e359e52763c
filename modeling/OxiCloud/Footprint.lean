import OxiCloud.Requests

/-! # Which statements the programs issue

Most of the programs only keep the books: they move references between rows and counters, and neither
write objects nor register chunks nor create manifests nor touch the deletion queue. `Bookkeeping` lists
their statements; an invariant that each of these keeps is kept by all of the programs below. `Settling`
lists those that settle a single reference, `Ingest` those of an ingest session up to the manifest. -/

namespace OxiCloud.Footprint

open Lib.Programs Schema OxiCloud.Machine BlobHandler FileRepository Requests Prog

variable {H : Type}

/-- The statements that take, move and give back references. -/
def Bookkeeping : Op H → Prop
  | .releaseChunks _ | .releaseBatch _ | .bumpManifest _ | .bumpBlob _ | .selectManifest _
  | .removeManifest .. | .removeLegacy _ | .cleanupOrphaned _ | .deleteDerived _ | .reapManifests
  | .reapBlobs _ | .selectFileHash _ | .deleteFile _ | .insertFile .. | .fetchIdentical ..
  | .swapBlobHash .. | .copyFiles .. | .insertDerived .. | .selectAttached _ | .upsertAttached ..
  | .insertAttached .. => True
  | _ => False

/-- The program only keeps the books. -/
abbrev KeepsBooks {α : Type} (p : Db H α) : Prop := p.Only Bookkeeping

/-- The statements that register a row for a reference, or give the reference back. -/
def Settling : Op H → Prop
  | .releaseChunks _ | .selectManifest _ | .removeManifest .. | .removeLegacy _ | .deleteDerived _
  | .insertFile .. | .fetchIdentical .. | .swapBlobHash .. => True
  | _ => False

theorem Settling.bookkeeping (op : Op H) (h : Settling op) : Bookkeeping op := by
  cases op <;> trivial

/-! ### Programs that compare no hashes -/

variable {P : Op H → Prop}

theorem releaseChunkRefs_stmt {hs : List H} (hP : P (.releaseChunks hs)) :
    (releaseChunkRefs hs).Only P := by
  unfold releaseChunkRefs
  split_ifs
  · exact only_ret _
  · exact only_stmt hP fun _ => only_ret _

theorem releaseChunkRefs_settles (hs : List H) : (releaseChunkRefs hs).Only Settling :=
  releaseChunkRefs_stmt trivial

theorem releaseChunkRefs_only (hs : List H) : KeepsBooks (releaseChunkRefs hs) :=
  (releaseChunkRefs_settles hs).mono Settling.bookkeeping

theorem releaseAll_settles {release : H → Db H (Except DomainError Bool)}
    (hr : ∀ h, (release h).Only Settling) : ∀ hs, (releaseAll release hs).Only Settling
  | [] => only_ret _
  | h :: hs => (hr h).bind fun _ => releaseAll_settles hr hs

theorem releaseReaped_only : ∀ batch : List (H × List H × ℕ), KeepsBooks (releaseReaped batch)
  | [] => only_stmt trivial only_ret
  | [_] => only_stmt trivial only_ret
  | _ :: _ :: _ => only_stmt trivial only_ret

variable (st : IngestState H)

theorem rollbackWrites_only (hsync : ∀ hs, P (.syncBlobs hs)) (horphans : P (.registerOrphans st.written)) :
    (rollbackWrites st).Only P := by
  unfold rollbackWrites
  split_ifs
  · exact only_ret _
  · exact (only_op (hsync _)).ask (only_ret _) fun _ => only_stmt horphans fun _ => only_ret _

theorem runRollback_only (hrelease : ∀ hs, P (.releaseChunks hs)) (hsync : ∀ hs, P (.syncBlobs hs))
    (horphans : P (.registerOrphans st.written)) : (runRollback st).Only P := by
  have hwritten := rollbackWrites_only st hsync horphans
  unfold runRollback
  cases st.pinned with
  | nil => exact hwritten
  | cons x l => exact only_stmt (hrelease _) fun _ => hwritten

theorem attachLoop_only {h : H} {hs held : List H} {sizes : List ℕ} {total : ℕ}
    (hinsert : P (.insertManifest h ⟨hs, sizes, total, 1⟩)) (hbump : P (.bumpManifest h))
    (hrelease : (releaseChunkRefs held).Only P) : ∀ n, (attachLoop h hs sizes total held n).Only P
  | 0 => hrelease.bind fun _ => only_ret _
  | n + 1 => by
    refine only_stmt hinsert fun r => ?_
    rcases r with _ | _ | _
    · exact only_ret _
    · refine only_stmt hbump fun r => ?_
      rcases r with _ | _ | _
      · exact only_ret _
      · exact attachLoop_only hinsert hbump hrelease n
      · exact hrelease.bind fun _ => only_ret _
    · exact only_ret _

theorem addReference_only (h : H) : KeepsBooks (addReference h) := by
  refine only_stmt trivial fun r => ?_
  rcases r with _ | _ | _
  · exact only_ret _
  · refine only_stmt trivial fun r => ?_
    rcases r with _ | _ | _ <;> exact only_ret _
  · exact only_ret _

theorem deleteFile_only (id : FileId) : KeepsBooks (deleteFile id : Db H _) := by
  refine only_stmt trivial fun r => ?_
  rcases r with _ | _ | _ <;> exact only_ret _

theorem copyFiles_only (newFolders : List FolderId) (l : List CopySpec) :
    KeepsBooks (copyFiles newFolders l : Db H _) := by
  exact (only_op trivial).ask (only_ret _) fun _ => only_ret _

theorem hashChunkSequence_only (blake3 : Bytes → H) (hread : ∀ h, P (.readObject h)) :
    ∀ (l : List (H × ℕ)) (content : Bytes), (hashChunkSequence blake3 l content).Only P
  | [], _ => only_ret _
  | (h, declared) :: rest, content => by
    refine (only_op (hread h)).ask (only_ret _) fun data => ?_
    dsimp only
    split_ifs
    · exact only_ret _
    · exact hashChunkSequence_only blake3 hread rest _

theorem readChunks_only (hread : ∀ h, P (.readObject h)) :
    ∀ (hs : List H) (content : Bytes), (readChunks hs content).Only P
  | [], _ => only_ret _
  | h :: hs, content => (only_op (hread h)).ask (only_ret _) fun _ => readChunks_only hread hs _

theorem readBlobStream_only (hload : ∀ h, P (.loadManifest h)) (hread : ∀ h, P (.readObject h))
    (h : H) : (readBlobStream h).Only P := by
  refine only_stmt (hload h) fun r => ?_
  rcases r with _ | _ | m
  · exact only_ret _
  · exact readChunks_only hread _ _
  · exact readChunks_only hread _ _

/-- The statements of the drain. -/
def Draining : Op H → Prop
  | .claimDeletion _ | .stillUnreferenced _ | .settleDeletion _ | .deleteObject _ | .recordAttempt ..
  | .rollbackDeletion _ => True
  | _ => False

theorem settleOne_drains (transient : Bool) (h : H) : (settleOne transient h).Only Draining := by
  have habandon : (abandonDrain h).Only Draining := only_stmt trivial fun _ => only_ret _
  refine only_stmt trivial fun r => ?_
  rcases r with _ | _ | attempts
  · exact only_ret _
  · exact only_ret _
  refine only_stmt trivial fun r => ?_
  rcases r with _ | _ | _
  · exact habandon
  · exact (only_op trivial).ask habandon fun _ => only_ret _
  · refine (only_op trivial).ask ?_ fun _ => ?_
    all_goals exact (only_op trivial).ask habandon fun _ => only_ret _

variable [DecidableEq H]

/-! ### Releases and collections -/

theorem purgeDerivedBlobs_settles {release : H → Db H (Except DomainError Bool)}
    (hr : ∀ h, (release h).Only Settling) (h : H) : (purgeDerivedBlobs release h).Only Settling := by
  refine (only_op trivial).ask (only_ret _) fun rows => ?_
  dsimp only
  split_ifs
  · exact only_ret _
  · exact releaseAll_settles hr _

theorem removeReference_settles : ∀ (fuel : ℕ) (h : H), (removeReference fuel h).Only Settling
  | 0, _ => only_ret _
  | fuel + 1, h => by
    have hpurge : (purgeDerivedBlobs (removeReference fuel) h >>= fun _ =>
        ret (Except.ok true : Except DomainError Bool)).Only Settling :=
      (purgeDerivedBlobs_settles (removeReference_settles fuel) h).bind fun _ => only_ret _
    refine only_stmt trivial fun r => ?_
    rcases r with _ | _ | m
    · exact only_ret _
    · refine only_stmt trivial fun r => ?_
      rcases r with _ | _ | _ | _ <;> first | exact only_ret _ | exact hpurge
    · refine only_stmt trivial fun r => ?_
      rcases r with _ | _ | _ | _ <;> first | exact only_ret _ | exact hpurge

variable (blake3 : Bytes → H) (fuel : ℕ)

theorem removeReference_only (h : H) : KeepsBooks (removeReference fuel h) :=
  (removeReference_settles fuel h).mono Settling.bookkeeping

theorem purge_only (h : H) : KeepsBooks (purgeDerivedBlobs (removeReference fuel) h) :=
  (purgeDerivedBlobs_settles (removeReference_settles fuel) h).mono Settling.bookkeeping

theorem cleanupIfOrphaned_only (h : H) : KeepsBooks (cleanupIfOrphaned fuel h) := by
  refine only_stmt trivial fun r => ?_
  rcases r with _ | _ | _
  · exact only_ret _
  · exact only_ret _
  · exact purge_only fuel h

theorem purgeAll_only : ∀ hs : List H, KeepsBooks (purgeAll fuel hs)
  | [] => only_ret _
  | h :: hs => (purge_only fuel h).bind fun _ => purgeAll_only hs

theorem gcManifests_only : ∀ (rounds : ℕ) (total : ℕ × ℕ),
    KeepsBooks (gcManifests fuel rounds total : Db H _)
  | 0, _ => only_ret _
  | rounds + 1, total => by
    refine (only_op trivial).ask (only_ret _) fun batch => ?_
    dsimp only
    split_ifs
    · exact only_ret _
    · refine (purgeAll_only fuel _).bind fun _ => (releaseReaped_only batch).ask (only_ret _) fun _ => ?_
      exact (purgeAll_only fuel _).bind fun _ => gcManifests_only rounds _

theorem gcBlobs_only (grace : ℕ) : ∀ (rounds : ℕ) (total : ℕ × ℕ),
    KeepsBooks (gcBlobs fuel grace rounds total : Db H _)
  | 0, _ => only_ret _
  | rounds + 1, total => by
    refine (only_op trivial).ask (only_ret _) fun batch => ?_
    dsimp only
    split_ifs
    · exact only_ret _
    · exact (purgeAll_only fuel _).bind fun _ => gcBlobs_only grace rounds _

theorem garbageCollectWithGrace_only (rounds grace : ℕ) :
    KeepsBooks (garbageCollectWithGrace fuel rounds grace : Db H _) := by
  refine (gcManifests_only fuel rounds _).bind fun r => ?_
  cases r with
  | error e => exact only_ret _
  | ok total => exact gcBlobs_only fuel grace rounds total

/-! ### Ingest sessions -/

/-- The statements of an ingest session. -/
def Ingest : Op H → Prop
  | .pinExisting _ | .cancelDeletions _ | .putReplace .. | .putUnsynced .. | .syncBlobs _
  | .registerChunks _ | .registerOrphans _ | .releaseChunks _ => True
  | _ => False

theorem writeChunks_only (contested : List H) : ∀ (l : List (H × Bytes)) (st : IngestState H),
    (∀ x ∈ l, P (.putReplace x.1 x.2) ∧ P (.putUnsynced .ingest x.1 x.2)) → (writeChunks contested l st).Only P
  | [], _, _ => only_ret _
  | (h, data) :: rest, st, hl => by
    obtain ⟨hreplace, hput⟩ := hl (h, data) List.mem_cons_self
    have hok : ∀ st, (writeChunks contested rest st).Only P :=
      fun st => writeChunks_only contested rest st fun x hx => hl x (List.mem_cons_of_mem _ hx)
    have herr : (writeChunks contested rest st >>= fun r =>
        ret ((.error (internalError "Blob") : Except DomainError Unit), r.2)).Only P :=
      (hok st).bind fun _ => only_ret _
    rw [writeChunks]
    split_ifs
    · exact (only_op hreplace).ask herr fun _ => hok _
    · exact (only_op hput).ask herr fun _ => hok _

/-- What the writes of `settle_batch` do to the ledger. -/
structure StateOK (l : List (H × Bytes)) (st : IngestState H)
    (r : Except DomainError Unit × IngestState H) : Prop where
  pinned : r.2.pinned = st.pinned
  written : ∀ w ∈ r.2.written, w ∈ st.written ∨ w.1 ∈ l.map Prod.fst
  all : r.1 = .ok () → r.2.written.map Prod.fst = st.written.map Prod.fst ++ l.map Prod.fst

theorem writeChunks_returns (contested : List H) : ∀ (l : List (H × Bytes)) (st : IngestState H),
    (writeChunks contested l st).Returns (StateOK l st)
  | [], st => ⟨rfl, fun _ => .inl, fun _ => by simp⟩
  | (h, data) :: rest, st => by
    have hok : (writeChunks contested rest { st with written := st.written ++ [(h, data.length)] }).Returns
        (StateOK ((h, data) :: rest) st) := by
      refine (writeChunks_returns contested rest _).mono fun r hr => ?_
      refine ⟨hr.pinned, fun w hw => ?_, fun h' => by rw [hr.all h']; simp⟩
      rcases hr.written w hw with hw | hw
      · rcases List.mem_append.mp hw with hw | hw
        · exact .inl hw
        · rw [List.mem_singleton] at hw
          exact .inr (by simp [hw])
      · exact .inr (List.mem_cons_of_mem _ hw)
    have herr : (writeChunks contested rest st >>= fun r =>
        ret ((.error (internalError "Blob") : Except DomainError Unit), r.2)).Returns
          (StateOK ((h, data) :: rest) st) :=
      (writeChunks_returns contested rest st).bind fun r hr =>
        ⟨hr.pinned, fun w hw => (hr.written w hw).imp_right (List.mem_cons_of_mem _), nofun⟩
    rw [writeChunks]
    split_ifs
    all_goals
      rintro (_ | _)
      · exact herr
      · exact hok

theorem settleBatch_only {batch : List (H × Bytes)} (hpin : ∀ hs, P (.pinExisting hs))
    (hcancel : ∀ hs, P (.cancelDeletions hs))
    (hput : ∀ x ∈ batch, P (.putReplace x.1 x.2) ∧ P (.putUnsynced .ingest x.1 x.2)) :
    (settleBatch batch st).Only P := by
  unfold settleBatch
  split_ifs
  · exact only_ret _
  · refine (only_op (hpin _)).ask (only_ret _) fun pinned => ?_
    dsimp only
    split_ifs
    · exact only_ret _
    · refine (only_op (hcancel _)).ask (only_ret _) fun contested => ?_
      exact writeChunks_only contested _ _ fun x hx => hput x (List.mem_of_mem_filter hx)

theorem settleBatch_ingest (batch : List (H × Bytes)) (st : IngestState H) :
    (settleBatch batch st).Only Ingest :=
  settleBatch_only st (fun _ => trivial) (fun _ => trivial) fun _ _ => ⟨trivial, trivial⟩

theorem ingestLoop_only : ∀ (chunks : List Bytes) (v : IngestVars H)
    (st : IngestState H), (ingestLoop blake3 chunks v st).Only Ingest
  | [], _, _ => only_ret _
  | data :: rest, v, st => by
    rw [ingestLoop]
    dsimp only
    split_ifs
    · exact ingestLoop_only rest _ st
    · refine (settleBatch_ingest _ st).bind fun r => ?_
      rcases r with ⟨_ | _, st'⟩
      · exact only_ret _
      · exact ingestLoop_only rest _ st'
    · exact ingestLoop_only rest _ st

theorem ingestChunksFromStream_only (source : Source) :
    (ingestChunksFromStream blake3 source).Only Ingest := by
  have hroll : ∀ (st : IngestState H) (e : DomainError), (runRollback st >>= fun _ =>
      ret (.error e : Except DomainError (IngestOutcome H))).Only Ingest :=
    fun st e => (runRollback_only st (fun _ => trivial) (fun _ => trivial) trivial).bind fun _ => only_ret _
  refine (ingestLoop_only blake3 source.chunks _ _).bind fun r => ?_
  rcases r with ⟨e | v, st⟩
  · exact hroll st e
  · split_ifs
    · exact hroll st _
    · refine (settleBatch_ingest _ st).bind fun r => ?_
      rcases r with ⟨e | _, st'⟩
      · exact hroll st' e
      · dsimp only
        split_ifs
        · exact only_ret _
        · refine (only_op trivial).ask (hroll st' _) fun _ => ?_
          exact (only_op trivial).ask (hroll st' _) fun _ => only_ret _

/-! ### The repository -/

theorem releaseAndFail_settles {α : Type} (h : H) (e : DomainError) :
    (releaseAndFail fuel h e : Db H (Except DomainError α)).Only Settling :=
  (removeReference_settles fuel h).bind fun _ => only_ret _

theorem saveFileWithBlob_settles (folder : Option FolderId) (name : String) (h : H) :
    (saveFileWithBlob fuel folder name h).Only Settling := by
  cases folder with
  | none => exact releaseAndFail_settles fuel h _
  | some fid =>
    refine only_stmt trivial fun r => ?_
    rcases r with _ | id | _ | _
    · exact releaseAndFail_settles fuel h _
    · exact only_ret _
    · exact releaseAndFail_settles fuel h _
    · refine (removeReference_settles fuel h).bind fun _ => only_stmt trivial fun r => ?_
      rcases r with _ | _ | _ <;> exact only_ret _

theorem swapBlobHash_settles (id : FileId) (h : H) (expected : Option H) :
    (swapBlobHash fuel id h expected).Only Settling := by
  refine only_stmt trivial fun r => ?_
  rcases r with _ | _ | ⟨old, _ | _⟩
  · exact releaseAndFail_settles fuel h _
  · exact releaseAndFail_settles fuel h _
  · exact releaseAndFail_settles fuel h _
  · exact (removeReference_settles fuel old).bind fun _ => only_ret _

theorem register_settles (h : H) : ∀ target,
    (register fuel h target).Only Settling
  | .create folder name => by
    refine (saveFileWithBlob_settles fuel folder name h).bind fun r => ?_
    cases r <;> exact only_ret _
  | .update id expected => swapBlobHash_settles fuel id h expected
  | .discard => releaseAndFail_settles fuel h _
  | .abandon => only_ret _

theorem register_only (h : H) (target : Registration H) :
    KeepsBooks (register fuel h target) :=
  (register_settles fuel h target).mono Settling.bookkeeping

theorem deleteFilePermanently_only (id : FileId) :
    KeepsBooks (deleteFilePermanently fuel id : Db H _) := by
  refine (only_op trivial).ask (only_ret _) fun hash => (deleteFile_only id).bind fun r => ?_
  cases r with
  | error e => exact only_ret _
  | ok _ =>
    cases hash with
    | none => exact only_ret _
    | some h => exact (cleanupIfOrphaned_only fuel h).bind fun _ => only_ret _

/-! ### Loose chunks -/

theorem looseLoop_only
    (hput : ∀ data, P (.putUnsynced .loose (blake3 data) data)) :
    ∀ (frames : Frames) (received rows : List (H × ℕ)), (looseLoop blake3 frames received rows).Only P
  | [], _, _ => only_ret _
  | none :: _, _, _ => only_ret _
  | some data :: rest, received, rows => by
    rw [looseLoop]
    dsimp only
    split_ifs
    · exact only_ret _
    · exact looseLoop_only hput rest _ _
    · exact (only_op (hput data)).ask (only_ret _) fun _ => looseLoop_only hput rest _ _

theorem storeLooseChunks_only
    (hput : ∀ data, P (.putUnsynced .loose (blake3 data) data)) (hsync : ∀ hs, P (.syncBlobs hs))
    (horphans : ∀ rows, P (.registerOrphans rows)) (frames : Frames) :
    (storeLooseChunks blake3 frames).Only P := by
  refine (looseLoop_only blake3 hput frames [] []).bind fun r => ?_
  rcases r with _ | ⟨received, rows⟩
  · exact only_ret _
  · dsimp only
    split_ifs
    · exact only_ret _
    · refine (only_op (hsync _)).ask (only_ret _) fun _ => ?_
      exact (only_op (horphans _)).ask (only_ret _) fun _ => only_ret _

/-! ### Stored content -/

/-- The program stores content, and then only keeps the books. -/
def Stores (blake3 : Bytes → H) {α : Type} (p : Db H α) : Prop :=
  ∃ source k, p = storeFromStream blake3 source >>= k ∧ (∀ e, ∃ a, k (.error e) = ret a) ∧
    ∀ stored, KeepsBooks (k (.ok stored))

variable (source : Source)

theorem upload_stores (target : Registration H) : Stores blake3 (upload blake3 fuel source target) :=
  ⟨source, _, rfl, fun _ => ⟨_, rfl⟩, fun stored => register_only fuel stored.hash target⟩

theorem storeAttachedBlob_stores (k : AttachedKey) :
    Stores blake3 (storeAttachedBlob blake3 fuel k source) := by
  refine ⟨source, _, rfl, fun _ => ⟨_, rfl⟩, fun stored => ?_⟩
  refine (only_op trivial).ask (only_ret _) fun previous => (only_op trivial).ask (only_ret _) fun _ => ?_
  cases previous with
  | none => exact only_ret _
  | some old => exact (removeReference_only fuel old).bind fun _ => only_ret _

theorem storeAttachedBlobIfAbsent_stores (k : AttachedKey) :
    Stores blake3 (storeAttachedBlobIfAbsent blake3 fuel k source) := by
  refine ⟨source, _, rfl, fun _ => ⟨_, rfl⟩, fun stored => only_stmt trivial fun r => ?_⟩
  rcases r with _ | _ | _
  · exact only_ret _
  · exact (removeReference_only fuel stored.hash).bind fun _ => only_stmt trivial fun _ => only_ret _
  · exact only_ret _

theorem storeDerivedBlob_stores (k : DerivedKey H) :
    Stores blake3 (storeDerivedBlob blake3 fuel k source) := by
  refine ⟨source, _, rfl, fun _ => ⟨_, rfl⟩, fun stored => only_stmt trivial fun r => ?_⟩
  rcases r with _ | _ | _
  · exact only_ret _
  · exact (removeReference_only fuel stored.hash).bind fun _ => only_ret _
  · exact only_ret _

end OxiCloud.Footprint
