import OxiCloud.Machine

/-! # The blob handler

The functions of the blob handler as programs over the statements of `Machine`, one statement per
`await` on the database or the backend. BLAKE3 is a parameter. A stream is given by the chunks FastCDC
cuts it into and whether it ends with an error.

`remove_reference` and `purge_derived_blobs` call each other. The nesting is bounded by `fuel`: a call
is nested only under a purge that deleted a row, so more fuel than there are derived rows is never
used up by an undisturbed call. The two loops of the garbage collector run for at most `rounds`
rounds. -/

namespace OxiCloud.BlobHandler

open Lib.Programs Schema OxiCloud.Machine Prog

variable {H : Type} [DecidableEq H]

/-! ### Ingest sessions -/

/-- `FLUSH_MAX_CHUNKS`. -/
def flushMaxChunks : ℕ := 32

/-- `FLUSH_MAX_BYTES`. -/
def flushMaxBytes : ℕ := 8 * 1024 * 1024

/-- A stream: its chunks, and whether it then fails. -/
structure Source where
  chunks : List Bytes
  failed : Bool := false

/-- The compensation ledger of a session: existing chunks it pinned, chunks it wrote and has not
registered yet, with their sizes. -/
structure IngestState (H : Type) where
  pinned : List H
  written : List (H × ℕ)

/-- The local variables of the ingest loop. `content` is what the file hasher has consumed. -/
structure IngestVars (H : Type) where
  content : Bytes
  totalSize : ℕ
  chunkHashes : List H
  chunkSizes : List ℕ
  sessionSeen : List H
  pending : List (H × Bytes)
  pendingBytes : ℕ

/-- `ChunkIngestOutcome`. -/
structure IngestOutcome (H : Type) where
  fileHash : H
  totalSize : ℕ
  chunkHashes : List H
  chunkSizes : List ℕ
  newlyWritten : ℕ

/-- `distinct_hashes`. -/
def IngestOutcome.distinctHashes (o : IngestOutcome H) : List H := o.chunkHashes.dedup

/-- The writes of `settle_batch`. All are attempted, the successful ones are recorded, and the first
error is reported. -/
def writeChunks (contested : List H) :
    List (H × Bytes) → IngestState H → Db H (Except DomainError Unit × IngestState H)
  | [], st => ret (.ok (), st)
  | (h, data) :: rest, st => do
    let put ← if h ∈ contested then issue (.putReplace h data) else issue (.putUnsynced .ingest h data)
    match put with
    | some _ => writeChunks contested rest { st with written := st.written ++ [(h, data.length)] }
    | none =>
      let r ← writeChunks contested rest st
      ret (.error (internalError "Blob"), r.2)

/-- `settle_batch`: pin the chunks that have a row, cancel the queued deletions of the others, write
those. -/
def settleBatch (batch : List (H × Bytes)) (st : IngestState H) :
    Db H (Except DomainError Unit × IngestState H) :=
  if batch.isEmpty then ret (.ok (), st)
  else do
    match ← issue (.pinExisting (batch.map Prod.fst)) with
    | none => ret (.error (internalError "Dedup"), st)
    | some pinned =>
      let st := { st with pinned := st.pinned ++ (batch.map Prod.fst).filter (· ∈ pinned) }
      let toWrite := batch.filter fun c => c.1 ∉ pinned
      if toWrite.isEmpty then ret (.ok (), st)
      else
        match ← issue (.cancelDeletions (toWrite.map Prod.fst)) with
        | none => ret (.error (internalError "Dedup"), st)
        | some contested => writeChunks contested toWrite st

/-- `IngestGuard::run_rollback`. -/
def runRollback (st : IngestState H) : Db H Unit := do
  if !st.pinned.isEmpty then
    let _ ← issue (.releaseChunks st.pinned)
  if st.written.isEmpty then ret ()
  else
    match ← issue (.syncBlobs (st.written.map Prod.fst)) with
    | none => ret ()
    | some _ =>
      let _ ← issue (.registerOrphans st.written)
      ret ()

/-- What `run_rollback` does after its releases. -/
def rollbackWrites (st : IngestState H) : Db H Unit :=
  if st.written.isEmpty then ret ()
  else do
    match ← issue (.syncBlobs (st.written.map Prod.fst)) with
    | none => ret ()
    | some _ =>
      let _ ← issue (.registerOrphans st.written)
      ret ()

/-- The accumulators after one more chunk. -/
def IngestVars.push (blake3 : Bytes → H) (v : IngestVars H) (data : Bytes) : IngestVars H :=
  { v with
    content := v.content ++ data
    totalSize := v.totalSize + data.length
    chunkHashes := v.chunkHashes ++ [blake3 data]
    chunkSizes := v.chunkSizes ++ [data.length] }

/-- The loop of `ingest_chunks_from_stream`. -/
def ingestLoop (blake3 : Bytes → H) : List Bytes → IngestVars H → IngestState H →
    Db H (Except DomainError (IngestVars H) × IngestState H)
  | [], v, st => ret (.ok v, st)
  | data :: rest, v, st =>
    let v := v.push blake3 data
    if blake3 data ∈ v.sessionSeen then ingestLoop blake3 rest v st
    else
      let v := { v with
        sessionSeen := blake3 data :: v.sessionSeen
        pending := v.pending ++ [(blake3 data, data)]
        pendingBytes := v.pendingBytes + data.length }
      if flushMaxChunks ≤ v.pending.length ∨ flushMaxBytes ≤ v.pendingBytes then do
        match ← settleBatch v.pending st with
        | (.error e, st) => ret (.error e, st)
        | (.ok _, st) => ingestLoop blake3 rest { v with pending := [], pendingBytes := 0 } st
      else ingestLoop blake3 rest v st

/-- `ingest_chunks_from_stream`. -/
def ingestChunksFromStream (blake3 : Bytes → H) (source : Source) :
    Db H (Except DomainError (IngestOutcome H)) := do
  match ← ingestLoop blake3 source.chunks ⟨[], 0, [], [], [], [], 0⟩ ⟨[], []⟩ with
  | (.error e, st) =>
    runRollback st
    ret (.error e)
  | (.ok v, st) =>
    if source.failed then
      runRollback st
      ret (.error (internalError "Dedup"))
    else
      match ← settleBatch v.pending st with
      | (.error e, st) =>
        runRollback st
        ret (.error e)
      | (.ok _, st) =>
        let outcome : IngestOutcome H :=
          ⟨blake3 v.content, v.totalSize, v.chunkHashes, v.chunkSizes, st.written.length⟩
        if st.written.isEmpty then ret (.ok outcome)
        else
          match ← issue (.syncBlobs (st.written.map Prod.fst)) with
          | none =>
            runRollback st
            ret (.error (internalError "Blob"))
          | some _ =>
            match ← issue (.registerChunks st.written) with
            | none =>
              runRollback st
              ret (.error (internalError "Dedup"))
            | some _ => ret (.ok outcome)

/-! ### Manifests -/

/-- `DedupResultDto`. -/
inductive DedupResult (H : Type) where
  | newBlob (hash : H) (size : ℕ)
  | existingBlob (hash : H) (size : ℕ)

/-- `DedupResultDto::hash`. -/
def DedupResult.hash : DedupResult H → H
  | .newBlob h _ => h
  | .existingBlob h _ => h

/-- `DedupResultDto::size`. -/
def DedupResult.size : DedupResult H → ℕ
  | .newBlob _ n => n
  | .existingBlob _ n => n

/-- `release_chunk_refs`: best effort. -/
def releaseChunkRefs (hs : List H) : Db H Unit :=
  if hs.isEmpty then ret ()
  else do
    let _ ← issue (.releaseChunks hs)
    ret ()

/-- The retry loop of `attach_manifest`. -/
def attachLoop (fileHash : H) (chunkHashes : List H) (chunkSizes : List ℕ) (totalSize : ℕ)
    (distinctHeld : List H) : ℕ → Db H (Except DomainError (DedupResult H))
  | 0 => do
    releaseChunkRefs distinctHeld
    ret (.error (internalError "Dedup"))
  | n + 1 => do
    match ← issue (.insertManifest fileHash ⟨chunkHashes, chunkSizes, totalSize, 1⟩) with
    | none => ret (.error (internalError "Dedup"))
    | some true => ret (.ok (.newBlob fileHash totalSize))
    | some false =>
      match ← issue (.bumpManifest fileHash) with
      | none => ret (.error (internalError "Dedup"))
      | some (some size) =>
        releaseChunkRefs distinctHeld
        ret (.ok (.existingBlob fileHash size))
      | some none => attachLoop fileHash chunkHashes chunkSizes totalSize distinctHeld n

/-- `attach_manifest`: attach a manifest to chunk references the caller holds. -/
def attachManifest (fileHash : H) (chunkHashes : List H) (chunkSizes : List ℕ) (totalSize : ℕ)
    (distinctHeld : List H) : Db H (Except DomainError (DedupResult H)) :=
  attachLoop fileHash chunkHashes chunkSizes totalSize distinctHeld 3

/-- `store_from_stream`. -/
def storeFromStream (blake3 : Bytes → H) (source : Source) :
    Db H (Except DomainError (DedupResult H)) := do
  match ← ingestChunksFromStream blake3 source with
  | .error e => ret (.error e)
  | .ok o => attachManifest o.fileHash o.chunkHashes o.chunkSizes o.totalSize o.distinctHashes

/-! ### References -/

/-- `add_reference`. -/
def addReference (h : H) : Db H (Except DomainError Unit) := do
  match ← issue (.bumpManifest h) with
  | none => ret (.error (internalError "Dedup"))
  | some (some _) => ret (.ok ())
  | some none =>
    match ← issue (.bumpBlob h) with
    | none => ret (.error (internalError "Dedup"))
    | some true => ret (.ok ())
    | some false => ret (.error (notFound "Blob"))

/-- The releases of `purge_derived_blobs`, best effort. -/
def releaseAll (release : H → Db H (Except DomainError Bool)) : List H → Db H Unit
  | [] => ret ()
  | h :: hs => do
    let _ ← release h
    releaseAll release hs

/-- `purge_derived_blobs` (and `reap_blob`). A negative row fails the decoding of the deleted rows, and
then none of their references is released. -/
def purgeDerivedBlobs (release : H → Db H (Except DomainError Bool)) (h : H) : Db H Unit := do
  match ← issue (.deleteDerived h) with
  | none => ret ()
  | some rows => if none ∈ rows then ret () else releaseAll release rows.reduceOption

/-- `remove_reference`, with `remove_manifest_reference` and `remove_legacy_reference`; whether the
content is gone. -/
def removeReference : ℕ → H → Db H (Except DomainError Bool)
  | 0, _ => ret (.ok false)
  | fuel + 1, h => do
    match ← issue (.selectManifest h) with
    | none => ret (.error (internalError "Dedup"))
    | some (some m) =>
      match ← issue (.removeManifest h m.chunkHashes) with
      | none => ret (.error (internalError "Dedup"))
      | some .removed =>
        purgeDerivedBlobs (removeReference fuel) h
        ret (.ok true)
      | some .decremented | some .gone => ret (.ok false)
    | some none =>
      match ← issue (.removeLegacy h) with
      | none => ret (.error (internalError "Dedup"))
      | some (some true) =>
        purgeDerivedBlobs (removeReference fuel) h
        ret (.ok true)
      | some (some false) | some none => ret (.ok false)

/-- `cleanup_if_orphaned`. -/
def cleanupIfOrphaned (fuel : ℕ) (h : H) : Db H Unit := do
  match ← issue (.cleanupOrphaned h) with
  | some true => purgeDerivedBlobs (removeReference fuel) h
  | _ => ret ()

/-! ### Garbage collection -/

/-- Purge what is derived from every listed hash. -/
def purgeAll (fuel : ℕ) : List H → Db H Unit
  | [] => ret ()
  | h :: hs => do
    purgeDerivedBlobs (removeReference fuel) h
    purgeAll fuel hs

/-- The chunk dereference of one batch: the plain statement for a single manifest, the aggregated one
otherwise. -/
def releaseReaped : List (H × List H × ℕ) → Db H (Option Unit)
  | [(_, chunks, _)] => issue (.releaseChunks chunks)
  | batch => issue (.releaseBatch (batch.map fun x => x.2.1))

/-- Phase 1 of `garbage_collect_with_grace`: the number of manifests deleted and their bytes. -/
def gcManifests (fuel : ℕ) : ℕ → ℕ × ℕ → Db H (Except DomainError (ℕ × ℕ))
  | 0, total => ret (.ok total)
  | rounds + 1, total => do
    match ← issue .reapManifests with
    | none => ret (.error (internalError "Dedup"))
    | some batch =>
      if batch.isEmpty then ret (.ok total)
      else
        purgeAll fuel (batch.map Prod.fst)
        match ← releaseReaped batch with
        | none => ret (.error (internalError "Dedup"))
        | some _ =>
          purgeAll fuel (batch.map Prod.fst)
          gcManifests fuel rounds
            (total.1 + batch.length, total.2 + (batch.map fun x => x.2.2).sum)

/-- Phase 2 of `garbage_collect_with_grace`. -/
def gcBlobs (fuel grace : ℕ) : ℕ → ℕ × ℕ → Db H (Except DomainError (ℕ × ℕ))
  | 0, total => ret (.ok total)
  | rounds + 1, total => do
    match ← issue (.reapBlobs grace) with
    | none => ret (.error (internalError "Dedup"))
    | some batch =>
      if batch.isEmpty then ret (.ok total)
      else
        purgeAll fuel (batch.map Prod.fst)
        gcBlobs fuel grace rounds (total.1 + batch.length, total.2 + (batch.map Prod.snd).sum)

/-- `garbage_collect_with_grace`. -/
def garbageCollectWithGrace (fuel rounds grace : ℕ) : Db H (Except DomainError (ℕ × ℕ)) := do
  match ← gcManifests fuel rounds (0, 0) with
  | .error e => ret (.error e)
  | .ok total => gcBlobs fuel grace rounds total

/-- `garbage_collect`, the `dedup_gc` job. -/
def garbageCollect (fuel rounds : ℕ) : Db H (Except DomainError (ℕ × ℕ)) :=
  garbageCollectWithGrace fuel rounds gcOrphanGraceSecs

/-! ### Derived and attached blobs -/

/-- `store_attached_blob`. The reference of the row read before the upsert is released, also when the
content is the same. -/
def storeAttachedBlob (blake3 : Bytes → H) (fuel : ℕ) (k : AttachedKey) (source : Source) :
    Db H (Except DomainError H) := do
  match ← storeFromStream blake3 source with
  | .error e => ret (.error e)
  | .ok stored =>
    match ← issue (.selectAttached k) with
    | none => ret (.error (internalError "Dedup"))
    | some previous =>
      match ← issue (.upsertAttached k stored.hash previous) with
      | none => ret (.error (internalError "Dedup"))
      | some _ =>
        match previous with
        | some old =>
          let _ ← removeReference fuel old
          ret (.ok stored.hash)
        | none => ret (.ok stored.hash)

/-- `AttachedBlobInsertOutcome`. -/
inductive AttachedInsert (H : Type) where
  | inserted (hash : H)
  | alreadyPresent (existing : Option H)

/-- `store_attached_blob_if_absent`. -/
def storeAttachedBlobIfAbsent (blake3 : Bytes → H) (fuel : ℕ) (k : AttachedKey) (source : Source) :
    Db H (Except DomainError (AttachedInsert H)) := do
  match ← storeFromStream blake3 source with
  | .error e => ret (.error e)
  | .ok stored =>
    match ← issue (.insertAttached k stored.hash) with
    | none => ret (.error (internalError "Dedup"))
    | some true => ret (.ok (.inserted stored.hash))
    | some false =>
      let _ ← removeReference fuel stored.hash
      let existing ← issue (.selectAttached k)
      ret (.ok (.alreadyPresent existing.join))

/-- `store_derived_blob`. -/
def storeDerivedBlob (blake3 : Bytes → H) (fuel : ℕ) (k : DerivedKey H) (source : Source) :
    Db H (Except DomainError H) := do
  match ← storeFromStream blake3 source with
  | .error e => ret (.error e)
  | .ok stored =>
    match ← issue (.insertDerived k stored.hash) with
    | none => ret (.error (internalError "Dedup"))
    | some true => ret (.ok stored.hash)
    | some false =>
      let _ ← removeReference fuel stored.hash
      ret (.ok stored.hash)

/-! ### Loose chunks -/

/-- `CDC_MAX_CHUNK`. -/
def cdcMaxChunk : ℕ := 1048576

/-- The frames of a chunk upload; `none` is a frame the transport failed on. -/
abbrev Frames := List (Option Bytes)

/-- The loop of `store_loose_chunks`: the received hashes and sizes, and the rows to register. A rejected
frame leaves the objects written before it. -/
def looseLoop (blake3 : Bytes → H) : Frames → List (H × ℕ) → List (H × ℕ) →
    Db H (Except DomainError (List (H × ℕ) × List (H × ℕ)))
  | [], received, newRows => ret (.ok (received, newRows))
  | none :: _, _, _ => ret (.error (internalError "Chunk"))
  | some data :: rest, received, newRows =>
    if cdcMaxChunk < data.length then ret (.error validationError)
    else
      let row := (blake3 data, data.length)
      if row.1 ∈ newRows.map Prod.fst then looseLoop blake3 rest (received ++ [row]) newRows
      else do
        match ← issue (.putUnsynced .loose row.1 data) with
        | none => ret (.error (internalError "Blob"))
        | some _ => looseLoop blake3 rest (received ++ [row]) (newRows ++ [row])

/-- `store_loose_chunks`. -/
def storeLooseChunks (blake3 : Bytes → H) (frames : Frames) :
    Db H (Except DomainError (List (H × ℕ))) := do
  match ← looseLoop blake3 frames [] [] with
  | .error e => ret (.error e)
  | .ok (received, newRows) =>
    if newRows.isEmpty then ret (.ok received)
    else
      match ← issue (.syncBlobs (newRows.map Prod.fst)) with
      | none => ret (.error (internalError "Blob"))
      | some _ =>
        match ← issue (.registerOrphans newRows) with
        | none => ret (.error (internalError "Dedup"))
        | some _ => ret (.ok received)

/-- `hash_chunk_sequence` from the bytes hashed so far: read every chunk, check its size against the
declared one. -/
def hashChunkSequence (blake3 : Bytes → H) : List (H × ℕ) → Bytes → Db H (Except DomainError H)
  | [], content => ret (.ok (blake3 content))
  | (h, declared) :: rest, content => do
    match ← issue (.readObject h) with
    | none => ret (.error (internalError "Dedup"))
    | some data =>
      if data.length ≠ declared then ret (.error validationError)
      else hashChunkSequence blake3 rest (content ++ data)

/-! ### Legacy re-chunking -/

/-- Read the listed chunks one after the other. -/
def readChunks : List H → Bytes → Db H (Except DomainError Bytes)
  | [], content => ret (.ok content)
  | h :: hs, content => do
    match ← issue (.readObject h) with
    | none => ret (.error (notFound "Blob"))
    | some data => readChunks hs (content ++ data)

/-- `read_blob_stream`: the chunks of the manifest, or the object itself without one. -/
def readBlobStream (h : H) : Db H (Except DomainError Bytes) := do
  match ← issue (.loadManifest h) with
  | none => ret (.error (internalError "Dedup"))
  | some (some m) => readChunks m.chunkHashes []
  | some none => readChunks [h] []

/-- `ingest_legacy_blob`. `cut` gives, for the bytes read, the stream the chunker sees. -/
def ingestLegacyBlob (blake3 : Bytes → H) (cut : Bytes → Source) (h : H) :
    Db H (Except DomainError (IngestOutcome H)) := do
  match ← readBlobStream h with
  | .error e => ret (.error e)
  | .ok data =>
    match ← ingestChunksFromStream blake3 (cut data) with
    | .error e => ret (.error e)
    | .ok o =>
      if o.fileHash = h then ret (.ok o)
      else
        releaseChunkRefs o.distinctHashes
        ret (.error (internalError "Dedup"))

/-- `rechunk_one_legacy_blob`; the bytes freed. -/
def rechunkOneLegacyBlob (blake3 : Bytes → H) (cut : Bytes → Source) (h : H) :
    Db H (Except DomainError ℕ) := do
  match ← ingestLegacyBlob blake3 cut h with
  | .error e => ret (.error e)
  | .ok o =>
    match ← issue (.rechunk h o.chunkHashes o.chunkSizes) with
    | none => ret (.error (internalError "Dedup"))
    | some none =>
      releaseChunkRefs o.chunkHashes
      ret (.ok 0)
    | some (some deleted) =>
      if deleted && !(o.chunkHashes.contains h) then
        match ← issue (.deleteObject h) with
        | some _ => ret (.ok o.chunkSizes.sum)
        | none =>
          let _ ← issue (.enqueueDeletion h)
          ret (.ok 0)
      else ret (.ok 0)

end OxiCloud.BlobHandler
