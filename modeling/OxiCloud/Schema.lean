import OxiCloud.Lib.Tables

/-! # The tables of the blob store

The rows of the PostgreSQL schema `storage` that the blob handler reads and writes, and the objects of
the blob backend. Only the columns some statement reads or decides on are kept. Hashes are an
arbitrary type `H` (BLAKE3 digests in the code), times are seconds.

A hash can name a manifest (`chunkManifests`, keyed by the hash of a whole file) and a blob row
(`blobs`, keyed by the hash of a chunk, or of a whole file stored before chunking). `references s h` is
the number of rows of `files`, `contentDerivedBlobs` and `fileAttachedBlobs` that name `h`;
`containing s h` is the number of manifests that list `h` as a chunk. These are what the two
`ref_count` columns are meant to count. -/

namespace OxiCloud.Schema

open Lib.Tables

abbrev Bytes := List UInt8

/-- The objects a backend holds, by hash. -/
abbrev Objects (H : Type) := H → Option Bytes

abbrev FileId := ℕ

abbrev FolderId := ℕ

/-- A row of `storage.chunk_manifests`. -/
structure Manifest (H : Type) where
  chunkHashes : List H
  chunkSizes : List ℕ
  totalSize : ℕ
  refCount : ℕ
  deriving DecidableEq

/-- A row of `storage.blobs`. -/
structure BlobRow where
  size : ℕ
  refCount : ℕ
  orphanedAt : Option ℕ
  deriving DecidableEq

/-- A row of `storage.files`. -/
structure FileRow (H : Type) where
  folderId : FolderId
  name : String
  blobHash : H
  isTrashed : Bool
  deriving DecidableEq

/-- The kinds admitted by the check constraint of `storage.content_derived_blobs`. -/
inductive DerivedKind where
  | thumbnail
  | transcode
  deriving DecidableEq

/-- The kinds admitted by the check constraint of `storage.file_attached_blobs`. -/
inductive AttachedKind where
  | preview
  | subtitle
  | coverArt
  deriving DecidableEq

/-- The primary key of `storage.content_derived_blobs`. -/
structure DerivedKey (H : Type) where
  sourceHash : H
  kind : DerivedKind
  variant : String
  deriving DecidableEq

/-- The primary key of `storage.file_attached_blobs`. -/
structure AttachedKey where
  fileId : FileId
  kind : AttachedKind
  variant : String
  deriving DecidableEq

/-- A row of `storage.pending_actions`, a queued deletion. `locked` is the row lock a drain holds on it
between its `SELECT … FOR UPDATE` and the end of its transaction. -/
structure PendingAction where
  attempts : ℕ
  parked : Bool
  locked : Bool
  deriving DecidableEq

/-- The database and the blob backend. -/
structure Store (H : Type) where
  now : ℕ
  folders : Finset FolderId
  files : Table FileId (FileRow H)
  chunkManifests : Table H (Manifest H)
  blobs : Table H BlobRow
  /-- `none` is a negative row: the derivation is known not to be worth storing. -/
  contentDerivedBlobs : Table (DerivedKey H) (Option H)
  fileAttachedBlobs : Table AttachedKey H
  pendingActions : Table H PendingAction
  objects : Table H Bytes

instance lawfulOption {H : Type} [DecidableEq H] : LawfulBEq (Option H) := inferInstance

namespace Store

variable {H : Type}

/-- The store of a fresh installation with some folders. -/
def fresh (folders : Finset FolderId) : Store H where
  now := 0
  folders := folders
  files := .empty
  chunkManifests := .empty
  blobs := .empty
  contentDerivedBlobs := .empty
  fileAttachedBlobs := .empty
  pendingActions := .empty
  objects := .empty

/-- `chunk_manifests.ref_count` of `h`, `0` without a row. -/
def manifestRefs (s : Store H) (h : H) : ℕ := (s.chunkManifests.get h).elim 0 Manifest.refCount

/-- `blobs.ref_count` of `h`, `0` without a row. -/
def blobRefs (s : Store H) (h : H) : ℕ := (s.blobs.get h).elim 0 BlobRow.refCount

variable [DecidableEq H]

/-- The number of rows of `files` that name `h`. -/
def filesNaming (s : Store H) (h : H) : ℕ := s.files.count fun _ r => r.blobHash = h

/-- The number of rows of `contentDerivedBlobs` that name `h` as the derived blob. -/
def derivedNaming (s : Store H) (h : H) : ℕ := s.contentDerivedBlobs.count fun _ r => r = some h

/-- The number of rows of `fileAttachedBlobs` that name `h`. -/
def attachedNaming (s : Store H) (h : H) : ℕ := s.fileAttachedBlobs.count fun _ r => r = h

/-- The number of rows that hold a reference on `h`. -/
def references (s : Store H) (h : H) : ℕ := s.filesNaming h + s.derivedNaming h + s.attachedNaming h

/-- The number of manifests that list `h` among their chunks. -/
def containing (s : Store H) (h : H) : ℕ := s.chunkManifests.count fun _ m => h ∈ m.chunkHashes

end Store

/-- The kinds of `DomainError` the modelled functions return. -/
inductive ErrorKind where
  | notFound
  | alreadyExists
  | invalidInput
  | accessDenied
  | transientBackend
  | internalError
  | quotaExceeded
  | preconditionFailed
  | unsupportedOperation
  | conflict
  | databaseError
  deriving DecidableEq

/-- A domain error: its kind and the entity type it names. -/
structure DomainError where
  kind : ErrorKind
  entityType : String
  deriving DecidableEq

/-- `DomainError::internal_error`. -/
def internalError (entity : String) : DomainError := ⟨.internalError, entity⟩

/-- `DomainError::validation_error`. -/
def validationError : DomainError := ⟨.invalidInput, "Validation"⟩

/-- `DomainError::not_found`. -/
def notFound (entity : String) : DomainError := ⟨.notFound, entity⟩

/-- `DomainError::already_exists`. -/
def alreadyExists (entity : String) : DomainError := ⟨.alreadyExists, entity⟩

/-- `DomainError::precondition_failed`. -/
def preconditionFailed (entity : String) : DomainError := ⟨.preconditionFailed, entity⟩

/-- `DomainError::operation_not_supported`. -/
def operationNotSupported (entity : String) : DomainError := ⟨.unsupportedOperation, entity⟩

end OxiCloud.Schema
