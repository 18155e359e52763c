import OxiCloud.Folders.Statements

/-! # Tree ETags

The column `tree_modified_at` of the folders and the queue `storage.tree_etag_dirty`. After a statement
on `storage.folders` or `storage.files` the statement triggers look at the rows it changed
(`Database.fire`): the folders above a changed folder are bumped at once, unless the parent was changed
by the same statement or one of them is locked by another transaction, in which case the parent is
queued; the folder of a changed file is always queued. A flush drains the head of the queue and bumps
the folders above the queued ones, by the path that was queued and by the path the queued folder has
now.

The clock counts microseconds, as `NOW()` does. -/

namespace OxiCloud.Folders

open Lib.Tables Schema

/-- A row of `storage.tree_etag_dirty`. -/
structure DirtyEntry where
  lpath : LPath
  folderId : Option FolderId
  driveId : Option DriveId
  deriving DecidableEq

/-- An argument of `tree_etag_bump_or_enqueue`: a folder to be bumped with all folders above it. -/
structure Target where
  lpath : LPath
  folderId : Option FolderId
  driveId : DriveId
  immediate : Bool
  deriving DecidableEq

/-- The queue row of a target. -/
def Target.entry (g : Target) : DirtyEntry := ⟨g.lpath, g.folderId, some g.driveId⟩

/-- The tables with the tree ETags. -/
structure Database where
  tree : Tree
  treeModifiedAt : FolderId → ℕ
  dirty : List DirtyEntry

/-- `interval '1 second'`. -/
def second : ℕ := 1000000

/-- `DRAIN_BATCH`. -/
def drainBatch : ℕ := 5000

/-- `MAX_BATCHES_PER_TICK`. -/
def maxBatchesPerTick : ℕ := 8

namespace Database

/-- The database of a fresh installation. -/
def fresh : Database := ⟨.empty, fun _ => 0, []⟩

/-- `GREATEST(NOW(), tree_modified_at + interval '1 second')` for the folders `S`. -/
def bump (db : Database) (S : Finset FolderId) : Database :=
  { db with treeModifiedAt := fun f =>
      if f ∈ S then max db.tree.now (db.treeModifiedAt f + second) else db.treeModifiedAt f }

/-- The folders of the targets to be bumped at once, and all folders above them. -/
def wanted (t : Tree) (targets : List Target) : Finset FolderId :=
  t.folders.sat fun _ r => targets.any fun g =>
    g.immediate && decide (r.lpath <+: g.lpath) && decide (r.driveId = g.driveId)

/-- `tree_etag_bump_or_enqueue`. -/
def bumpOrEnqueue (locked : Finset FolderId) (db : Database) (targets : List Target) : Database :=
  let want := wanted db.tree targets
  let bumped := want \ locked
  { db.bump bumped with
    dirty := db.dirty ++
      (targets.filter fun g => !g.immediate || decide (bumped.card < want.card)).map Target.entry }

/-! ### The triggers on `storage.folders` -/

/-- The parent of a changed row as a target. It waits for the queue if it is among the changed rows. -/
def parentTarget (changed : List FolderId) (r : Folder) : Option Target :=
  if 1 < r.lpath.length then
    some ⟨r.lpath.dropLast, r.parentId, r.driveId, !r.parentId.any (· ∈ changed)⟩
  else none

/-- The targets of a statement that changed these rows. -/
def folderTargets (rows : List (FolderId × Folder)) : List Target :=
  rows.filterMap fun x => parentTarget (rows.map Prod.fst) x.2

/-- The elements of a finite set, in order. -/
def inOrder (S : Finset ℕ) : List ℕ := (List.range (S.sup id + 1)).filter (· ∈ S)

theorem mem_inOrder {S : Finset ℕ} {x : ℕ} : x ∈ inOrder S ↔ x ∈ S := by
  rw [inOrder, List.mem_filter, List.mem_range, decide_eq_true_eq]
  constructor
  · exact fun h => h.2
  · intro h
    have hle : x ≤ S.sup id := Finset.le_sup (f := id) h
    exact ⟨by omega, h⟩

/-- The rows of the folders `S`. -/
def rowsOf (t : Tree) (S : Finset FolderId) : List (FolderId × Folder) :=
  (inOrder S).filterMap fun f => (t.folders.get f).map fun r => (f, r)

/-- The columns the update trigger compares. -/
def folderKey (r : Folder) : Text × Option FolderId × Bool × ℕ :=
  (r.name, r.parentId, r.isTrashed, r.updatedAt)

/-- The folders inserted by a statement. -/
def insertedFolders (t t' : Tree) : Finset FolderId := t'.folders.keys \ t.folders.keys

/-- The folders updated by a statement. -/
def updatedFolders (t t' : Tree) : Finset FolderId :=
  (t.folders.keys ∩ t'.folders.keys).filter fun f =>
    (t.folders.get f).map folderKey ≠ (t'.folders.get f).map folderKey

/-- The folders a statement deletes itself, and not through a cascade. -/
def deletedFolders (op : Op) (ch : Draw) (t : Tree) : Finset FolderId :=
  match op with
  | .deleteFolder id => t.folders.keys ∩ {id}
  | .clearFolders drives => t.folders.sat fun _ r => r.driveId ∈ drives && r.isTrashed
  | .expireFolders _ => ch.pick
  | _ => ∅

/-- The levels at which a copy of a tree has inserted folders, each by a statement of its own. -/
def levels (t' : Tree) (S : Finset FolderId) : List ℕ :=
  inOrder ((rowsOf t' S).map fun x => x.2.lpath.length).toFinset

/-- The inserts of a statement: one, or one a level for the copy of a tree. -/
def insertBatches (op : Op) (t t' : Tree) : List (List Target) :=
  let S := insertedFolders t t'
  match op with
  | .copyFolderTree _ _ _ => (levels t' S).map fun l =>
      folderTargets ((rowsOf t' S).filter fun x => x.2.lpath.length = l)
  | _ => [folderTargets (rowsOf t' S)]

/-- The targets of the triggers on `storage.folders`, one list for each time one fires. -/
def folderBatches (op : Op) (ch : Draw) (t t' : Tree) : List (List Target) :=
  insertBatches op t t' ++
    [folderTargets (rowsOf t (updatedFolders t t') ++ rowsOf t' (updatedFolders t t')),
      folderTargets (rowsOf t (deletedFolders op ch t))]

/-! ### The triggers on `storage.files` -/

/-- The columns of a file the update trigger compares. -/
structure FileKey where
  name : Text
  folderId : Option FolderId
  blobHash : Text
  size : ℕ
  isTrashed : Bool
  updatedAt : ℕ
  deriving DecidableEq

/-- These columns of a row. -/
def fileKey (r : File) : FileKey :=
  ⟨r.name, r.folderId, r.blobHash, r.size, r.isTrashed, r.updatedAt⟩

/-- The statement deletes files only through a cascade, where the trigger returns at once. -/
def cascades : Op → Bool
  | .deleteFolder _ | .clearFolders _ | .expireFolders _ => true
  | _ => false

/-- The files inserted, updated or deleted by a statement. -/
def changedFiles (op : Op) (t t' : Tree) : Finset FileId :=
  (t.files.keys ∪ t'.files.keys).filter fun x =>
    (t.files.get x).map fileKey ≠ (t'.files.get x).map fileKey ∧
      (cascades op && (t'.files.get x).isNone) = false

/-- The folders the changed files were in or are in. -/
def touchedFolders (op : Op) (t t' : Tree) : Finset FolderId :=
  t'.folders.sat fun f _ => decide (∃ x ∈ changedFiles op t t',
    (t.files.get x).bind File.folderId = some f ∨ (t'.files.get x).bind File.folderId = some f)

/-- The queue rows of the triggers on `storage.files`. -/
def fileEntries (op : Op) (t t' : Tree) : List DirtyEntry :=
  (rowsOf t' (touchedFolders op t t')).map fun x => ⟨x.2.lpath, some x.1, some x.2.driveId⟩

/-! ### Statements with their triggers -/

/-- The database after a statement has left the tables `t'`. A new folder gets the default `NOW()`. -/
def fire (op : Op) (ch : Draw) (db : Database) (t' : Tree) : Database :=
  let start : Database := ⟨t', fun f =>
    if (db.tree.folders.get f).isNone && (t'.folders.get f).isSome then t'.now
    else db.treeModifiedAt f, db.dirty⟩
  let db' := (folderBatches op ch db.tree t').foldl (bumpOrEnqueue ch.locked) start
  { db' with dirty := db'.dirty ++ fileEntries op db.tree t' }

/-- A statement with its triggers. -/
def run (op : Op) (ch : Draw) (db : Database) : Except SqlError ℕ × Database :=
  match db.tree.effect op ch with
  | .error e => (.error e, db)
  | .ok (n, t') => (.ok n, db.fire op ch t')

/-! ### The flush -/

/-- The targets of a flush: every queued path, and the path each queued folder has now. -/
def flushTargets (t : Tree) (l : List DirtyEntry) : List (LPath × Option DriveId) :=
  l.map (fun e => (e.lpath, e.driveId)) ++
    l.filterMap fun e => (e.folderId.bind t.folders.get).map fun r => (r.lpath, some r.driveId)

/-- The folders a flush bumps. -/
def victims (t : Tree) (targets : List (LPath × Option DriveId)) : Finset FolderId :=
  t.folders.sat fun _ r => targets.any fun g => decide (r.lpath <+: g.1) && g.2.all (· = r.driveId)

/-- One statement of the flush. -/
def flush (db : Database) : Database :=
  { db.bump (victims db.tree (flushTargets db.tree (db.dirty.take drainBatch))) with
    dirty := db.dirty.drop drainBatch }

end Database

end OxiCloud.Folders
