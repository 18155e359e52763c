import OxiCloud.Folders.Schema

/-! # The statements of the folder tree

What every SQL statement (or single transaction) of the folder, file, trash and drive repositories does
to the tables, with the triggers on `storage.folders` that maintain `path`, `lpath` and `drive_id`:
`computeFolderPath` runs before a row is inserted or its `name` or `parent_id` is set,
`cascadeFolderPath` after one of these columns or `drive_id` was set, outside of other triggers.

A statement reports the number of rows it affected. It fails as a whole if the resulting tables violate
a unique index (`23505`) or another constraint, or if the connection is lost. The environment draws the
identifiers of new rows and picks the rows a `LIMIT` keeps. -/

namespace OxiCloud.Folders

open Lib.Tables Schema

/-- How a statement fails: on a unique index, or otherwise. -/
inductive SqlError where
  | uniqueViolation
  | other
  deriving DecidableEq

/-- What the environment settles at a statement. `locked` are the folder rows locked by other
transactions. -/
structure Draw where
  fault : Bool := false
  newFolder : FolderId := 0
  newFile : FileId := 0
  newDrive : DriveId := 0
  folderCopies : List (FolderId × FolderId) := []
  fileCopies : List (FileId × FileId) := []
  pick : Finset ℕ := ∅
  locked : Finset FolderId := ∅

/-- The statements that change the tables. -/
inductive Op where
  | tick (elapsed : ℕ)
  /-- The transaction of `create_personal_drive_atomic` and `create_shared_drive_atomic`. -/
  | createDrive (name : Text)
  -- folders
  | insertFolder (name : Text) (parent : FolderId) (drive : DriveId)
  | renameFolder (id : FolderId) (name : Text)
  | moveFolder (id : FolderId) (parent : Option FolderId)
  | trashFolder (id : FolderId)
  | restoreFolder (id : FolderId)
  | deleteFolderFiles (id : FolderId)
  | deleteFolder (id : FolderId)
  | copyFolderTree (source : FolderId) (target : Option FolderId) (destName : Option Text)
  -- files
  | insertFile (name : Text) (folder : FolderId) (hash : Text) (size : ℕ)
  | renameFile (id : FileId) (name : Text)
  | moveFile (id : FileId) (target : Option FolderId)
  | copyFile (id : FileId) (target : Option FolderId) (name : Option Text)
  | swapBlobHash (id : FileId) (hash : Text) (size : ℕ) (expected : Option Text)
  | trashFile (id : FileId)
  | restoreFile (id : FileId)
  | deleteFile (id : FileId)
  -- the trash
  | clearFiles (drives : List DriveId)
  | clearFolders (drives : List DriveId)
  | expireFiles (cutoff : ℕ)
  | expireFolders (cutoff : ℕ)
  deriving DecidableEq

/-! ### Changes of one row -/

/-- A row of `cascade_folder_path` with its path below `old` replaced by one below `new`. -/
def Folder.rebase (r old new : Folder) : Folder :=
  { r with
    path := new.path ++ r.path.drop old.path.length
    lpath := new.lpath ++ r.lpath.drop old.lpath.length }

/-- `is_trashed = TRUE, trashed_at = NOW(), updated_at = NOW()`. -/
def Folder.trash (now : ℕ) (r : Folder) : Folder :=
  { r with isTrashed := true, trashedAt := some now, updatedAt := now }

/-- `is_trashed = FALSE, trashed_at = NULL, updated_at = NOW()`. -/
def Folder.restore (now : ℕ) (r : Folder) : Folder :=
  { r with isTrashed := false, trashedAt := none, updatedAt := now }

/-- The same columns of a file. -/
def File.trash (now : ℕ) (r : File) : File :=
  { r with isTrashed := true, trashedAt := some now, updatedAt := now }

/-- The same columns of a file. -/
def File.restore (now : ℕ) (r : File) : File :=
  { r with isTrashed := false, trashedAt := none, updatedAt := now }

/-- The row of a restored root, before the trigger recomputes its path. -/
def Folder.restoreRoot (now : ℕ) (r : Folder) : Folder :=
  { r.restore now with parentId := r.originalParentId <|> r.parentId, originalParentId := none }

namespace Tree

/-! ### Triggers on `storage.folders` -/

/-- `compute_folder_path`. Without a row of the parent the path is `NULL`, which the column refuses. -/
def computeFolderPath (t : Tree) (id : FolderId) (r : Folder) : Option Folder :=
  match r.parentId with
  | none => some { r with path := r.name, lpath := [id] }
  | some p => (t.folders.get p).map fun q =>
      { r with path := q.path ++ '/' :: r.name, lpath := q.lpath ++ [id] }

/-- The batch update of `path` and `lpath` of the rows below `old`. -/
def rebasePaths (t : Tree) (id : FolderId) (old new : Folder) : Tree :=
  { t with folders := t.folders.modify fun f r =>
      if old.lpath <+: r.lpath ∧ f ≠ id then r.rebase old new else r }

/-- `subpath(lpath, nlevel(OLD.lpath))` is an error on a row that has no further label. -/
def Rebasable (t : Tree) (id : FolderId) (old : Folder) : Prop :=
  t.folders.Forall fun f r => old.lpath <+: r.lpath → f ≠ id → old.lpath.length < r.lpath.length

instance (t : Tree) (id : FolderId) (old : Folder) : Decidable (t.Rebasable id old) := by
  unfold Rebasable; infer_instance

/-- The update of `drive_id` of the folders and files below `new` that were in the drive of `old`. -/
def rebaseDrives (t : Tree) (old new : Folder) : Tree :=
  { t with
    folders := t.folders.modify fun _ r =>
      if new.lpath <+: r.lpath ∧ r.driveId = old.driveId then { r with driveId := new.driveId } else r
    files := t.files.modify fun _ r =>
      if r.folderId.any (t.under new.lpath) ∧ r.driveId = old.driveId then
        { r with driveId := new.driveId } else r }

/-- The branch of `cascade_folder_path` for `drive_id`. -/
def cascadeDrives (t : Tree) (old new : Folder) : Tree :=
  if old.driveId ≠ new.driveId then t.rebaseDrives old new else t

/-- `cascade_folder_path` after the row of `id` changed from `old` to `new`. -/
def cascadeFolderPath (t : Tree) (id : FolderId) (old new : Folder) : Option Tree :=
  if old.path ≠ new.path ∨ old.lpath ≠ new.lpath then
    if t.Rebasable id old then some ((t.rebasePaths id old new).cascadeDrives old new) else none
  else some (t.cascadeDrives old new)

/-! ### The end of a statement -/

/-- The statement has changed `n` rows and left the tables `t`, which are checked. -/
def commit (n : ℕ) (t : Tree) : Except SqlError (ℕ × Tree) :=
  if ¬ t.UniqueNames then .error .uniqueViolation
  else if ¬ t.References then .error .other
  else .ok (n, t)

/-- The same for tables that may not have come about. -/
def commitSome (n : ℕ) : Option Tree → Except SqlError (ℕ × Tree)
  | some t => t.commit n
  | none => .error .other

/-! ### Drives and folders -/

/-- Drive, root folder and wiring in one transaction. -/
def createDrive (t : Tree) (drive : DriveId) (root : FolderId) (name : Text) :
    Except SqlError (ℕ × Tree) :=
  if (t.drives.get drive).isSome ∨ (t.folders.get root).isSome then .error .uniqueViolation
  else commit 1
    { t with
      drives := t.drives.set drive ⟨some root, false, false⟩
      folders := t.folders.set root ⟨name, none, drive, name, [root], false, none, none, t.now⟩ }

/-- The row of a new folder before the trigger fills in its path. -/
def newFolderRow (now : ℕ) (name : Text) (parent : Option FolderId) (drive : DriveId) : Folder :=
  ⟨name, parent, drive, [], [], false, none, none, now⟩

/-- One inserted row of `storage.folders`. -/
def addFolder (t : Tree) (id : FolderId) (name : Text) (parent : Option FolderId) (drive : DriveId) :
    Option Tree :=
  (t.computeFolderPath id (newFolderRow t.now name parent drive)).map fun r =>
    { t with folders := t.folders.set id r }

/-- The `INSERT` of `create_folder`. -/
def insertFolder (t : Tree) (id : FolderId) (name : Text) (parent : FolderId) (drive : DriveId) :
    Except SqlError (ℕ × Tree) :=
  if (t.folders.get id).isSome then .error .uniqueViolation
  else commitSome 1 (t.addFolder id name (some parent) drive)

/-- An `UPDATE` of the row of `id` that sets `name` or `parent_id`, with both triggers. -/
def relink (t : Tree) (id : FolderId) (old : Folder) (f : Folder → Folder) : Option Tree :=
  (t.computeFolderPath id (f old)).bind fun new =>
    cascadeFolderPath { t with folders := t.folders.set id new } id old new

/-- `rename_folder`. -/
def renameFolder (t : Tree) (id : FolderId) (name : Text) : Except SqlError (ℕ × Tree) :=
  match t.folders.get id with
  | none => .ok (0, t)
  | some r =>
    if r.isTrashed then .ok (0, t)
    else commitSome 1 (t.relink id r fun r => { r with name := name, updatedAt := t.now })

/-- `move_folder`. The trash flag of the destination is not looked at. -/
def moveFolder (t : Tree) (id : FolderId) (parent : Option FolderId) : Except SqlError (ℕ × Tree) :=
  match t.folders.get id with
  | none => .ok (0, t)
  | some r =>
    if r.isTrashed then .ok (0, t)
    else
      let dest := (parent.bind t.folders.get).map Folder.driveId
      commitSome 1 (t.relink id r fun r =>
        { r with parentId := parent, driveId := dest.getD r.driveId, updatedAt := t.now })

/-! ### Trashing and restoring folders -/

/-- The root is marked with its parent, the live rows below it are not marked. -/
def trashSubtree (t : Tree) (id : FolderId) (l : LPath) : Tree :=
  { t with
    folders := t.folders.modify fun f r =>
      if f = id then { r.trash t.now with originalParentId := r.parentId }
      else if l <+: r.lpath ∧ r.isTrashed = false then r.trash t.now
      else r
    files := t.files.modify fun _ r =>
      if r.folderId.any (t.under l) ∧ r.isTrashed = false then r.trash t.now else r }

/-- `move_to_trash` of a folder. -/
def trashFolder (t : Tree) (id : FolderId) : Except SqlError (ℕ × Tree) :=
  match t.folders.get id with
  | none => .ok (0, t)
  | some root => if root.isTrashed then .ok (0, t) else commit 1 (t.trashSubtree id root.lpath)

/-- The root gets the row `new`, the unmarked rows below the place it returns to are restored. -/
def restoreSubtree (t : Tree) (id : FolderId) (new : Folder) : Tree :=
  { t with
    folders := t.folders.modify fun f r =>
      if f = id then new
      else if new.lpath <+: r.lpath ∧ r.isTrashed = true ∧ r.originalParentId = none then
        r.restore t.now
      else r
    files := t.files.modify fun _ r =>
      if r.folderId.any (t.under new.lpath) ∧ r.isTrashed = true ∧ r.originalFolderId = none then
        r.restore t.now
      else r }

/-- `restore_from_trash` of a folder. All parts of the statement read the tables as they were before
it; the triggers run on the root alone, no other row has one of their columns set. -/
def restoreFolder (t : Tree) (id : FolderId) : Except SqlError (ℕ × Tree) :=
  match t.folders.get id with
  | none => .ok (0, t)
  | some old =>
    if old.isTrashed then
      commitSome 1 ((t.computeFolderPath id (old.restoreRoot t.now)).bind fun new =>
        (t.restoreSubtree id new).cascadeFolderPath id old new)
    else .ok (0, t)

/-! ### Deleting folders -/

/-- `DELETE FROM storage.files` of the files in the subtree of a folder. -/
def deleteFolderFiles (t : Tree) (id : FolderId) : ℕ × Tree :=
  match t.folders.get id with
  | none => (0, t)
  | some root =>
    (t.files.count fun _ r => r.folderId.any (t.under root.lpath),
      { t with files := t.files.filter fun _ r => !r.folderId.any (t.under root.lpath) })

/-- `DELETE FROM storage.folders WHERE id = $1`. -/
def deleteFolder (t : Tree) (id : FolderId) : ℕ × Tree :=
  if (t.folders.get id).isSome then (1, t.deleteCascade {id}) else (0, t)

/-! ### Files -/

/-- An `UPDATE` of the row of one file. -/
def updateFile (t : Tree) (id : FileId) (p : File → Bool) (f : File → File) :
    Except SqlError (ℕ × Tree) :=
  match t.files.get id with
  | none => .ok (0, t)
  | some r => if p r then commit 1 { t with files := t.files.set id (f r) } else .ok (0, t)

/-- An inserted row of `storage.files`. -/
def addFile (t : Tree) (id : FileId) (name : Text) (folder : FolderId) (drive : DriveId) (hash : Text)
    (size : ℕ) : Tree :=
  { t with files := t.files.set id ⟨name, some folder, drive, hash, size, false, none, none, t.now⟩ }

/-- The `INSERT … SELECT … FROM parent` of an upload. -/
def insertFile (t : Tree) (id : FileId) (name : Text) (folder : FolderId) (hash : Text) (size : ℕ) :
    Except SqlError (ℕ × Tree) :=
  match t.folders.get folder with
  | none => .ok (0, t)
  | some p =>
    if (t.files.get id).isSome then .error .uniqueViolation
    else commit 1 (t.addFile id name folder p.driveId hash size)

/-- `rename_file`. -/
def renameFile (t : Tree) (id : FileId) (name : Text) : Except SqlError (ℕ × Tree) :=
  t.updateFile id (fun r => !r.isTrashed) fun r => { r with name := name, updatedAt := t.now }

/-- `move_file`. The trash flag of the destination is not looked at. -/
def moveFile (t : Tree) (id : FileId) (target : Option FolderId) : Except SqlError (ℕ × Tree) :=
  let dest := (target.bind t.folders.get).map Folder.driveId
  t.updateFile id (fun r => !r.isTrashed) fun r =>
    { r with folderId := target, driveId := dest.getD r.driveId, updatedAt := t.now }

/-- `copy_file`. -/
def copyFile (t : Tree) (new id : FileId) (target : Option FolderId) (name : Option Text) :
    Except SqlError (ℕ × Tree) :=
  match t.files.get id with
  | none => .ok (0, t)
  | some src =>
    if src.isTrashed then .ok (0, t)
    else
      match (target <|> src.folderId).bind fun f => (t.folders.get f).map fun p => (f, p) with
      | none => .ok (0, t)
      | some (f, p) =>
        if (t.files.get new).isSome then .error .uniqueViolation
        else commit 1 (t.addFile new (name.getD src.name) f p.driveId src.blobHash src.size)

/-- The `UPDATE` of `swap_blob_hash`; a hash other than the expected one leaves the row as it is. -/
def swapBlobHash (t : Tree) (id : FileId) (hash : Text) (size : ℕ) (expected : Option Text) :
    Except SqlError (ℕ × Tree) :=
  t.updateFile id (fun _ => true) fun r =>
    if expected = none ∨ expected = some r.blobHash then
      { r with blobHash := hash, size := size, updatedAt := t.now } else r

/-- `move_to_trash` of a file. -/
def trashFile (t : Tree) (id : FileId) : Except SqlError (ℕ × Tree) :=
  t.updateFile id (fun r => !r.isTrashed) fun r =>
    { r.trash t.now with originalFolderId := r.folderId }

/-- `restore_from_trash` of a file. -/
def restoreFile (t : Tree) (id : FileId) : Except SqlError (ℕ × Tree) :=
  t.updateFile id (fun r => r.isTrashed) fun r =>
    { r.restore t.now with
      folderId := r.originalFolderId <|> r.folderId
      originalFolderId := none }

/-- `DELETE FROM storage.files WHERE id = $1`. -/
def deleteFile (t : Tree) (id : FileId) : ℕ × Tree :=
  if (t.files.get id).isSome then (1, { t with files := t.files.erase id }) else (0, t)

/-! ### Copying a tree -/

/-- `_copy_map` and `_copy_file_map`: every live folder of the subtree, level by level, and every live
file in one of these folders, each with the id drawn for its copy. -/
@[mk_iff] structure CopyPlan (t : Tree) (root : Folder) (fs : List (FolderId × FolderId))
    (xs : List (FileId × FileId)) : Prop where
  folders : ∀ f ∈ t.folders.keys, f ∈ fs.map Prod.fst ↔
    (t.folders.get f).any fun r => !r.isTrashed && decide (root.lpath <+: r.lpath)
  foldersOnly : ∀ f ∈ fs.map Prod.fst, f ∈ t.folders.keys
  foldersOnce : (fs.map Prod.fst).Nodup
  levels : fs.Pairwise fun a b => ∀ r ∈ t.folders.get a.1, ∀ r' ∈ t.folders.get b.1,
    r.lpath.length ≤ r'.lpath.length
  foldersNew : (fs.map Prod.snd).Nodup ∧ ∀ f ∈ fs.map Prod.snd, f ∉ t.folders.keys
  files : ∀ x ∈ t.files.keys, x ∈ xs.map Prod.fst ↔
    (t.files.get x).any fun r => !r.isTrashed && r.folderId.any (· ∈ fs.map Prod.fst)
  filesOnly : ∀ x ∈ xs.map Prod.fst, x ∈ t.files.keys
  filesOnce : (xs.map Prod.fst).Nodup
  filesNew : (xs.map Prod.snd).Nodup ∧ ∀ x ∈ xs.map Prod.snd, x ∉ t.files.keys

instance (t : Tree) (root : Folder) (fs : List (FolderId × FolderId)) (xs : List (FileId × FileId)) :
    Decidable (CopyPlan t root fs xs) :=
  decidable_of_iff' _ (copyPlan_iff t root fs xs)

/-- The copy of one folder. A parent outside of the map, that is a trashed one, is read as `NULL`. -/
def copyFolder (fs : List (FolderId × FolderId)) (source : FolderId) (target : Option FolderId)
    (destName : Option Text) (drive : DriveId) (t : Tree) (c : FolderId × FolderId) : Option Tree :=
  (t.folders.get c.1).bind fun r =>
    t.addFolder c.2 (if c.1 = source then destName.getD r.name else r.name)
      (if c.1 = source then target else r.parentId.bind fun p => fs.lookup p) drive

/-- The copy of one file. -/
def copyFileRow (fs : List (FolderId × FolderId)) (drive : DriveId) (t : Tree)
    (c : FileId × FileId) : Option Tree :=
  (t.files.get c.1).bind fun r => (r.folderId.bind fun p => fs.lookup p).map fun f =>
    t.addFile c.2 r.name f drive r.blobHash r.size

/-- `storage.copy_folder_tree`. The number reported is that of the rows returned, which is one. -/
def copyFolderTree (t : Tree) (fs : List (FolderId × FolderId)) (xs : List (FileId × FileId))
    (source : FolderId) (target : Option FolderId) (destName : Option Text) :
    Except SqlError (ℕ × Tree) :=
  match (t.folders.get source).filter fun r => !r.isTrashed with
  | none => .error .other
  | some root =>
    let dest := match target with
      | none => some root.driveId
      | some p => ((t.folders.get p).filter fun r => !r.isTrashed).map Folder.driveId
    match dest with
    | none => .error .other
    | some drive =>
      if t.CopyPlan root fs xs then
        commitSome 1 ((fs.foldlM (copyFolder fs source target destName drive) t).bind
          (xs.foldlM (copyFileRow fs drive)))
      else .error .other

/-! ### Purging the trash -/

/-- The files `clear_trash` deletes. -/
def clearFiles (t : Tree) (drives : List DriveId) : ℕ × Tree :=
  (t.files.count fun _ r => r.driveId ∈ drives && r.isTrashed,
    { t with files := t.files.filter fun _ r => !(r.driveId ∈ drives && r.isTrashed) })

/-- The folders `clear_trash` deletes. -/
def clearFolders (t : Tree) (drives : List DriveId) : ℕ × Tree :=
  let S := t.folders.sat fun _ r => r.driveId ∈ drives && r.isTrashed
  (S.card, t.deleteCascade S)

/-- A drive whose policies do not freeze it. -/
def thawed (t : Tree) (d : DriveId) : Bool := (t.drives.get d).any fun r => !r.readOnly

/-- Trashed before the cutoff, in a drive that is not frozen. -/
def fileExpired (t : Tree) (cutoff : ℕ) (r : File) : Bool :=
  r.isTrashed && r.trashedAt.any (· < cutoff) && t.thawed r.driveId

/-- Trashed before the cutoff, in a drive that is not frozen. -/
def folderExpired (t : Tree) (cutoff : ℕ) (r : Folder) : Bool :=
  r.isTrashed && r.trashedAt.any (· < cutoff) && t.thawed r.driveId

/-- The rows `ORDER BY trashed_at LIMIT limit` can keep of the rows `S`. -/
def IsBatch (S : Finset ℕ) (age : ℕ → Option ℕ) (limit : ℕ) (pick : Finset ℕ) : Prop :=
  pick ⊆ S ∧ pick.card = min limit S.card ∧
    ∀ x ∈ pick, ∀ y ∈ S, y ∉ pick → (age x).getD 0 ≤ (age y).getD 0

instance (S : Finset ℕ) (age : ℕ → Option ℕ) (limit : ℕ) (pick : Finset ℕ) :
    Decidable (IsBatch S age limit pick) := by
  unfold IsBatch; infer_instance

/-- The batch size of the sweep over files. -/
def fileBatch : ℕ := 1000

/-- The batch size of the sweep over folders. -/
def folderBatch : ℕ := 100

/-- One batch of expired files. -/
def expireFiles (t : Tree) (pick : Finset FileId) (cutoff : ℕ) : Except SqlError (ℕ × Tree) :=
  if IsBatch (t.files.sat fun _ r => t.fileExpired cutoff r)
      (fun x => (t.files.get x).bind File.trashedAt) fileBatch pick then
    .ok (pick.card, { t with files := t.files.filter fun x _ => x ∉ pick })
  else .error .other

/-- One batch of expired folders. -/
def expireFolders (t : Tree) (pick : Finset FolderId) (cutoff : ℕ) : Except SqlError (ℕ × Tree) :=
  if IsBatch (t.folders.sat fun _ r => t.folderExpired cutoff r)
      (fun f => (t.folders.get f).bind Folder.trashedAt) folderBatch pick then
    .ok (pick.card, t.deleteCascade pick)
  else .error .other

/-- **The effect of a statement on the tables.** -/
def effect (op : Op) (ch : Draw) (t : Tree) : Except SqlError (ℕ × Tree) :=
  if ch.fault then .error .other
  else match op with
    | .tick elapsed => .ok (0, { t with now := t.now + elapsed })
    | .createDrive name => t.createDrive ch.newDrive ch.newFolder name
    | .insertFolder name parent drive => t.insertFolder ch.newFolder name parent drive
    | .renameFolder id name => t.renameFolder id name
    | .moveFolder id parent => t.moveFolder id parent
    | .trashFolder id => t.trashFolder id
    | .restoreFolder id => t.restoreFolder id
    | .deleteFolderFiles id => .ok (t.deleteFolderFiles id)
    | .deleteFolder id => .ok (t.deleteFolder id)
    | .copyFolderTree source target destName =>
      t.copyFolderTree ch.folderCopies ch.fileCopies source target destName
    | .insertFile name folder hash size => t.insertFile ch.newFile name folder hash size
    | .renameFile id name => t.renameFile id name
    | .moveFile id target => t.moveFile id target
    | .copyFile id target name => t.copyFile ch.newFile id target name
    | .swapBlobHash id hash size expected => t.swapBlobHash id hash size expected
    | .trashFile id => t.trashFile id
    | .restoreFile id => t.restoreFile id
    | .deleteFile id => .ok (t.deleteFile id)
    | .clearFiles drives => .ok (t.clearFiles drives)
    | .clearFolders drives => .ok (t.clearFolders drives)
    | .expireFiles cutoff => t.expireFiles ch.pick cutoff
    | .expireFolders cutoff => t.expireFolders ch.pick cutoff

end Tree

end OxiCloud.Folders
