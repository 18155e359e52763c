import OxiCloud.Lib.Cascades
import OxiCloud.Lib.Forests
import OxiCloud.Schema

/-! # The tables of the folder tree

The rows of `storage.folders`, `storage.files` and `storage.drives` that the folder and trash
repositories and the triggers on these tables read and write. Texts are lists of characters; an `ltree`
is the list of its labels, which are the ids of folders (a label is a UUID with its dashes replaced, so
different ids have different labels). The column `tree_modified_at` is kept beside the tables, in
`Etags`.

`UniqueNames` and `References` are the constraints every statement is checked against: the partial
unique indexes on live names; the foreign keys and the constraint trigger `trg_no_orphan_root_folder`. -/

namespace OxiCloud.Folders

open Lib.Tables Lib.Forests Lib.Cascades Schema

abbrev Text := List Char

abbrev LPath := List FolderId

abbrev DriveId := ℕ

/-- A row of `storage.folders`. -/
structure Folder where
  name : Text
  parentId : Option FolderId
  driveId : DriveId
  path : Text
  lpath : LPath
  isTrashed : Bool
  trashedAt : Option ℕ
  originalParentId : Option FolderId
  updatedAt : ℕ
  deriving DecidableEq

/-- A row of `storage.files`. -/
structure File where
  name : Text
  folderId : Option FolderId
  driveId : DriveId
  blobHash : Text
  size : ℕ
  isTrashed : Bool
  trashedAt : Option ℕ
  originalFolderId : Option FolderId
  updatedAt : ℕ
  deriving DecidableEq

/-- The key of `idx_folders_unique_name` and `idx_folders_unique_name_root`. -/
def Folder.indexKey (r : Folder) : Option FolderId × Text × DriveId := (r.parentId, r.name, r.driveId)

/-- The key of `idx_files_unique_name_in_folder` and `idx_files_unique_name_at_root`. -/
def File.indexKey (r : File) : Option FolderId × Text × DriveId := (r.folderId, r.name, r.driveId)

/-- A row of `storage.drives`; the two flags are read from `effective_policies`. -/
structure Drive where
  rootFolderId : Option FolderId
  readOnly : Bool
  forbidCrossDriveMove : Bool
  deriving DecidableEq

/-- An entry of the trash listing. -/
inductive Item where
  | file (id : FileId)
  | folder (id : FolderId)
  deriving DecidableEq

/-- The tables and the clock of the database. -/
structure Tree where
  now : ℕ
  folders : Table FolderId Folder
  files : Table FileId File
  drives : Table DriveId Drive

namespace Tree

/-- The database of a fresh installation. -/
def empty : Tree := ⟨0, .empty, .empty, .empty⟩

/-- The parent link of a folder. -/
def par (t : Tree) (f : FolderId) : Option FolderId := (t.folders.get f).bind Folder.parentId

/-- `lpath <@ l` of the row of the folder `f`. -/
def under (t : Tree) (l : LPath) (f : FolderId) : Bool :=
  (t.folders.get f).any fun r => decide (l <+: r.lpath)

/-- A folder of this id is in the trash. -/
def folderTrashed (t : Tree) (f : FolderId) : Bool := (t.folders.get f).any Folder.isTrashed

/-- The rows of the view `storage.trash_items`: the trashed items whose folder is not itself trashed. -/
def listed (t : Tree) : Item → Bool
  | .file id => (t.files.get id).any fun r => r.isTrashed && !r.folderId.any t.folderTrashed
  | .folder id => (t.folders.get id).any fun r => r.isTrashed && !r.parentId.any t.folderTrashed

/-! ### Constraints -/

/-- The partial unique indexes on the names of folders. -/
def UniqueFolders (t : Tree) : Prop :=
  t.folders.Forall fun a r => t.folders.Forall fun b r' =>
    r.isTrashed = false → r'.isTrashed = false → r.indexKey = r'.indexKey → a = b

/-- The partial unique indexes on the names of files. -/
def UniqueFiles (t : Tree) : Prop :=
  t.files.Forall fun a r => t.files.Forall fun b r' =>
    r.isTrashed = false → r'.isTrashed = false → r.indexKey = r'.indexKey → a = b

/-- The foreign keys of `storage.folders`. -/
def FolderReferences (t : Tree) : Prop :=
  t.folders.Forall fun _ r =>
    (∀ p ∈ r.parentId, (t.folders.get p).isSome) ∧ (t.drives.get r.driveId).isSome

/-- The foreign keys of `storage.files`. -/
def FileReferences (t : Tree) : Prop :=
  t.files.Forall fun _ r =>
    (∀ p ∈ r.folderId, (t.folders.get p).isSome) ∧ (t.drives.get r.driveId).isSome

/-- The foreign key of `storage.drives`. -/
def DriveReferences (t : Tree) : Prop :=
  t.drives.Forall fun _ r => ∀ f ∈ r.rootFolderId, (t.folders.get f).isSome

/-- `check_no_orphan_root_folder`: a live folder without parent is the root of its own drive. -/
def RootsWired (t : Tree) : Prop :=
  t.folders.Forall fun f r => r.parentId = none → r.isTrashed = false →
    (t.drives.get r.driveId).any fun d => d.rootFolderId = some f

instance (t : Tree) : Decidable t.UniqueFolders := by unfold UniqueFolders; infer_instance

instance (t : Tree) : Decidable t.UniqueFiles := by unfold UniqueFiles; infer_instance

instance (t : Tree) : Decidable t.FolderReferences := by unfold FolderReferences; infer_instance

instance (t : Tree) : Decidable t.FileReferences := by unfold FileReferences; infer_instance

instance (t : Tree) : Decidable t.DriveReferences := by unfold DriveReferences; infer_instance

instance (t : Tree) : Decidable t.RootsWired := by unfold RootsWired; infer_instance

/-- The unique indexes. -/
def UniqueNames (t : Tree) : Prop := t.UniqueFolders ∧ t.UniqueFiles

/-- The foreign keys and the constraint trigger. -/
def References (t : Tree) : Prop :=
  t.FolderReferences ∧ t.FileReferences ∧ t.DriveReferences ∧ t.RootsWired

instance (t : Tree) : Decidable t.UniqueNames := by unfold UniqueNames; infer_instance

instance (t : Tree) : Decidable t.References := by unfold References; infer_instance

/-! ### `ON DELETE CASCADE` -/

/-- The row of `f` falls with the row of `g`: `g` is its parent, or the root of its drive. -/
def Falls (t : Tree) (f g : FolderId) : Prop :=
  ∃ r ∈ t.folders.get f, r.parentId = some g ∨ ∃ d ∈ t.drives.get r.driveId, d.rootFolderId = some g

instance (t : Tree) (f g : FolderId) : Decidable (t.Falls f g) := by unfold Falls; infer_instance

/-- The folders deleted along with the folders `S`. -/
def doomed (t : Tree) (S : Finset FolderId) : Finset FolderId := cascade t.folders.keys t.Falls S

/-- The drives deleted along with the folders `S`. -/
def doomedDrive (t : Tree) (S : Finset FolderId) (d : DriveId) : Bool :=
  (t.drives.get d).any fun r => r.rootFolderId.any (· ∈ t.doomed S)

/-- Everything that refers to the folders `S`, directly or not, is deleted. -/
def deleteCascade (t : Tree) (S : Finset FolderId) : Tree :=
  { t with
    folders := t.folders.filter fun f _ => f ∉ t.doomed S
    files := t.files.filter fun _ r =>
      !r.folderId.any (· ∈ t.doomed S) && !t.doomedDrive S r.driveId
    drives := t.drives.filter fun d _ => !t.doomedDrive S d }

end Tree

end OxiCloud.Folders
