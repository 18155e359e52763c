import OxiCloud.Folders.Etags
import OxiCloud.Lib.Programs

/-! # The requests on the folder tree

The repository and service functions as programs over single statements, in the order in which the source
issues them: between any two statements of a request another request can come. A statement that changes
tables takes its triggers with it (`Database.run`); the others read the clock, the drive of a folder or
the trash listing, or drain the queue of tree ETags. -/

namespace OxiCloud.Folders.Requests

open Lib.Programs Lib.Programs.Prog Schema Folders

/-- The statements requests are made of. -/
inductive Stmt where
  | run (op : Op)
  /-- The `Utc::now()` of `delete_expired_bulk`. -/
  | clock
  /-- The `SELECT drive_id` of `create_folder`. -/
  | selectDrive (parent : FolderId)
  /-- The lookup of `get_trash_item`. -/
  | selectTrashItem (item : Item)
  | flush

/-- What a statement answers; the number of rows for those that change tables. -/
def Answer : Stmt → Type
  | .run _ | .clock | .flush => ℕ
  | .selectDrive _ => Option DriveId
  | .selectTrashItem _ => Bool

/-- The signature of the programs. -/
abbrev sql : Sig := ⟨Stmt, fun s => Except SqlError (Answer s)⟩

/-- Programs over the folder tree. -/
abbrev Db (α : Type) := Prog sql α

/-- The meaning of the statements. -/
def exec : (s : Stmt) → Draw → Database → Except SqlError (Answer s) × Database
  | .run op, ch, db => db.run op ch
  | .clock, _, db => (.ok db.tree.now, db)
  | .selectDrive p, ch, db =>
    (if ch.fault then .error .other else .ok ((db.tree.folders.get p).map Folder.driveId), db)
  | .selectTrashItem i, ch, db => (if ch.fault then .error .other else .ok (db.tree.listed i), db)
  | .flush, ch, db =>
    if ch.fault then (.error .other, db) else (.ok (show ℕ from min drainBatch db.dirty.length), db.flush)

/-- The machine of the programs. -/
abbrev machine : Machine sql Database := ⟨Draw, fun s ch db => some (exec s ch db)⟩

/-- A statement that changes tables. -/
def issue (op : Op) : Db (Except SqlError ℕ) := stmt (E := sql) (Stmt.run op)

/-- The clock. -/
def readClock : Db (Except SqlError ℕ) := stmt (E := sql) Stmt.clock

/-- The drive of a folder. -/
def selectDrive (p : FolderId) : Db (Except SqlError (Option DriveId)) :=
  stmt (E := sql) (Stmt.selectDrive p)

/-- Whether the trash lists an item. -/
def selectTrashItem (i : Item) : Db (Except SqlError Bool) := stmt (E := sql) (Stmt.selectTrashItem i)

/-- One drain of the queue. -/
def drain : Db (Except SqlError ℕ) := stmt (E := sql) Stmt.flush

/-- How the repositories read the outcome of a statement. -/
def report (entity component : String) (r : Except SqlError ℕ) : Except DomainError Unit :=
  match r with
  | .error .uniqueViolation => .error (alreadyExists entity)
  | .error .other => .error (internalError component)
  | .ok 0 => .error (notFound entity)
  | .ok (_ + 1) => .ok ()

/-- The same for the statements whose unique violations are not told apart. -/
def reportInternal (entity component : String) (r : Except SqlError ℕ) : Except DomainError Unit :=
  match r with
  | .error _ => .error (internalError component)
  | .ok 0 => .error (notFound entity)
  | .ok (_ + 1) => .ok ()

/-! ### Folders -/

/-- `create_folder`. -/
def createFolder (name : Text) (parent : Option FolderId) : Db (Except DomainError Unit) :=
  match parent with
  | none => ret (.error (internalError "FolderDb"))
  | some p => do
    match ← selectDrive p with
    | .error _ => ret (.error (internalError "FolderDb"))
    | .ok none => ret (.error (notFound "Folder"))
    | .ok (some d) => do
      let r ← issue (.insertFolder name p d)
      ret (report "Folder" "FolderDb" r)

/-- `rename_folder`. -/
def renameFolder (id : FolderId) (name : Text) : Db (Except DomainError Unit) := do
  let r ← issue (.renameFolder id name)
  ret (report "Folder" "FolderDb" r)

/-- `move_folder`. -/
def moveFolder (id : FolderId) (parent : Option FolderId) : Db (Except DomainError Unit) := do
  let r ← issue (.moveFolder id parent)
  ret (report "Folder" "FolderDb" r)

/-- `move_to_trash` of a folder. -/
def trashFolder (id : FolderId) : Db (Except DomainError Unit) := do
  let r ← issue (.trashFolder id)
  ret (reportInternal "Folder" "FolderDb" r)

/-- `restore_from_trash` of a folder. -/
def restoreFolder (id : FolderId) : Db (Except DomainError Unit) := do
  let r ← issue (.restoreFolder id)
  ret (report "Folder" "FolderDb" r)

/-- `delete_folder_permanently`: the files of the subtree, then the folder. -/
def deleteFolderPermanently (id : FolderId) : Db (Except DomainError Unit) := do
  match ← issue (.deleteFolderFiles id) with
  | .error _ => ret (.error (internalError "FolderDb"))
  | .ok _ => do
    let r ← issue (.deleteFolder id)
    ret (reportInternal "Folder" "FolderDb" r)

/-- `copy_folder_tree`. -/
def copyFolderTree (source : FolderId) (target : Option FolderId) (destName : Option Text) :
    Db (Except DomainError Unit) := do
  let r ← issue (.copyFolderTree source target destName)
  ret (report "Folder" "FileBlobWrite" r)

/-! ### Files -/

/-- The `INSERT` of an upload. -/
def upload (name : Text) (folder : FolderId) (hash : Text) (size : ℕ) : Db (Except DomainError Unit) := do
  let r ← issue (.insertFile name folder hash size)
  ret (report "File" "FileBlobWrite" r)

/-- `rename_file`. -/
def renameFile (id : FileId) (name : Text) : Db (Except DomainError Unit) := do
  let r ← issue (.renameFile id name)
  ret (report "File" "FileBlobWrite" r)

/-- `move_file`. -/
def moveFile (id : FileId) (target : Option FolderId) : Db (Except DomainError Unit) := do
  let r ← issue (.moveFile id target)
  ret (report "File" "FileBlobWrite" r)

/-- `copy_file`. -/
def copyFile (id : FileId) (target : Option FolderId) (name : Option Text) :
    Db (Except DomainError Unit) := do
  let r ← issue (.copyFile id target name)
  ret (report "File" "FileBlobWrite" r)

/-- `swap_blob_hash`. -/
def swapBlobHash (id : FileId) (hash : Text) (size : ℕ) (expected : Option Text) :
    Db (Except DomainError Unit) := do
  let r ← issue (.swapBlobHash id hash size expected)
  ret (reportInternal "File" "FileBlobWrite" r)

/-- `move_to_trash` of a file. -/
def trashFile (id : FileId) : Db (Except DomainError Unit) := do
  let r ← issue (.trashFile id)
  ret (reportInternal "File" "FileBlobWrite" r)

/-- `restore_from_trash` of a file. -/
def restoreFile (id : FileId) : Db (Except DomainError Unit) := do
  let r ← issue (.restoreFile id)
  ret (report "File" "FileBlobWrite" r)

/-- `delete_file_permanently`. -/
def deleteFilePermanently (id : FileId) : Db (Except DomainError Unit) := do
  let r ← issue (.deleteFile id)
  ret (reportInternal "File" "FileBlobWrite" r)

/-! ### The trash -/

/-- An item that is gone counts as done; other errors keep their kind or become internal ones. -/
def settle (entity : String) (keepKind : Bool) (r : Except DomainError Unit) : Except DomainError Unit :=
  match r with
  | .ok _ => .ok ()
  | .error e =>
    if e.kind = .notFound then .ok ()
    else if keepKind then .error ⟨e.kind, entity⟩ else .error (internalError entity)

/-- `restore_item`. -/
def restoreItem (item : Item) : Db (Except DomainError Unit) := do
  match ← selectTrashItem item with
  | .error _ => ret (.error (internalError "TrashDb"))
  | .ok false => ret (.ok ())
  | .ok true => match item with
    | .file id => do
      let r ← restoreFile id
      ret (settle "File" true r)
    | .folder id => do
      let r ← restoreFolder id
      ret (settle "Folder" true r)

/-- `delete_permanently`. -/
def deletePermanently (item : Item) : Db (Except DomainError Unit) := do
  match ← selectTrashItem item with
  | .error _ => ret (.error (internalError "TrashDb"))
  | .ok false => ret (.ok ())
  | .ok true => match item with
    | .file id => do
      let r ← deleteFilePermanently id
      ret (settle "File" false r)
    | .folder id => do
      let r ← deleteFolderPermanently id
      ret (settle "Folder" false r)

/-- `clear_trash`. -/
def clearTrash (drives : List DriveId) : Db (Except DomainError Unit) :=
  if drives = [] then ret (.ok ())
  else do
    match ← issue (.clearFiles drives) with
    | .error _ => ret (.error (internalError "TrashDb"))
    | .ok _ => do
      match ← issue (.clearFolders drives) with
      | .error _ => ret (.error (internalError "TrashDb"))
      | .ok _ => ret (.ok ())

/-- `delete_expired_batch_loop`: batches until one comes back short. -/
def deleteExpiredBatchLoop (op : Op) (limit : ℕ) : ℕ → ℕ → Db (Except DomainError ℕ)
  | 0, total => ret (.ok total)
  | rounds + 1, total => do
    match ← issue op with
    | .error _ => ret (.error (internalError "TrashDb"))
    | .ok n => if n < limit then ret (.ok (total + n)) else deleteExpiredBatchLoop op limit rounds (total + n)

/-- The two loops of `delete_expired_bulk`: the files first, then the folders. -/
def sweep (rounds cutoff : ℕ) : Db (Except DomainError (ℕ × ℕ)) := do
  match ← deleteExpiredBatchLoop (.expireFiles cutoff) Tree.fileBatch rounds 0 with
  | .error e => ret (.error e)
  | .ok files => do
    match ← deleteExpiredBatchLoop (.expireFolders cutoff) Tree.folderBatch rounds 0 with
    | .error e => ret (.error e)
    | .ok folders => ret (.ok (files, folders))

/-- `delete_expired_bulk`; `rounds` bounds the number of batches. -/
def deleteExpiredBulk (rounds retention : ℕ) : Db (Except DomainError (ℕ × ℕ)) := do
  match ← readClock with
  | .error _ => ret (.error (internalError "TrashDb"))
  | .ok now => sweep rounds (now - retention)

/-! ### Tree ETags -/

/-- The batches of one tick of the flush service. -/
def flushBatches : ℕ → Db (Except SqlError Unit)
  | 0 => ret (.ok ())
  | n + 1 => do
    match ← drain with
    | .error e => ret (.error e)
    | .ok drained => if drained < drainBatch then ret (.ok ()) else flushBatches n

/-- `TreeEtagFlushService::flush`. -/
def flush : Db (Except SqlError Unit) := flushBatches maxBatchesPerTick

/-! ### All requests -/

/-- The requests, and the passing of time. -/
inductive Request where
  | wait (elapsed : ℕ)
  | createDrive (name : Text)
  | createFolder (name : Text) (parent : Option FolderId)
  | renameFolder (id : FolderId) (name : Text)
  | moveFolder (id : FolderId) (parent : Option FolderId)
  | trashFolder (id : FolderId)
  | copyFolderTree (source : FolderId) (target : Option FolderId) (destName : Option Text)
  | upload (name : Text) (folder : FolderId) (hash : Text) (size : ℕ)
  | renameFile (id : FileId) (name : Text)
  | moveFile (id : FileId) (target : Option FolderId)
  | copyFile (id : FileId) (target : Option FolderId) (name : Option Text)
  | swapBlobHash (id : FileId) (hash : Text) (size : ℕ) (expected : Option Text)
  | trashFile (id : FileId)
  | restoreItem (item : Item)
  | deletePermanently (item : Item)
  | deleteFolder (id : FolderId)
  | deleteFile (id : FileId)
  | clearTrash (drives : List DriveId)
  | deleteExpiredBulk (rounds retention : ℕ)
  | flush
  deriving DecidableEq

/-- Run a program and keep whether it succeeded. -/
def succeeds {ε α : Type} (p : Db (Except ε α)) : Db Bool := do
  let r ← p
  ret r.toBool

/-- The program of a request; it returns whether the request succeeded. -/
def Request.prog : Request → Db Bool
  | .wait elapsed => succeeds (issue (.tick elapsed))
  | .createDrive name => succeeds (issue (.createDrive name))
  | .createFolder name parent => succeeds (Requests.createFolder name parent)
  | .renameFolder id name => succeeds (Requests.renameFolder id name)
  | .moveFolder id parent => succeeds (Requests.moveFolder id parent)
  | .trashFolder id => succeeds (Requests.trashFolder id)
  | .copyFolderTree source target destName => succeeds (Requests.copyFolderTree source target destName)
  | .upload name folder hash size => succeeds (Requests.upload name folder hash size)
  | .renameFile id name => succeeds (Requests.renameFile id name)
  | .moveFile id target => succeeds (Requests.moveFile id target)
  | .copyFile id target name => succeeds (Requests.copyFile id target name)
  | .swapBlobHash id hash size expected => succeeds (Requests.swapBlobHash id hash size expected)
  | .trashFile id => succeeds (Requests.trashFile id)
  | .restoreItem item => succeeds (Requests.restoreItem item)
  | .deletePermanently item => succeeds (Requests.deletePermanently item)
  | .deleteFolder id => succeeds (deleteFolderPermanently id)
  | .deleteFile id => succeeds (deleteFilePermanently id)
  | .clearTrash drives => succeeds (Requests.clearTrash drives)
  | .deleteExpiredBulk rounds retention => succeeds (Requests.deleteExpiredBulk rounds retention)
  | .flush => succeeds Requests.flush

/-! ### What requests issue -/

section Only
variable {α ε : Type} {P : Stmt → Prop}

theorem issue_only {op : Op} {k : Except SqlError ℕ → Db α} (h : P (.run op))
    (hk : ∀ r, (k r).Only P) : (issue op >>= k).Only P :=
  ⟨h, hk⟩

theorem succeeds_only {p : Db (Except ε α)} (h : p.Only P) : (succeeds p).Only P :=
  h.bind fun _ => trivial

theorem createFolder_only {name : Text} {parent : Option FolderId} (h : ∀ p, P (.selectDrive p))
    (hi : ∀ p d, P (.run (.insertFolder name p d))) : (createFolder name parent).Only P := by
  rcases parent with _ | p
  · trivial
  · refine ⟨h p, fun (r : Except SqlError (Option DriveId)) => ?_⟩
    rcases r with e | _ | d
    · trivial
    · trivial
    · exact issue_only (hi p d) fun _ => trivial

theorem deleteFolderPermanently_only {id : FolderId} (h : P (.run (.deleteFolderFiles id)))
    (hd : P (.run (.deleteFolder id))) : (deleteFolderPermanently id).Only P := by
  refine issue_only h fun r => ?_
  rcases r with e | n
  · trivial
  · exact issue_only hd fun _ => trivial

theorem deleteExpiredBatchLoop_only {op : Op} (h : P (.run op)) (limit rounds total : ℕ) :
    (deleteExpiredBatchLoop op limit rounds total).Only P := by
  induction rounds generalizing total with
  | zero => trivial
  | succ rounds ih =>
    refine issue_only h fun r => ?_
    rcases r with e | n
    · trivial
    · show (if n < limit then _ else _ : Db (Except DomainError ℕ)).Only P
      split_ifs
      · trivial
      · exact ih _

/-- The batches of a sweep that has read the clock. -/
theorem sweep_only {cutoff rounds : ℕ} (hx : P (.run (.expireFiles cutoff)))
    (hf : P (.run (.expireFolders cutoff))) : (sweep rounds cutoff).Only P := by
  refine (deleteExpiredBatchLoop_only hx _ rounds 0).bind fun files => ?_
  rcases files with e | files
  · trivial
  · refine (deleteExpiredBatchLoop_only hf _ rounds 0).bind fun folders => ?_
    rcases folders with e | folders <;> trivial

theorem deleteExpiredBulk_only {rounds retention : ℕ} (h : P .clock)
    (hx : ∀ c, P (.run (.expireFiles c))) (hf : ∀ c, P (.run (.expireFolders c))) :
    (deleteExpiredBulk rounds retention).Only P := by
  refine ⟨h, fun (r : Except SqlError ℕ) => ?_⟩
  rcases r with e | now
  · trivial
  · exact sweep_only (hx _) (hf _)

theorem flushBatches_only (h : P .flush) (n : ℕ) : (flushBatches n).Only P := by
  induction n with
  | zero => trivial
  | succ n ih =>
    refine ⟨h, fun (r : Except SqlError ℕ) => ?_⟩
    rcases r with e | drained
    · trivial
    · show (if drained < drainBatch then _ else _ : Db (Except SqlError Unit)).Only P
      split_ifs
      · trivial
      · exact ih

theorem clearTrash_only {drives : List DriveId} (hx : P (.run (.clearFiles drives)))
    (hf : P (.run (.clearFolders drives))) : (clearTrash drives).Only P := by
  rw [clearTrash]
  split_ifs
  · trivial
  · refine issue_only hx fun r => ?_
    rcases r with e | n
    · trivial
    · refine issue_only hf fun r => ?_
      rcases r with e | n <;> trivial

theorem deletePermanently_only {item : Item} (h : P (.selectTrashItem item))
    (hx : ∀ id, P (.run (.deleteFile id))) (hff : ∀ id, P (.run (.deleteFolderFiles id)))
    (hf : ∀ id, P (.run (.deleteFolder id))) : (deletePermanently item).Only P := by
  refine ⟨h, fun r => ?_⟩
  rcases r with e | b
  · trivial
  · rcases b with _ | _
    · trivial
    · rcases item with id | id
      · exact issue_only (hx id) fun _ => trivial
      · exact (deleteFolderPermanently_only (hff id) (hf id)).bind fun _ => trivial

theorem restoreItem_only {item : Item} (h : P (.selectTrashItem item))
    (hx : ∀ id, P (.run (.restoreFile id))) (hf : ∀ id, P (.run (.restoreFolder id))) :
    (restoreItem item).Only P := by
  refine ⟨h, fun r => ?_⟩
  rcases r with e | b
  · trivial
  · rcases b with _ | _
    · trivial
    · rcases item with id | id
      · exact issue_only (hx id) fun _ => trivial
      · exact issue_only (hf id) fun _ => trivial

end Only

/-- The statements a request can issue. -/
def Request.MayIssue : Request → Stmt → Prop
  | .wait elapsed, s => s = .run (.tick elapsed)
  | .createDrive name, s => s = .run (.createDrive name)
  | .createFolder name _, s =>
    (∃ p, s = .selectDrive p) ∨ ∃ p d, s = .run (.insertFolder name p d)
  | .renameFolder id name, s => s = .run (.renameFolder id name)
  | .moveFolder id parent, s => s = .run (.moveFolder id parent)
  | .trashFolder id, s => s = .run (.trashFolder id)
  | .copyFolderTree source target destName, s => s = .run (.copyFolderTree source target destName)
  | .upload name folder hash size, s => s = .run (.insertFile name folder hash size)
  | .renameFile id name, s => s = .run (.renameFile id name)
  | .moveFile id target, s => s = .run (.moveFile id target)
  | .copyFile id target name, s => s = .run (.copyFile id target name)
  | .swapBlobHash id hash size expected, s => s = .run (.swapBlobHash id hash size expected)
  | .trashFile id, s => s = .run (.trashFile id)
  | .restoreItem item, s =>
    s = .selectTrashItem item ∨ (∃ id, s = .run (.restoreFile id)) ∨ ∃ id, s = .run (.restoreFolder id)
  | .deletePermanently item, s =>
    s = .selectTrashItem item ∨ (∃ id, s = .run (.deleteFile id)) ∨
      (∃ id, s = .run (.deleteFolderFiles id)) ∨ ∃ id, s = .run (.deleteFolder id)
  | .deleteFolder id, s => s = .run (.deleteFolderFiles id) ∨ s = .run (.deleteFolder id)
  | .deleteFile id, s => s = .run (.deleteFile id)
  | .clearTrash drives, s => s = .run (.clearFiles drives) ∨ s = .run (.clearFolders drives)
  | .deleteExpiredBulk _ _, s =>
    s = .clock ∨ ∃ c, s = .run (.expireFiles c) ∨ s = .run (.expireFolders c)
  | .flush, s => s = .flush

/-- **A request issues no other statements.** -/
theorem prog_only (q : Request) : q.prog.Only q.MayIssue := by
  rcases q with _ | _ | ⟨name, parent⟩ | _ | _ | _ | _ | _ | _ | _ | _ | _ | _ | item | item | id | _ |
    drives | ⟨rounds, retention⟩ | _
  case createFolder =>
    exact succeeds_only (createFolder_only (fun p => .inl ⟨p, rfl⟩) fun p d => .inr ⟨p, d, rfl⟩)
  case restoreItem =>
    exact succeeds_only (restoreItem_only (.inl rfl) (fun id => .inr (.inl ⟨id, rfl⟩))
      fun id => .inr (.inr ⟨id, rfl⟩))
  case deletePermanently =>
    exact succeeds_only (deletePermanently_only (.inl rfl) (fun id => .inr (.inl ⟨id, rfl⟩))
      (fun id => .inr (.inr (.inl ⟨id, rfl⟩))) fun id => .inr (.inr (.inr ⟨id, rfl⟩)))
  case deleteFolder => exact succeeds_only (deleteFolderPermanently_only (.inl rfl) (.inr rfl))
  case clearTrash => exact succeeds_only (clearTrash_only (.inl rfl) (.inr rfl))
  case deleteExpiredBulk =>
    exact succeeds_only (deleteExpiredBulk_only (.inl rfl) (fun c => .inr ⟨c, .inl rfl⟩)
      fun c => .inr ⟨c, .inr rfl⟩)
  case flush => exact succeeds_only (flushBatches_only (P := Request.flush.MayIssue) rfl _)
  all_goals exact issue_only rfl fun _ => trivial

end OxiCloud.Folders.Requests
