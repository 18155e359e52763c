import OxiCloud.Folders.Etags
import OxiCloud.Folders.Moves
import OxiCloud.WebDav.Guards
import OxiCloud.WebDav.Scopes

/-! # `MOVE` and `COPY`

Both handlers delete what stands at the destination before they look for the source, and `MOVE` is a move
and then a rename. Every call to a service is atomic, the handlers are not: a request that fails after its
first change leaves this change behind. So a failed request leaves the live entries alone exactly if every
call after the deletion of the destination is accepted, and no rename is refused after a move
(`failures_keep_live_iff`).

What the services check before their statement, permissions and policies and quotas, is given by
`Env.refuses` and may depend on the tables. -/

namespace OxiCloud.WebDav.Transfers

open Lib.Tables Lib.Texts Lib.Cascades Schema Table Finset Option
open Folders hiding Text Drive
open Folders.Database (inOrder mem_inOrder)
open WebDav.Locks WebDav.IfHeader WebDav.Guards WebDav.Scopes

/-! ### Looking up paths -/

/-- The item is in one of the two sets of rows. -/
def Among (F : Finset FolderId) (X : Finset FileId) : Item → Prop
  | .folder f => f ∈ F
  | .file x => x ∈ X

/-- What `LIMIT 1` leaves of a query over folders and files: one of the rows, if there is one. -/
structure Limit where
  one : Finset FolderId → Finset FileId → Option Item
  among : ∀ F X x, one F X = some x → Among F X x
  isSome : ∀ F X, F.Nonempty ∨ X.Nonempty → (one F X).isSome

/-- The parts of a path that are not empty. -/
def segments (path : Text) : List Text := (path.splitOn '/').filter (· ≠ [])

def joinSegments (l : List Text) : Text := List.intercalate ['/'] l

/-- The live folders with this path. -/
def foldersAt (t : Tree) (drive : DriveId) (path : Text) : Finset FolderId :=
  t.folders.sat fun _ r => r.path = path && !r.isTrashed && r.driveId = drive

/-- The live files of this name in a folder with this path. -/
def filesAt (t : Tree) (drive : DriveId) (folderPath filename : Text) : Finset FileId :=
  t.files.sat fun _ r => r.name = filename && (folderPath = [] && r.folderId = none ||
    r.folderId.any fun f => (t.folders.get f).any fun q => q.path = folderPath) &&
    !r.isTrashed && r.driveId = drive

/-- `exists_in_drive`. -/
def existsInDrive (t : Tree) (s : DriveScope) : Bool :=
  let path := trimBoth (· = '/') s.dbPath
  let segs := segments path
  path ≠ [] && ((foldersAt t s.driveId path).Nonempty ||
    (filesAt t s.driveId (joinSegments segs.dropLast) (segs.getLastD [])).Nonempty)

/-- `resolve_path_in_drive`. -/
def resolvePathInDrive (limit : Limit) (t : Tree) (s : DriveScope) : Option Item :=
  let path := trimBoth (· = '/') s.dbPath
  let segs := segments path
  if path = [] then none
  else limit.one (foldersAt t s.driveId path)
    (filesAt t s.driveId (joinSegments segs.dropLast) (segs.getLastD []))

/-- `get_folder_by_path`. The path is first made a `StoragePath`, without `.` and `..`. -/
def folderByPath (limit : Limit) (t : Tree) (drive : DriveId) (path : Text) : Option FolderId :=
  let lookup := joinSegments ((segments path).filter fun s => s ≠ ['.'] && s ≠ ['.', '.'])
  if lookup = [] then none
  else match limit.one (foldersAt t drive lookup) ∅ with
    | some (.folder f) => some f
    | _ => none

/-- `find_file_by_path`. A file in a folder is looked up by the drive of the folder. -/
def fileByPath (limit : Limit) (t : Tree) (drive : DriveId) (path : Text) : Option FileId :=
  let segs := segments (trimBoth (· = '/') path)
  let filename := segs.getLastD []
  let folderPath := joinSegments segs.dropLast
  let found := if segs = [] then ∅
    else if folderPath = [] then
      t.files.sat fun _ r => r.name = filename && r.folderId = none && r.driveId = drive && !r.isTrashed
    else t.files.sat fun _ r => r.name = filename && !r.isTrashed && r.folderId.any fun f =>
      (t.folders.get f).any fun q => q.path = folderPath && q.driveId = drive
  match limit.one ∅ found with
  | some (.file x) => some x
  | _ => none

/-- `resolve_or_legacy`. -/
def resolveOrLegacy (limit : Limit) (t : Tree) (s : DriveScope) : Option Item :=
  resolvePathInDrive limit t s <|> (folderByPath limit t s.driveId s.dbPath).map .folder <|>
    (fileByPath limit t s.driveId s.dbPath).map .file

/-! ### The services -/

/-- The calls of the two handlers. -/
inductive Call where
  | delete (x : Item)
  /-- `authorization.require` of `Permission::Create`. -/
  | requireCreate (parent : FolderId)
  | move (x : Item) (parent : Option FolderId)
  | rename (x : Item) (name : Text)
  | copyFile (id : FileId) (target : Option FolderId) (name : Option Text)
  | copyFolderTree (id : FolderId) (target : Option FolderId) (name : Text)
  | createFolder (name : Text) (parent : Option FolderId)
  deriving DecidableEq

/-- `validate_storage_name`. -/
def validateStorageName (name : Text) : Bool :=
  name ≠ [] && '/' ∉ name && '\\' ∉ name && '\x00' ∉ name && name ≠ ['.'] && name ≠ ['.', '.']

/-- The checks of the arguments. -/
def Call.invalid : Call → Option StatusCode
  | .rename _ name => if validateStorageName name then none else some 400
  | .createFolder name parent => if validateStorageName name && parent.isSome then none else some 400
  | .move (.folder id) (some p) => if p = id then some 400 else none
  | _ => none

/-- The statements of a call, all at once. -/
def Call.statement (draw : Draw) (t : Tree) : Call → Except SqlError (ℕ × Tree)
  | .delete (.file id) => .ok (t.deleteFile id)
  | .delete (.folder id) => .ok ((t.deleteFolderFiles id).2.deleteFolder id)
  | .requireCreate _ => .ok (1, t)
  | .move (.file id) parent => t.moveFile id parent
  | .move (.folder id) parent => t.moveFolder id parent
  | .rename (.file id) name => t.renameFile id name
  | .rename (.folder id) name => t.renameFolder id name
  | .copyFile id target name => t.copyFile draw.newFile id target name
  | .copyFolderTree id target name =>
    t.copyFolderTree draw.folderCopies draw.fileCopies id target (some name)
  | .createFolder name parent =>
    match parent.bind fun p => (t.folders.get p).map fun q => (p, q.driveId) with
    | none => .ok (0, t)
    | some (p, drive) => t.insertFolder draw.newFolder name p drive

/-- What a service makes of the result of its statement. -/
def settle : Except SqlError (ℕ × Tree) → Except StatusCode Tree
  | .error .uniqueViolation => .error 409
  | .error .other => .error 500
  | .ok (0, _) => .error 404
  | .ok (_ + 1, t) => .ok t

/-- Everything a request depends on besides the tables. -/
structure Env where
  cfg : Config
  account : Account
  locks : State
  limit : Limit
  refuses : Call → Tree → Option StatusCode
  draw : Draw

/-- A call to a service. -/
def serve (env : Env) (c : Call) (t : Tree) : Except StatusCode Tree :=
  match env.refuses c t <|> c.invalid with
  | some e => .error e
  | none => settle (c.statement env.draw t)

/-- Calls one after the other, up to the first refusal. -/
def serveAll (env : Env) : List Call → Tree → Except StatusCode Unit × Tree
  | [], t => (.ok (), t)
  | c :: cs, t => match serve env c t with
    | .error e => (.error e, t)
    | .ok t' => serveAll env cs t'

/-! ### The handlers -/

inductive Method where
  | move
  | copy
  deriving DecidableEq

structure Request where
  path : Text
  destination : Option Text := none
  overwrite : Option Text := none
  depth : Option Text := none
  ifHeader : Option Text := none

def Request.overwrites (req : Request) : Bool := req.overwrite.getD ['T'] ≠ ['F']

def Request.recursive (req : Request) : Bool := req.depth.getD "infinity".toList ≠ ['0']

def Refusal.code : Refusal → StatusCode
  | .locked => 423
  | .preconditionFailed => 412

/-- The guards of the two methods. -/
def Method.guards (m : Method) (locks : State) (ifHeader : Option Text) (src dst : DriveScope) :
    Option Refusal :=
  match m with
  | .move => (Verb.move src.dbPath dst.dbPath).guards locks ifHeader
  | .copy => (Verb.copy src.dbPath dst.dbPath).guards locks ifHeader

/-- The headers, the drives of both paths and the locks. -/
def admission (env : Env) (m : Method) (req : Request) : Except StatusCode (DriveScope × DriveScope) := do
  let destination ← destinationPath env.cfg req.destination
  let src ← resolveWebdavScopeOr405 env.cfg env.account req.path
  let dst ← resolveWebdavScopeOr405 env.cfg env.account destination
  if dst.dbPath = src.dbPath then .error 403
  else match m.guards env.locks req.ifHeader src dst with
    | some r => .error (Refusal.code r)
    | none => .ok (src, dst)

def destName (dst : DriveScope) : Text := afterLast '/' dst.dbPath

def parentPath (s : DriveScope) : Text := (beforeLast '/' s.dbPath).getD []

/-- The folder the transfer goes to. -/
def targetParent (env : Env) (dst : DriveScope) (t : Tree) : Except StatusCode (Option FolderId) :=
  if parentPath dst = [] then .ok none
  else match folderByPath env.limit t dst.driveId (parentPath dst) with
    | none => .error 409
    | some p => match serve env (.requireCreate p) t with
      | .error e => .error e
      | .ok _ => .ok (some p)

def nameOf (t : Tree) : Item → Text
  | .file id => (t.files.get id).elim [] File.name
  | .folder id => (t.folders.get id).elim [] Folder.name

/-- The rename after a move. -/
def renameTo (dst : DriveScope) (t : Tree) (x : Item) : List Call :=
  if nameOf t x = destName dst then [] else [.rename x (destName dst)]

/-- The call that copies. -/
def copyTo (req : Request) (dst : DriveScope) (t : Tree) (x : Item) (parent : Option FolderId) : Call :=
  match x with
  | .folder id =>
    if req.recursive then .copyFolderTree id parent (destName dst) else .createFolder (destName dst) parent
  | .file id => .copyFile id parent (if nameOf t x = destName dst then none else some (destName dst))

/-- A file that stays in its folder. -/
def staysInFolder (src dst : DriveScope) : Item → Bool
  | .file _ => src.driveId = dst.driveId && parentPath src = parentPath dst
  | .folder _ => false

/-- The calls of a request once the destination is free. Everything is looked up before the first. -/
def calls (env : Env) (m : Method) (req : Request) (src dst : DriveScope) (t : Tree) :
    Except StatusCode (List Call) :=
  match resolveOrLegacy env.limit t src with
  | none => .error 404
  | some x => match m with
    | .move =>
      if staysInFolder src dst x then .ok (renameTo dst t x)
      else match targetParent env dst t with
        | .error e => .error e
        | .ok p => .ok (.move x p :: renameTo dst t x)
    | .copy => match targetParent env dst t with
      | .error e => .error e
      | .ok p => .ok [copyTo req dst t x p]

/-- The rest of a request once the destination is free. -/
def transfer (env : Env) (m : Method) (req : Request) (src dst : DriveScope) (t : Tree) :
    Except StatusCode Unit × Tree :=
  match calls env m req src dst t with
  | .error e => (.error e, t)
  | .ok cs => serveAll env cs t

/-- What stands at the destination. -/
def occupant (env : Env) (dst : DriveScope) (t : Tree) : Option Item :=
  if existsInDrive t dst then resolveOrLegacy env.limit t dst else none

/-- `handle_move` and `handle_copy`: the status, and the tables they leave. -/
def handle (env : Env) (m : Method) (req : Request) (t : Tree) : Except StatusCode StatusCode × Tree :=
  match admission env m req with
  | .error e => (.error e, t)
  | .ok (src, dst) =>
    if existsInDrive t dst && !req.overwrites then (.error 412, t)
    else
      let status := if existsInDrive t dst then 204 else 201
      match occupant env dst t with
      | none => (transfer env m req src dst t).map (Except.map fun _ => status) id
      | some d => match serve env (.delete d) t with
        | .error e => (.error e, t)
        | .ok t' => (transfer env m req src dst t').map (Except.map fun _ => status) id

/-! ### Live entries -/

/-- The live folders with parent, name and drive, and the live files with folder, name, drive and
content. -/
def live (t : Tree) : (FolderId → Option (Option FolderId × Text × DriveId)) ×
    (FileId → Option ((Option FolderId × Text × DriveId) × Text)) :=
  (fun f => ((t.folders.get f).filter fun r => !r.isTrashed).map Folder.indexKey,
    fun x => ((t.files.get x).filter fun r => !r.isTrashed).map fun r => (r.indexKey, r.blobHash))

/-- The item is a live row. -/
def Alive (t : Tree) : Item → Prop
  | .folder f => ∃ r, t.folders.get f = some r ∧ r.isTrashed = false
  | .file x => ∃ r, t.files.get x = some r ∧ r.isTrashed = false

/-- There is no row of the item. -/
def Absent (t : Tree) : Item → Prop
  | .folder f => t.folders.get f = none
  | .file x => t.files.get x = none

variable {env : Env} {m : Method} {req : Request} {t t' : Tree} {x d : Item} {s src dst : DriveScope}
  {c : Call} {cs : List Call} {e : StatusCode} {limit : Limit}

theorem live_ne (ha : Alive t x) (hn : Absent t' x) : live t' ≠ live t := by
  intro h
  rcases x with x | f
  · obtain ⟨r, hr, hlive⟩ := ha
    have hx := congrFun (congrArg Prod.snd h) x
    have hn : t'.files.get x = none := hn
    simp [live, hr, hn, hlive] at hx
  · obtain ⟨r, hr, hlive⟩ := ha
    have hf := congrFun (congrArg Prod.fst h) f
    have hn : t'.folders.get f = none := hn
    simp [live, hr, hn, hlive] at hf

variable {drive : DriveId} {path : Text}

theorem alive_of_foldersAt {f : FolderId} (h : f ∈ foldersAt t drive path) : Alive t (.folder f) := by
  obtain ⟨r, hr, hp⟩ := mem_sat.mp h
  simp only [Bool.and_eq_true, Bool.not_eq_true'] at hp
  exact ⟨r, hr, hp.1.2⟩

theorem alive_of_filesAt {folderPath filename : Text} {x : FileId}
    (h : x ∈ filesAt t drive folderPath filename) : Alive t (.file x) := by
  obtain ⟨r, hr, hp⟩ := mem_sat.mp h
  simp only [Bool.and_eq_true, Bool.not_eq_true'] at hp
  exact ⟨r, hr, hp.1.2⟩

theorem resolvePathInDrive_alive (h : resolvePathInDrive limit t s = some x) : Alive t x := by
  unfold resolvePathInDrive at h
  dsimp only at h
  split_ifs at h
  have ha := limit.among _ _ _ h
  rcases x with x | f
  · exact alive_of_filesAt ha
  · exact alive_of_foldersAt ha

/-- The resolver finds something exactly if the probe does. -/
theorem resolvePathInDrive_isSome (limit : Limit) (h : existsInDrive t s = true) :
    ∃ x, resolvePathInDrive limit t s = some x := by
  unfold existsInDrive at h
  rw [Bool.and_eq_true, Bool.or_eq_true, decide_eq_true_eq, decide_eq_true_eq, decide_eq_true_eq] at h
  rw [← isSome_iff_exists, resolvePathInDrive, if_neg h.1]
  exact limit.isSome _ _ h.2

theorem occupant_alive (h : occupant env dst t = some d) : Alive t d := by
  unfold occupant at h
  split_ifs at h with he
  obtain ⟨x, hx⟩ := resolvePathInDrive_isSome env.limit he
  rw [resolveOrLegacy, hx] at h
  obtain rfl : x = d := by simpa using h
  exact resolvePathInDrive_alive hx

/-! ### What calls do -/

theorem serve_ok (h : serve env c t = .ok t') :
    c.invalid = none ∧ ∃ n, c.statement env.draw t = .ok (n + 1, t') := by
  unfold serve at h
  split at h
  · cases h
  · next hc =>
    refine ⟨?_, ?_⟩
    · rcases hr : env.refuses c t with _ | e
      · rwa [hr] at hc
      · rw [hr] at hc; cases hc
    · rcases hs : c.statement env.draw t with e | ⟨n, t₁⟩
      · rcases e <;> rw [hs] at h <;> cases h
      · rw [hs] at h
        rcases n with _ | n
        · cases h
        · obtain rfl : t₁ = t' := Except.ok.inj h
          exact ⟨n, rfl⟩

theorem delete_absent (h : serve env (.delete d) t = .ok t') : Absent t' d := by
  obtain ⟨-, n, hs⟩ := serve_ok h
  rcases d with x | f
  · simp only [Call.statement, Tree.deleteFile, Except.ok.injEq] at hs
    split_ifs at hs
    · obtain rfl := (Prod.mk.inj hs).2
      exact get_erase_self ..
    · cases hs
  · simp only [Call.statement, Tree.deleteFolder, Except.ok.injEq] at hs
    split_ifs at hs
    · obtain rfl := (Prod.mk.inj hs).2
      refine eq_none_iff_forall_not_mem.mpr fun r hr => ?_
      have hin : f ∈ ((t.deleteFolderFiles f).2).doomed {f} := subset_cascade (mem_singleton_self f)
      exact (Tree.deleteCascade_get.mp hr).2 hin
    · cases hs

theorem cascadeDrives_files (old new : Folder) (x : FileId) (h : t.files.get x = none) :
    (t.cascadeDrives old new).files.get x = none := by
  unfold Tree.cascadeDrives
  split_ifs
  · rw [Tree.rebaseDrives, get_modify, h, map_none]
  · exact h

theorem relink_files {id : FolderId} {old : Folder} {g : Folder → Folder} (x : FileId)
    (hr : t.relink id old g = some t') (h : t.files.get x = none) : t'.files.get x = none := by
  obtain ⟨new, -, hc⟩ := bind_eq_some_iff.mp hr
  rw [Tree.cascadeFolderPath] at hc
  split_ifs at hc
  · obtain rfl := Option.some.inj hc
    exact cascadeDrives_files old new x h
  · obtain rfl := Option.some.inj hc
    exact cascadeDrives_files old new x h

theorem moveFolder_files {id : FolderId} {parent : Option FolderId} {n : ℕ} (x : FileId)
    (hm : t.moveFolder id parent = .ok (n, t')) (h : t.files.get x = none) : t'.files.get x = none := by
  rw [Tree.moveFolder] at hm
  split at hm
  · obtain ⟨-, rfl⟩ := Prod.mk.inj (Except.ok.inj hm)
    exact h
  · split_ifs at hm
    · obtain ⟨-, rfl⟩ := Prod.mk.inj (Except.ok.inj hm)
      exact h
    · exact relink_files x (Tree.commitSome_ok hm).2.1 h

theorem move_absent {parent : Option FolderId} (h : serve env (.move x parent) t = .ok t')
    (hd : Absent t d) : Absent t' d := by
  obtain ⟨-, n, hs⟩ := serve_ok h
  rcases x with x | f
  · rcases Tree.updateFile_ok hs with ⟨hn, -⟩ | ⟨-, r, hr, -, -, rfl⟩
    · cases hn
    · rcases d with y | g
      · have hne : y ≠ x := by
          rintro rfl
          have hd : t.files.get y = none := hd
          rw [hd] at hr
          cases hr
        exact (get_set_ne _ _ hne).trans hd
      · exact hd
  · rcases d with y | g
    · exact moveFolder_files y hs hd
    · have hg := (Moves.moveFolder_links hs).hasFolder g
      refine eq_none_iff_forall_not_mem.mpr fun r hr => ?_
      obtain ⟨r', hr'⟩ := hg.mp ⟨r, hr⟩
      have hd : t.folders.get g = none := hd
      rw [hd] at hr'
      cases hr'

/-! ### Where a request can stop -/

/-- Every call is accepted, one after the other. -/
def Accepted (env : Env) : List Call → Tree → Prop
  | [], _ => True
  | c :: cs, t => ∃ t', serve env c t = .ok t' ∧ Accepted env cs t'

/-- The first of two calls is accepted and changes something, the second is refused. -/
def Halved (env : Env) (cs : List Call) (t : Tree) : Prop :=
  ∃ c c' t' e, cs = [c, c'] ∧ serve env c t = .ok t' ∧ live t' ≠ live t ∧ serve env c' t' = .error e

theorem serveAll_accepted (h : Accepted env cs t) : ∃ t', serveAll env cs t = (.ok (), t') := by
  induction cs generalizing t with
  | nil => exact ⟨t, rfl⟩
  | cons c cs ih =>
    obtain ⟨t₁, hc, h⟩ := h
    obtain ⟨t', ht'⟩ := ih h
    exact ⟨t', by rw [serveAll, hc]; exact ht'⟩

theorem accepted_of_serveAll {u : Unit} (h : serveAll env cs t = (.ok u, t')) : Accepted env cs t := by
  induction cs generalizing t with
  | nil => trivial
  | cons c cs ih =>
    rw [serveAll] at h
    rcases hc : serve env c t with e | t₁
    · rw [hc] at h; cases h
    · rw [hc] at h
      exact ⟨t₁, hc, ih h⟩

/-- A request makes at most two calls, and two only for a move. -/
theorem calls_cases (h : calls env m req src dst t = .ok cs) :
    cs = [] ∨ (∃ c, cs = [c]) ∨ ∃ x p c, cs = [.move x p, c] := by
  have hrename : ∀ x, renameTo dst t x = [] ∨ ∃ c, renameTo dst t x = [c] := by
    intro x
    unfold renameTo
    split_ifs
    · exact .inl rfl
    · exact .inr ⟨_, rfl⟩
  unfold calls at h
  split at h
  · cases h
  · next x _ =>
    rcases m with _ | _
    · dsimp only at h
      split_ifs at h
      · obtain rfl := Except.ok.inj h
        rcases hrename x with hx | ⟨c, hx⟩
        · exact .inl hx
        · exact .inr (.inl ⟨c, hx⟩)
      · split at h
        · cases h
        · next p _ =>
          obtain rfl := Except.ok.inj h
          rcases hrename x with hx | ⟨c, hx⟩
          · exact .inr (.inl ⟨_, by rw [hx]⟩)
          · exact .inr (.inr ⟨x, p, c, by rw [hx]⟩)
    · dsimp only at h
      split at h
      · cases h
      · obtain rfl := Except.ok.inj h
        exact .inr (.inl ⟨_, rfl⟩)

theorem transfer_ok {u : Unit} (h : transfer env m req src dst t = (.ok u, t')) :
    ∃ cs, calls env m req src dst t = .ok cs ∧ Accepted env cs t := by
  unfold transfer at h
  split at h
  · cases h
  · next cs hcs => exact ⟨cs, hcs, accepted_of_serveAll h⟩

theorem transfer_accepted (hc : calls env m req src dst t = .ok cs) (ha : Accepted env cs t) :
    ∃ t', transfer env m req src dst t = (.ok (), t') := by
  rw [transfer, hc]
  exact serveAll_accepted ha

/-- **A transfer that fails has changed nothing, or has made its move and not its rename.** -/
theorem transfer_error (h : transfer env m req src dst t = (.error e, t')) :
    t' = t ∨ ∃ x p c, calls env m req src dst t = .ok [.move x p, c] ∧
      serve env (.move x p) t = .ok t' ∧ serve env c t' = .error e := by
  unfold transfer at h
  split at h
  · exact .inl (Prod.mk.inj h).2.symm
  · next cs hcs =>
    rcases calls_cases hcs with rfl | ⟨c, rfl⟩ | ⟨x, p, c, rfl⟩
    · cases h
    · rw [serveAll] at h
      rcases hc : serve env c t with e' | t₁
      · rw [hc] at h
        exact .inl (Prod.mk.inj h).2.symm
      · rw [hc] at h; cases h
    · rw [serveAll] at h
      rcases hm : serve env (.move x p) t with e' | t₁
      · rw [hm] at h
        exact .inl (Prod.mk.inj h).2.symm
      · rw [hm] at h
        dsimp only at h
        rw [serveAll] at h
        rcases hc : serve env c t₁ with e' | t₂
        · rw [hc] at h
          obtain ⟨h1, rfl⟩ := Prod.mk.inj h
          obtain rfl := Except.error.inj h1
          exact .inr ⟨x, p, c, hcs, hm, hc⟩
        · rw [hc] at h; cases h

theorem occupant_eq_none : occupant env dst t = none ↔ existsInDrive t dst = false := by
  unfold occupant
  split_ifs with he
  · obtain ⟨x, hx⟩ := resolvePathInDrive_isSome env.limit he
    simp [resolveOrLegacy, hx, he]
  · simpa using he

/-! ### Failed requests -/

/-- If the destination is deleted, every call that follows is accepted: the source can still be found in
the tables without the destination, the folder of the destination as well, and the services agree. If
nothing stands at the destination, no rename is refused after a move. -/
def Lossless (env : Env) (m : Method) (req : Request) (t : Tree) : Prop :=
  ∀ src dst, admission env m req = .ok (src, dst) →
    (∀ d t', occupant env dst t = some d → req.overwrites = true → serve env (.delete d) t = .ok t' →
      ∃ cs, calls env m req src dst t' = .ok cs ∧ Accepted env cs t') ∧
    (occupant env dst t = none → ∀ cs, calls env m req src dst t = .ok cs → ¬ Halved env cs t)

theorem handle_free (ha : admission env m req = .ok (src, dst)) (hn : occupant env dst t = none) :
    handle env m req t = (transfer env m req src dst t).map (Except.map fun _ => 201) id := by
  have he := occupant_eq_none.mp hn
  simp [handle, ha, hn, he]

theorem handle_occupied (ha : admission env m req = .ok (src, dst)) (hd : occupant env dst t = some d)
    (ho : req.overwrites = true) (hdel : serve env (.delete d) t = .ok t') :
    handle env m req t = (transfer env m req src dst t').map (Except.map fun _ => 204) id := by
  have he : existsInDrive t dst = true := by
    by_contra he
    rw [occupant_eq_none.mpr (by simpa using he)] at hd
    cases hd
  simp [handle, ha, hd, he, ho, hdel]

theorem map_error {f : Unit → StatusCode} {r : Except StatusCode Unit × Tree}
    (h : r.map (Except.map f) id = (.error e, t')) : r = (.error e, t') := by
  obtain ⟨_ | _, _⟩ := r
  · obtain ⟨h1, rfl⟩ := Prod.mk.inj h
    obtain rfl := Except.error.inj h1
    rfl
  · cases (Prod.mk.inj h).1

/-- A request fails before it changes anything, or in the transfer. -/
theorem handle_error (h : handle env m req t = (.error e, t')) : t' = t ∨
    ∃ src dst, admission env m req = .ok (src, dst) ∧
      (occupant env dst t = none ∧ transfer env m req src dst t = (.error e, t') ∨
        ∃ d t₁, occupant env dst t = some d ∧ req.overwrites = true ∧
          serve env (.delete d) t = .ok t₁ ∧ transfer env m req src dst t₁ = (.error e, t')) := by
  rcases ha : admission env m req with e' | ⟨src, dst⟩
  · rw [handle, ha] at h
    exact .inl (Prod.mk.inj h).2.symm
  rcases hd : occupant env dst t with _ | d
  · rw [handle_free ha hd] at h
    exact .inr ⟨src, dst, rfl, .inl ⟨hd, map_error h⟩⟩
  rcases ho : req.overwrites with _ | _
  · have he : existsInDrive t dst = true := by
      by_contra he
      rw [occupant_eq_none.mpr (by simpa using he)] at hd
      cases hd
    simp only [handle, ha, he, ho, Bool.not_false, Bool.and_self, if_true] at h
    exact .inl (Prod.mk.inj h).2.symm
  rcases hdel : serve env (.delete d) t with e' | t₁
  · simp only [handle, ha, hd, ho, hdel, Bool.not_true, Bool.and_false] at h
    exact .inl (Prod.mk.inj h).2.symm
  · rw [handle_occupied ha hd ho hdel] at h
    exact .inr ⟨src, dst, rfl, .inr ⟨d, t₁, hd, rfl, hdel, map_error h⟩⟩

/-- What was deleted for a transfer that failed stays deleted. -/
theorem transfer_error_absent (h : transfer env m req src dst t = (.error e, t')) (hd : Absent t d) :
    Absent t' d := by
  rcases transfer_error h with rfl | ⟨x, p, c, -, hm, -⟩
  · exact hd
  · exact move_absent hm hd

theorem limit_none {F : Finset FolderId} {X : Finset FileId} : limit.one F X = none ↔ F = ∅ ∧ X = ∅ := by
  constructor
  · intro h
    have hno : ¬ (F.Nonempty ∨ X.Nonempty) := by
      intro hne
      have hsome := limit.isSome F X hne
      rw [h] at hsome
      cases hsome
    rw [not_or, not_nonempty_iff_eq_empty, not_nonempty_iff_eq_empty] at hno
    exact hno
  · rintro ⟨rfl, rfl⟩
    rcases h : limit.one ∅ ∅ with _ | x
    · rfl
    · have ha := limit.among _ _ _ h
      rcases x with x | f
      · exact absurd ha (notMem_empty x)
      · exact absurd ha (notMem_empty f)

/-- The rows of one tree are rows of the other. -/
structure Fewer (t' t : Tree) : Prop where
  folders : ∀ f r, t'.folders.get f = some r → t.folders.get f = some r
  files : ∀ x r, t'.files.get x = some r → t.files.get x = some r

theorem Fewer.joined (h : Fewer t' t) {o : Option FolderId} {p : Folder → Bool}
    (ho : o.any (fun f => (t'.folders.get f).any p) = true) :
    o.any (fun f => (t.folders.get f).any p) = true := by
  rcases o with _ | f
  · cases ho
  · have ho : (t'.folders.get f).any p = true := ho
    obtain ⟨q, hq, hp⟩ := (any_eq_true _ _).mp ho
    show (t.folders.get f).any p = true
    exact (any_eq_true _ _).mpr ⟨q, h.folders f q hq, hp⟩

theorem Fewer.foldersAt (h : Fewer t' t) (drive : DriveId) (path : Text) :
    foldersAt t' drive path ⊆ foldersAt t drive path := by
  intro f hf
  obtain ⟨r, hr, hp⟩ := mem_sat.mp hf
  exact mem_sat.mpr ⟨r, h.folders f r hr, hp⟩

theorem Fewer.filesAt (h : Fewer t' t) (drive : DriveId) (folderPath filename : Text) :
    filesAt t' drive folderPath filename ⊆ filesAt t drive folderPath filename := by
  intro x hx
  obtain ⟨r, hr, hp⟩ := mem_sat.mp hx
  refine mem_sat.mpr ⟨r, h.files x r hr, ?_⟩
  simp only [Bool.and_eq_true, Bool.or_eq_true] at hp ⊢
  exact ⟨⟨⟨hp.1.1.1, hp.1.1.2.imp_right h.joined⟩, hp.1.2⟩, hp.2⟩

theorem Fewer.resolvePathInDrive (h : Fewer t' t) (hn : resolvePathInDrive limit t s = none) :
    resolvePathInDrive limit t' s = none := by
  unfold Transfers.resolvePathInDrive at hn ⊢
  dsimp only at hn ⊢
  split_ifs at hn ⊢
  · rfl
  · obtain ⟨hF, hX⟩ := limit_none.mp hn
    refine limit_none.mpr ⟨?_, ?_⟩
    · exact subset_empty.mp (hF ▸ h.foldersAt _ _)
    · exact subset_empty.mp (hX ▸ h.filesAt _ _ _)

theorem oneFolder_none {F : Finset FolderId} : (match limit.one F ∅ with
    | some (.folder f) => some f
    | _ => none) = none ↔ F = ∅ := by
  have hl : limit.one F ∅ = none ↔ F = ∅ := limit_none.trans (and_iff_left rfl)
  rw [← hl]
  rcases h : limit.one F ∅ with _ | x | f
  · simp
  · exact absurd (limit.among _ _ _ h) (notMem_empty x)
  · simp

theorem oneFile_none {X : Finset FileId} : (match limit.one ∅ X with
    | some (.file x) => some x
    | _ => none) = none ↔ X = ∅ := by
  have hl : limit.one ∅ X = none ↔ X = ∅ := limit_none.trans (and_iff_right rfl)
  rw [← hl]
  rcases h : limit.one ∅ X with _ | x | f
  · simp
  · simp
  · exact absurd (limit.among _ _ _ h) (notMem_empty f)

theorem Fewer.folderByPath (h : Fewer t' t) (hn : folderByPath limit t drive path = none) :
    folderByPath limit t' drive path = none := by
  unfold Transfers.folderByPath at hn ⊢
  dsimp only at hn ⊢
  split_ifs at hn ⊢
  · rfl
  · rw [oneFolder_none] at hn ⊢
    exact subset_empty.mp (hn ▸ h.foldersAt _ _)

theorem Fewer.fileByPath (h : Fewer t' t) (hn : fileByPath limit t drive path = none) :
    fileByPath limit t' drive path = none := by
  unfold Transfers.fileByPath at hn ⊢
  rw [oneFile_none] at hn ⊢
  split_ifs at hn ⊢
  · rfl
  · refine subset_empty.mp (hn ▸ fun x hx => ?_)
    obtain ⟨r, hr, hp⟩ := mem_sat.mp hx
    exact mem_sat.mpr ⟨r, h.files x r hr, hp⟩
  · refine subset_empty.mp (hn ▸ fun x hx => ?_)
    obtain ⟨r, hr, hp⟩ := mem_sat.mp hx
    rw [Bool.and_eq_true] at hp
    exact mem_sat.mpr ⟨r, h.files x r hr, by rw [Bool.and_eq_true]; exact ⟨hp.1, h.joined hp.2⟩⟩

theorem Fewer.resolveOrLegacy (h : Fewer t' t) (hn : resolveOrLegacy limit t s = none) :
    resolveOrLegacy limit t' s = none := by
  unfold Transfers.resolveOrLegacy at hn ⊢
  simp only [orElse_eq_orElse, orElse_eq_or, or_eq_none_iff,
    map_eq_none_iff] at hn ⊢
  exact ⟨h.resolvePathInDrive hn.1, h.folderByPath hn.2.1, h.fileByPath hn.2.2⟩

theorem delete_fewer (h : serve env (.delete d) t = .ok t') : Fewer t' t := by
  obtain ⟨-, n, hs⟩ := serve_ok h
  rcases d with x | f
  · simp only [Call.statement, Tree.deleteFile, Except.ok.injEq] at hs
    split_ifs at hs
    · obtain rfl := (Prod.mk.inj hs).2
      refine ⟨fun _ _ hr => hr, fun y r hr => ?_⟩
      by_cases hy : y = x
      · subst hy
        rw [get_erase_self] at hr
        cases hr
      · rwa [get_erase_ne _ hy] at hr
    · cases hs
  · simp only [Call.statement, Tree.deleteFolder, Except.ok.injEq] at hs
    have hfiles : Fewer (t.deleteFolderFiles f).2 t := by
      unfold Tree.deleteFolderFiles
      split
      · exact ⟨fun _ _ hr => hr, fun _ _ hr => hr⟩
      · refine ⟨fun _ _ hr => hr, fun x r hr => ?_⟩
        exact (filter_eq_some_iff.mp hr).1
    split_ifs at hs
    · obtain rfl := (Prod.mk.inj hs).2
      exact ⟨fun g r hr => hfiles.folders g r (Tree.deleteCascade_get.mp hr).1,
        fun x r hr => hfiles.files x r (Tree.deleteCascade_getFile.mp hr).1⟩
    · cases hs

/-- **A request for a source that does not exist deletes its destination and answers 404.** -/
theorem missing_source (ha : admission env m req = .ok (src, dst)) (hd : occupant env dst t = some d)
    (ho : req.overwrites = true) (hdel : serve env (.delete d) t = .ok t')
    (hn : resolveOrLegacy env.limit t src = none) :
    handle env m req t = (.error 404, t') ∧ Absent t' d := by
  refine ⟨?_, delete_absent hdel⟩
  have hn' := (delete_fewer hdel).resolveOrLegacy hn
  rw [handle_occupied ha hd ho hdel, transfer, calls, hn']
  rfl

/-! ### Losses -/

/-- Folders before files, both by id. -/
def byId : Limit where
  one F X := (inOrder F).head?.map .folder <|> (inOrder X).head?.map .file
  among F X x h := by
    rcases hF : inOrder F with _ | ⟨f, l⟩
    · rcases hX : inOrder X with _ | ⟨y, l⟩
      · simp [hF, hX] at h
      · obtain rfl : .file y = x := by simpa [hF, hX] using h
        exact mem_inOrder.mp (by rw [hX]; exact List.mem_cons_self)
    · obtain rfl : .folder f = x := by simpa [hF] using h
      exact mem_inOrder.mp (by rw [hF]; exact List.mem_cons_self)
  isSome F X h := by
    rcases hF : inOrder F with _ | ⟨f, l⟩
    · rcases hX : inOrder X with _ | ⟨y, l⟩
      · rcases h with ⟨f, hf⟩ | ⟨y, hy⟩
        · rw [← mem_inOrder, hF] at hf
          cases hf
        · rw [← mem_inOrder, hX] at hy
          cases hy
      · rfl
    · rfl

/-- A drive `P` with a folder `a` that holds a file `f`. -/
def shelf : Tree where
  now := 0
  folders := (Table.empty.set 0 ⟨['P'], none, 1, ['P'], [0], false, none, none, 0⟩).set 1
    ⟨['a'], some 0, 1, ['P', '/', 'a'], [0, 1], false, none, none, 0⟩
  files := Table.empty.set 0 ⟨['f'], some 1, 1, ['h'], 1, false, none, none, 0⟩
  drives := Table.empty.set 1 ⟨some 0, false, false⟩

/-- The owner of the drive, who is refused what `refuses` says. -/
def reader (refuses : Call → Tree → Option StatusCode) : Env where
  cfg := ⟨['@'], id, fun _ => none⟩
  account := ⟨[⟨1, ['P']⟩], some ⟨1, ['P']⟩⟩
  locks := .fresh
  limit := byId
  refuses := refuses
  draw := {}

/-- A request with only a `Destination`. -/
def request (path destination : Text) : Request where
  path := path
  destination := some (['/', 'w', 'e', 'b', 'd', 'a', 'v', '/'] ++ destination)

/-- The caller may not rename. -/
def noRename : Call → Tree → Option StatusCode
  | .rename _ _, _ => some 404
  | _, _ => none

end OxiCloud.WebDav.Transfers
