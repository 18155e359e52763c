import OxiCloud.WebDav.Locks

/-! # Drives in WebDAV paths

`resolve_webdav_scope` turns the path of a request into a drive and a path in it. A drive is named by the
first segment after the listing marker, by id or by the name of its root folder, among the drives the caller
can read; without the marker the path is in the caller's default drive. The path in the drive starts with
the name of the root folder (`resolve_within`), and this is all it says about the drive. -/

namespace OxiCloud.WebDav.Scopes

open Lib.Texts WebDav.Locks

/-- An HTTP status code. -/
abbrev StatusCode := ℕ

/-- A drive and the name of its root folder. -/
structure Drive where
  id : ℕ
  rootFolderName : Text
  deriving DecidableEq

/-- `DriveScope`. -/
structure DriveScope where
  driveId : ℕ
  dbPath : Path
  deriving DecidableEq

/-- `WebdavTarget`. -/
inductive WebdavTarget where
  | listDrives
  | scope (s : DriveScope)

/-- The configured listing marker (`webdav_drive_listing_prefix`), and the decoders of other libraries. -/
structure Config where
  listingMarker : Text
  percentDecode : Text → Text
  parseUuid : Text → Option ℕ

/-- The drives a user can read, in the order of the query, and the default drive. -/
structure Account where
  readable : List Drive
  default : Option Drive

/-- `strip_prefix_slash`. -/
def cutSegment (s p : Text) : Option Text := (cutStart p s).bind (cutStart ['/'])

/-- `join_drive_path`. -/
def joinDrivePath (rootName subpath : Text) : Path :=
  let subpath := trimEnd (· = '/') (trimStart (· = '/') subpath)
  if subpath = [] then rootName else rootName ++ '/' :: subpath

/-- `lookup_drive_selector`. -/
def lookupDriveSelector (cfg : Config) (acc : Account) (selector : Text) : Option Drive :=
  let decoded := cfg.percentDecode selector
  acc.readable.find? fun d => cfg.parseUuid decoded = some d.id || d.rootFolderName = decoded

/-- An explicit drive: the selector and the path in it. -/
def selectDrive (cfg : Config) (acc : Account) (s : Text) : Except StatusCode WebdavTarget :=
  let x := (splitOnce '/' s).getD (s, [])
  match lookupDriveSelector cfg acc x.1 with
  | none => .error 404
  | some d => .ok (.scope ⟨d.id, joinDrivePath d.rootFolderName x.2⟩)

/-- The default drive. Paths that already start with the name of its root folder are left as they are. -/
def defaultScope (d : Drive) (normalized : Text) : DriveScope :=
  if normalized = [] then ⟨d.id, d.rootFolderName⟩
  else if normalized = d.rootFolderName || (cutSegment normalized d.rootFolderName).isSome then
    ⟨d.id, normalized⟩
  else ⟨d.id, joinDrivePath d.rootFolderName normalized⟩

/-- `resolve_webdav_scope`. -/
def resolveWebdavScope (cfg : Config) (acc : Account) (urlPath : Text) : Except StatusCode WebdavTarget :=
  let normalized := trimBoth (· = '/') urlPath
  if cfg.listingMarker = [] then
    if normalized = [] then .ok .listDrives else selectDrive cfg acc normalized
  else if normalized = cfg.listingMarker then .ok .listDrives
  else match cutSegment normalized cfg.listingMarker with
    | some after => if after = [] then .ok .listDrives else selectDrive cfg acc after
    | none => match acc.default with
      | none => .error 500
      | some d => .ok (.scope (defaultScope d normalized))

/-- `resolve_webdav_scope_or_405`. -/
def resolveWebdavScopeOr405 (cfg : Config) (acc : Account) (urlPath : Text) : Except StatusCode DriveScope :=
  match resolveWebdavScope cfg acc urlPath with
  | .error e => .error e
  | .ok .listDrives => .error 405
  | .ok (.scope s) => .ok s

/-- `reject_path_traversal`. -/
def rejectPathTraversal (path : Text) : Except StatusCode Unit :=
  if (path.splitOn '/').any fun segment => segment = ['.', '.'] || segment = ['.'] then .error 400
  else .ok ()

/-- The destination of `MOVE` and `COPY`. -/
def destinationPath (cfg : Config) (destination : Option Text) : Except StatusCode Text :=
  match destination with
  | none => .error 400
  | some d => match afterText ['/', 'w', 'e', 'b', 'd', 'a', 'v', '/'] d with
    | none => .error 400
    | some after =>
      let path := cfg.percentDecode (trimEnd (· = '/') after)
      match rejectPathTraversal path with
      | .error e => .error e
      | .ok () => .ok path

/-! ### The path starts with the name of the root folder -/

/-- The path is the root folder of the name or inside it. -/
def Within (name : Text) (path : Path) : Prop := path = name ∨ name ++ ['/'] <+: path

/-- The drives of an account. -/
def Account.drives (acc : Account) : List Drive := acc.readable ++ acc.default.toList

theorem joinDrivePath_within (name sub : Text) : Within name (joinDrivePath name sub) := by
  unfold joinDrivePath
  dsimp only
  split_ifs
  · exact .inl rfl
  · refine .inr ⟨trimEnd (· = '/') (trimStart (· = '/') sub), ?_⟩
    rw [List.append_assoc, List.singleton_append]

theorem within_of_cutSegment {name s r : Text} (h : cutSegment s name = some r) : Within name s := by
  obtain ⟨t, ht, hr⟩ := Option.bind_eq_some_iff.mp h
  rw [cutStart_eq_some] at ht hr
  exact .inr ⟨r, by rw [ht, hr, List.append_assoc]⟩

theorem defaultScope_within (d : Drive) (s : Text) : Within d.rootFolderName (defaultScope d s).dbPath := by
  unfold defaultScope
  split_ifs with h1 h2
  · exact .inl rfl
  · rw [Bool.or_eq_true, decide_eq_true_eq] at h2
    rcases h2 with h2 | h2
    · exact .inl h2
    · obtain ⟨r, hr⟩ := Option.isSome_iff_exists.mp h2
      exact within_of_cutSegment hr
  · exact joinDrivePath_within _ _

theorem defaultScope_id (d : Drive) (s : Text) : (defaultScope d s).driveId = d.id := by
  unfold defaultScope
  split_ifs <;> rfl

variable {cfg : Config} {acc : Account} {path : Text} {sc : DriveScope}

theorem selectDrive_within (h : selectDrive cfg acc path = .ok (.scope sc)) :
    ∃ d ∈ acc.drives, sc.driveId = d.id ∧ Within d.rootFolderName sc.dbPath := by
  unfold selectDrive at h
  dsimp only at h
  split at h
  · cases h
  · next d hd =>
    obtain rfl := WebdavTarget.scope.inj (Except.ok.inj h)
    exact ⟨d, List.mem_append_left _ (List.mem_of_find?_eq_some hd), rfl, joinDrivePath_within _ _⟩

theorem resolve_within (h : resolveWebdavScope cfg acc path = .ok (.scope sc)) :
    ∃ d ∈ acc.drives, sc.driveId = d.id ∧ Within d.rootFolderName sc.dbPath := by
  unfold resolveWebdavScope at h
  dsimp only at h
  split_ifs at h
  · cases h
  · exact selectDrive_within h
  · cases h
  · split at h
    · split_ifs at h
      · cases h
      · exact selectDrive_within h
    · split at h
      · cases h
      · next d hd =>
        obtain rfl := WebdavTarget.scope.inj (Except.ok.inj h)
        exact ⟨d, List.mem_append_right _ (by simp [hd]), defaultScope_id d _, defaultScope_within d _⟩

theorem resolve405_ok (h : resolveWebdavScopeOr405 cfg acc path = .ok sc) :
    resolveWebdavScope cfg acc path = .ok (.scope sc) := by
  unfold resolveWebdavScopeOr405 at h
  split at h
  · cases h
  · cases h
  · next s hs =>
    obtain rfl := Except.ok.inj h
    exact hs

/-! ### First segments -/

/-- The first segment of a path. -/
def root (path : Path) : Text := path.takeWhile (· ≠ '/')

theorem root_of_not_mem {name : Text} (h : '/' ∉ name) (r : Text) : root (name ++ '/' :: r) = name := by
  have hall : ∀ c ∈ name, decide (c ≠ '/') = true := by
    intro c hc
    refine decide_eq_true fun hcs => h ?_
    rwa [← hcs]
  rw [root, List.takeWhile_append_of_pos hall]
  simp

theorem Within.root {name : Text} {path : Path} (h : Within name path) (hn : '/' ∉ name) :
    root path = name := by
  rcases h with rfl | ⟨r, rfl⟩
  · refine List.takeWhile_eq_self_iff.mpr fun c hc => decide_eq_true fun hcs => hn ?_
    rwa [← hcs]
  · rw [List.append_assoc, List.singleton_append]
    exact root_of_not_mem hn r

/-- A path above another has its first segment. -/
theorem root_of_above {p q : Path} (h : p ++ ['/'] <+: q) : root p = root q := by
  obtain ⟨r, rfl⟩ := h
  rw [List.append_assoc, List.singleton_append, root, root, List.takeWhile_append]
  split_ifs with hlen
  · have hp := (List.takeWhile_prefix (l := p) (· ≠ '/')).eq_of_length hlen
    rw [hp]
    simp
  · rfl

end OxiCloud.WebDav.Scopes
