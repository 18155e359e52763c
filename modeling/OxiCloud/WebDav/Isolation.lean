import OxiCloud.Lib.Programs
import OxiCloud.Lib.Unwinding
import OxiCloud.WebDav.IfHeader
import OxiCloud.WebDav.Scopes

/-! # Locks of different users

All users share one lock store. Users who have no access to each other's drives share nothing else: what a
request does besides is a function of the storage of its user (`Services`). A request first makes a plan
from this storage and its headers, and the plan then meets the lock store.

The keys of the store start with the name of a root folder, and names repeat. As long as no name is used by
two users, no lock is taken on the empty path, and nobody sends a token drawn for another user, everybody
sees the same replies and the same storage as without the requests of the others
(`users_do_not_interfere`). -/

namespace OxiCloud.WebDav.Isolation

open Lib.Caches Lib.Programs Lib.Texts Lib.Unwinding WebDav.Locks WebDav.IfHeader WebDav.Scopes Function

/-- The body of `LOCK`. -/
inductive LockBody where
  | empty
  | malformed
  | lockinfo (scope : LockScope) (owner : Option Text)

/-- The requests; `π` is everything in them that no lock depends on. -/
inductive Request (π : Type) where
  | lock (path : Text) (depth : Depth) (timeout ifHeader : Option Text) (body : LockBody)
  | unlock (path : Text) (lockToken : Option Text)
  | put (path : Text) (ifHeader : Option Text) (payload : π)
  | patch (path : Text) (ifHeader : Option Text) (payload : π)
  | proppatch (path : Text) (ifHeader : Option Text) (payload : π)
  | delete (path : Text) (ifHeader : Option Text)
  | move (path : Text) (destination ifHeader : Option Text) (payload : π)
  | copy (path : Text) (destination ifHeader : Option Text) (payload : π)

variable {σ π : Type}

/-- What requests do to the storage of their user. -/
structure Services (σ π : Type) where
  /-- `list_readable_by` and `find_default_for_user`. -/
  account : σ → Account
  /-- The checks of the headers that come before the scope is resolved. -/
  headers : Request π → Except StatusCode Unit
  /-- The target of `LOCK` exists and may be updated, or may be created. -/
  lockable : DriveScope → σ → Except StatusCode Unit
  /-- The target of `UNLOCK` may be updated, if it exists. -/
  unlockable : DriveScope → σ → Except StatusCode Unit
  /-- The existence check of `PUT`: the etag of the file. -/
  putTarget : DriveScope → σ → Except StatusCode (Option Text)
  /-- The existence check of `PATCH`. -/
  patchTarget : DriveScope → σ → Except StatusCode Text
  /-- Everything after the guards. -/
  perform : Request π → σ → StatusCode × σ

/-- The token of `LOCK` for a refresh. -/
def refreshToken (ifHeader : Text) : Token := trimTexts ['(', '<'] ['>', ')'] (trim ifHeader)

/-- The token of `UNLOCK`. -/
def unlockToken (lockToken : Text) : Token :=
  trimEnd (· = '>') (trimStart (· = '<') (trim lockToken))

/-- What a request is going to do with the locks. -/
inductive Plan where
  | reply (code : StatusCode)
  | acquire (key : Path) (info : LockInfo)
  | refresh (token : Token) (timeout : Option Text)
  | release (path : Text) (token : Token)
  | guards (ifHeader : Option Text) (calls : List (Path × Option Text))

def isRoot (path : Text) : Bool := path = [] || path = ['/']

/-- The key of `LOCK`. The root of the URL space is not resolved. -/
def lockKey (cfg : Config) (sv : Services σ π) (x : σ) (path : Text) : Except StatusCode Path :=
  if isRoot path then .ok path
  else do
    let sc ← resolveWebdavScopeOr405 cfg (sv.account x) path
    sv.lockable sc x
    pure sc.dbPath

/-- `handle_lock` up to the lock store. -/
def planLock (cfg : Config) (sv : Services σ π) (u : UserId) (token : Token) (x : σ) (path : Text)
    (depth : Depth) (timeout ifHeader : Option Text) (body : LockBody) : Plan :=
  match lockKey cfg sv x path with
  | .error e => .reply e
  | .ok key => match ifHeader with
    | some h => .refresh (refreshToken h) timeout
    | none => match body with
      | .empty => .reply 400
      | .malformed => .reply 400
      | .lockinfo scope owner =>
        .acquire key ⟨token, owner <|> some (Nat.toDigits 10 u), depth, timeout, scope⟩

/-- The guard calls of the writing verbs. -/
def guardCalls (cfg : Config) (sv : Services σ π) (x : σ) (r : Request π) :
    Except StatusCode (List (Path × Option Text)) :=
  match r with
  | .put path _ _ => if isRoot path then .error 400 else do
      let sc ← resolveWebdavScopeOr405 cfg (sv.account x) path
      let etag ← sv.putTarget sc x
      pure [(sc.dbPath, etag)]
  | .patch path _ _ => if isRoot path then .error 400 else do
      let sc ← resolveWebdavScopeOr405 cfg (sv.account x) path
      let etag ← sv.patchTarget sc x
      pure [(sc.dbPath, some etag)]
  | .proppatch path _ _ => do
      -- the drive listing is guarded under the empty path
      match ← resolveWebdavScope cfg (sv.account x) path with
      | .listDrives => pure [([], none)]
      | .scope sc => pure [(sc.dbPath, none)]
  | .delete path _ => if isRoot path then .error 403 else do
      let sc ← resolveWebdavScopeOr405 cfg (sv.account x) path
      pure [(sc.dbPath, none)]
  | .move path destination _ _ => do
      let dest ← destinationPath cfg destination
      let src ← resolveWebdavScopeOr405 cfg (sv.account x) path
      let dst ← resolveWebdavScopeOr405 cfg (sv.account x) dest
      if dst.dbPath = src.dbPath then .error 403
      else pure [(src.dbPath, none), (dst.dbPath, none)]
  | .copy path destination _ _ => do
      let dest ← destinationPath cfg destination
      let src ← resolveWebdavScopeOr405 cfg (sv.account x) path
      let dst ← resolveWebdavScopeOr405 cfg (sv.account x) dest
      if dst.dbPath = src.dbPath then .error 403
      else pure [(dst.dbPath, none)]
  | _ => pure []

def Request.ifHeader : Request π → Option Text
  | .lock _ _ _ h _ => h
  | .unlock _ _ => none
  | .put _ h _ => h
  | .patch _ h _ => h
  | .proppatch _ h _ => h
  | .delete _ h => h
  | .move _ _ h _ => h
  | .copy _ _ h _ => h

/-- The plan of a request. It does not depend on the lock store. -/
def plan (cfg : Config) (sv : Services σ π) (u : UserId) (token : Token) (x : σ) (r : Request π) : Plan :=
  match r with
  | .lock path depth timeout ifHeader body => planLock cfg sv u token x path depth timeout ifHeader body
  | .unlock path lockToken => match lockToken with
    | none => .reply 400
    | some t => .release path (unlockToken t)
  | r => match sv.headers r with
    | .error e => .reply e
    | .ok () => match guardCalls cfg sv x r with
      | .error e => .reply e
      | .ok calls => .guards r.ifHeader calls

def refusalCode : Refusal → StatusCode
  | .locked => 423
  | .preconditionFailed => 412

/-- The owner checks of `handle_unlock`. -/
def mayUnlock (cfg : Config) (sv : Services σ π) (u : UserId) (x : σ) (path : Text)
    (entry : Option LockEntry) : Except StatusCode Unit :=
  match entry with
  | none => .ok ()
  | some e => match e.callerUserId with
    | some owner => if owner = u then .ok () else .error 404
    | none => if isRoot path then .ok () else do
      let sc ← resolveWebdavScopeOr405 cfg (sv.account x) path
      sv.unlockable sc x

/-- The reply and the lock store after the plan; the storage changes only after guards that let the request
through. -/
def execute (cfg : Config) (sv : Services σ π) (now : ℕ) (u : UserId) (r : Request π) (x : σ)
    (st : WebDavLockStore) : Plan → (StatusCode × σ) × WebDavLockStore
  | .reply code => ((code, x), st)
  | .acquire key info => match st.acquire now key info (some u) with
    | (.error _, st) => ((423, x), st)
    | (.ok _, st) => ((200, x), st)
  | .refresh token timeout => match st.refresh now token timeout with
    | (none, st) => ((412, x), st)
    | (some _, st) => ((200, x), st)
  | .release path token => match mayUnlock cfg sv u x path (st.getByToken now token) with
    | .error e => ((e, x), st)
    | .ok () => match st.release now token with
      | (false, st) => ((409, x), st)
      | (true, st) => ((204, x), st)
  | .guards ifHeader calls => match calls.findSome? fun c => enforceNativeLock st now ifHeader c.1 c.2 with
    | some refusal => ((refusalCode refusal, x), st)
    | none => (sv.perform r x, st)

/-! ### Runs -/

/-- The clock, the lock store, the storage of each user, and who drew which token. -/
structure World (σ : Type) where
  now : ℕ
  store : WebDavLockStore
  storage : UserId → σ
  drawn : Token → Option UserId

/-- Time passes, or a user sends a request; the token is the one `LOCK` draws. -/
inductive Event (π : Type) where
  | tick (d : ℕ)
  | request (u : UserId) (token : Token) (r : Request π)

/-- The reply of a request, with the storage of its user after it. -/
def step (cfg : Config) (sv : Services σ π) (w : World σ) : Event π → Option (StatusCode × σ) × World σ
  | .tick d => (none, { w with now := w.now + d })
  | .request u token r =>
    let x := w.storage u
    let y := execute cfg sv w.now u r x w.store (plan cfg sv u token x r)
    (some y.1, ⟨w.now, y.2, Function.update w.storage u y.1.2, Function.update w.drawn token (some u)⟩)

/-- The events of a user, and time. -/
def Event.of (a : UserId) : Event π → Bool
  | .tick _ => true
  | .request u _ _ => u = a

/-- The request asks for no lock on the root of the URL space, and sends no token of somebody else. -/
def Request.Own (w : World σ) (u : UserId) : Request π → Prop
  | .lock path _ _ ifHeader _ => isRoot path = false ∧
    ∀ h ∈ ifHeader, ∀ v ∈ w.drawn (refreshToken h), v = u
  | .unlock _ lockToken => ∀ t ∈ lockToken, ∀ v ∈ w.drawn (unlockToken t), v = u
  | _ => True

/-- The condition on an event, in the state it meets: the drives of the user have names of the user, the
token is new, and the request is the user's own. -/
def Proper (sv : Services σ π) (N : UserId → Text → Prop) (w : World σ) : Event π → Prop
  | .tick _ => True
  | .request u token r => (∀ d ∈ (sv.account (w.storage u)).drives, N u d.rootFolderName) ∧
    w.drawn token = none ∧ r.Own w u

/-- Names of root folders, none of them of two users. -/
structure Names (N : UserId → Text → Prop) : Prop where
  plain : ∀ {u n}, N u n → n ≠ [] ∧ '/' ∉ n
  apart : ∀ {u v n}, N u n → N v n → u = v

/-! ### What a plan asks of the lock store -/

/-- The keys of the plan are in `P`, apart from the guard of the drive listing, and its tokens in `Q`. -/
def Plan.Fits (P : Path → Prop) (token : Token) (Q : Token → Prop) : Plan → Prop
  | .reply _ => True
  | .acquire key info => P key ∧ info.token = token
  | .refresh T _ => Q T
  | .release _ T => Q T
  | .guards _ calls => ∀ c ∈ calls, c.1 = [] ∨ P c.1

section Plan
variable {cfg : Config} {sv : Services σ π} {N : UserId → Text → Prop} {u : UserId} {x : σ}

theorem scope_named (hN : Names N) (hx : ∀ d ∈ (sv.account x).drives, N u d.rootFolderName) {path : Text}
    {sc : DriveScope} (h : resolveWebdavScope cfg (sv.account x) path = .ok (.scope sc)) :
    N u (root sc.dbPath) := by
  obtain ⟨d, hd, -, hw⟩ := resolve_within h
  rw [hw.root (hN.plain (hx d hd)).2]
  exact hx d hd

theorem lockKey_named (hN : Names N) (hx : ∀ d ∈ (sv.account x).drives, N u d.rootFolderName) {path : Text}
    {key : Path} (hr : isRoot path = false) (h : lockKey cfg sv x path = .ok key) : N u (root key) := by
  rw [lockKey, if_neg (by simp [hr])] at h
  obtain ⟨sc, hs, h⟩ := bind_eq_ok.mp h
  obtain ⟨-, -, h⟩ := bind_eq_ok.mp h
  rw [← Except.ok.inj h]
  exact scope_named hN hx (resolve405_ok hs)

variable {r : Request π}

theorem guardCalls_named (hN : Names N) (hx : ∀ d ∈ (sv.account x).drives, N u d.rootFolderName)
    {calls : List (Path × Option Text)} (h : guardCalls cfg sv x r = .ok calls) :
    ∀ c ∈ calls, c.1 = [] ∨ N u (root c.1) := by
  have hsc : ∀ {path sc}, resolveWebdavScopeOr405 cfg (sv.account x) path = .ok sc → N u (root sc.dbPath) :=
    fun hs => scope_named hN hx (resolve405_ok hs)
  cases r with
  | lock | unlock =>
    obtain rfl := Except.ok.inj h
    simp
  | put | patch =>
    simp only [guardCalls] at h
    split_ifs at h
    obtain ⟨sc, hs, h⟩ := bind_eq_ok.mp h
    obtain ⟨etag, -, h⟩ := bind_eq_ok.mp h
    obtain rfl := Except.ok.inj h
    simpa using .inr (hsc hs)
  | proppatch =>
    obtain ⟨_ | sc, ht, h⟩ := bind_eq_ok.mp h
    · obtain rfl := Except.ok.inj h
      simp
    · obtain rfl := Except.ok.inj h
      simpa using .inr (scope_named hN hx ht)
  | delete =>
    simp only [guardCalls] at h
    split_ifs at h
    obtain ⟨sc, hs, h⟩ := bind_eq_ok.mp h
    obtain rfl := Except.ok.inj h
    simpa using .inr (hsc hs)
  | move | copy =>
    obtain ⟨d, -, h⟩ := bind_eq_ok.mp h
    obtain ⟨src, hsrc, h⟩ := bind_eq_ok.mp h
    obtain ⟨dst, hdst, h⟩ := bind_eq_ok.mp h
    split_ifs at h
    obtain rfl := Except.ok.inj h
    simp [hsc hsrc, hsc hdst]

theorem writePlan_fits {P : Path → Prop} {Q : Token → Prop} {token : Token}
    (h : ∀ calls, guardCalls cfg sv x r = .ok calls → ∀ c ∈ calls, c.1 = [] ∨ P c.1) :
    (match sv.headers r with
      | .error e => Plan.reply e
      | .ok () => match guardCalls cfg sv x r with
        | .error e => .reply e
        | .ok calls => .guards r.ifHeader calls).Fits P token Q := by
  rcases sv.headers r with e | ⟨⟩
  · trivial
  · rcases hc : guardCalls cfg sv x r with e | calls
    · trivial
    · exact h calls hc

/-- **The keys of a request start with a name of its user.** -/
theorem plan_fits {w : World σ} {token : Token} (hN : Names N)
    (h : Proper sv N w (.request u token r)) :
    (plan cfg sv u token (w.storage u) r).Fits (fun k => N u (root k)) token
      (fun T => ∀ v, w.drawn T = some v → v = u) := by
  obtain ⟨hx, -, hown⟩ := h
  have hcalls := fun calls (hc : guardCalls cfg sv (w.storage u) r = .ok calls) =>
    guardCalls_named hN hx hc
  rcases r with ⟨path, depth, timeout, ifHeader, body⟩ | ⟨path, lockToken⟩ | _ | _ | _ | _ | _ | _
  · rcases hk : lockKey cfg sv (w.storage u) path with e | key
    · simp only [plan, planLock, hk]
      trivial
    · rcases ifHeader with _ | hdr
      · rcases body with _ | _ | ⟨scope, owner⟩
        · simp only [plan, planLock, hk]
          trivial
        · simp only [plan, planLock, hk]
          trivial
        · simp only [plan, planLock, hk]
          exact ⟨lockKey_named hN hx hown.1 hk, rfl⟩
      · simp only [plan, planLock, hk]
        exact hown.2 hdr rfl
  · rcases lockToken with _ | t
    · trivial
    · exact hown t rfl
  all_goals exact writePlan_fits hcalls

end Plan

/-! ### Stores that agree -/

/-- The stores have the same rows at the keys of `P` and the tokens of `Q`. -/
structure Agree (P : Path → Prop) (Q : Token → Prop) (st st' : WebDavLockStore) : Prop where
  path : ∀ k, P k → st.byPath.rows k = st'.byPath.rows k
  token : ∀ T, Q T → st.byToken.rows T = st'.byToken.rows T

section Agree
variable {P : Path → Prop} {Q : Token → Prop} {st st' : WebDavLockStore} {now : ℕ}
  {T : Token}

theorem get_congr {K V : Type} {c c' : Cache K V} {k : K} (h : c.rows k = c'.rows k) :
    c.get now k = c'.get now k := by
  rw [Cache.get, Cache.get, h]

section

variable (h : Agree P Q st st')
include h

theorem Agree.insertPath (k : Path) (e : LockEntry) (u : ℕ) :
    Agree P Q ⟨st.byPath.insert k e u, st.byToken⟩ ⟨st'.byPath.insert k e u, st'.byToken⟩ :=
  ⟨fun q hq => Cache.rows_insert_congr (h.path q hq) k e u, h.token⟩

theorem Agree.insertToken (T : Token) (p : Path) (u : ℕ) :
    Agree P Q ⟨st.byPath, st.byToken.insert T p u⟩ ⟨st'.byPath, st'.byToken.insert T p u⟩ :=
  ⟨h.path, fun T' hT' => Cache.rows_insert_congr (h.token T' hT') T p u⟩

theorem Agree.invalidatePath (k : Path) :
    Agree P Q ⟨st.byPath.invalidate k, st.byToken⟩ ⟨st'.byPath.invalidate k, st'.byToken⟩ :=
  ⟨fun q hq => Cache.rows_invalidate_congr (h.path q hq) k, h.token⟩

theorem Agree.invalidateToken (T : Token) :
    Agree P Q ⟨st.byPath, st.byToken.invalidate T⟩ ⟨st'.byPath, st'.byToken.invalidate T⟩ :=
  ⟨h.path, fun T' hT' => Cache.rows_invalidate_congr (h.token T' hT') T⟩

theorem acquire_agree (now : ℕ) {key : Path} (info : LockInfo) (caller : Option UserId)
    (hP : P key) : (st.acquire now key info caller).1 = (st'.acquire now key info caller).1 ∧
      Agree P Q (st.acquire now key info caller).2 (st'.acquire now key info caller).2 := by
  have hget : st'.byPath.get now key = st.byPath.get now key := get_congr (h.path key hP).symm
  unfold WebDavLockStore.acquire
  rw [hget]
  rcases st.byPath.get now key with _ | e
  · exact ⟨rfl, (h.insertPath _ _ _).insertToken _ _ _⟩
  · dsimp only
    split_ifs
    · exact ⟨rfl, h⟩
    · exact ⟨rfl, h.insertToken _ _ _⟩

end

section Lookup
variable (h : Agree P Q st st') (hT : st.byToken.rows T = st'.byToken.rows T)
  (hP : ∀ p, st.byToken.get now T = some p → P p)

include h hT hP

theorem lookup_agree : st'.byToken.get now T = st.byToken.get now T ∧
    ∀ p, st.byToken.get now T = some p → st'.byPath.get now p = st.byPath.get now p :=
  ⟨get_congr hT.symm, fun p hp => get_congr (h.path p (hP p hp)).symm⟩

theorem refresh_agree (timeout : Option Text) :
    (st.refresh now T timeout).1 = (st'.refresh now T timeout).1 ∧
      Agree P Q (st.refresh now T timeout).2 (st'.refresh now T timeout).2 := by
  obtain ⟨htok, hpath⟩ := lookup_agree h hT hP
  unfold WebDavLockStore.refresh
  rw [htok]
  rcases hp : st.byToken.get now T with _ | p
  · exact ⟨rfl, h⟩
  · dsimp only
    rw [hpath p hp]
    rcases st.byPath.get now p with _ | e
    · exact ⟨rfl, h⟩
    · dsimp only
      split_ifs
      · exact ⟨rfl, h⟩
      · exact ⟨rfl, (h.insertPath _ _ _).insertToken _ _ _⟩

theorem getByToken_agree : st.getByToken now T = st'.getByToken now T := by
  obtain ⟨htok, hpath⟩ := lookup_agree h hT hP
  rw [WebDavLockStore.getByToken, WebDavLockStore.getByToken, htok]
  rcases hp : st.byToken.get now T with _ | p
  · rfl
  · exact (hpath p hp).symm

theorem release_agree : (st.release now T).1 = (st'.release now T).1 ∧
    Agree P Q (st.release now T).2 (st'.release now T).2 := by
  obtain ⟨htok, hpath⟩ := lookup_agree h hT hP
  unfold WebDavLockStore.release
  rw [htok]
  rcases hp : st.byToken.get now T with _ | p
  · exact ⟨rfl, h⟩
  · dsimp only
    rw [hpath p hp]
    rcases st.byPath.get now p with _ | e
    · exact ⟨rfl, h.invalidateToken T⟩
    · dsimp only
      split_ifs
      · exact ⟨rfl, (h.invalidatePath p).invalidateToken T⟩
      · exact ⟨rfl, h.invalidateToken T⟩

end Lookup

theorem findSome_congr {α β : Type} {f g : α → Option β} {l : List α} (h : ∀ x ∈ l, f x = g x) :
    l.findSome? f = l.findSome? g := by
  induction l with
  | nil => rfl
  | cons x l ih =>
    rw [List.findSome?_cons, List.findSome?_cons, h x (by simp),
      ih fun y hy => h y (List.mem_cons_of_mem x hy)]

variable {p : Path}

/-- A guard looks at the path and the paths above it. -/
theorem enforce_agree (h : ∀ q, q = p ∨ q ∈ ancestors p → st.byPath.rows q = st'.byPath.rows q)
    (ifHeader etag : Option Text) :
    enforceNativeLock st now ifHeader p etag = enforceNativeLock st' now ifHeader p etag := by
  have hget : ∀ q, q = p ∨ q ∈ ancestors p → st.getByPath now q = st'.getByPath now q :=
    fun q hq => get_congr (h q hq)
  have hlock : lockFor st now p = lockFor st' now p := by
    rw [lockFor, lockFor, hget p (.inl rfl),
      findSome_congr fun q hq => by rw [hget q (.inr hq)]]
  rw [enforceNativeLock, enforceNativeLock, hlock]

/-! ### What a plan can change -/

/-- Only rows at keys of `P` and tokens of `Q` differ, and of the tokens only `new` gets a path, one in `P`. -/
structure Confined (P : Path → Prop) (Q : Token → Prop) (new : Token) (st st' : WebDavLockStore) : Prop where
  path : ∀ k, ¬ P k → st'.byPath.rows k = st.byPath.rows k
  token : ∀ T, ¬ Q T → st'.byToken.rows T = st.byToken.rows T
  placed : ∀ T p u, st'.byToken.rows T = some (p, u) → 
    (∃ u', st.byToken.rows T = some (p, u')) ∨ T = new ∧ P p

variable {new : Token}

theorem Confined.refl (st : WebDavLockStore) : Confined P Q new st st :=
  ⟨fun _ _ => rfl, fun _ _ => rfl, fun _ _ u h => .inl ⟨u, h⟩⟩

theorem confined_indexToken {c : Cache Path LockEntry} {u : ℕ} (hP : P p) (hQ : Q T)
    (hT : (∃ u', st.byToken.rows T = some (p, u')) ∨ T = new)
    (hc : ∀ k, ¬ P k → c.rows k = st.byPath.rows k) : Confined P Q new st ⟨c, st.byToken.insert T p u⟩ := by
  refine ⟨hc, ?_, ?_⟩
  · intro T' hT'
    refine Cache.rows_insert_ne _ _ _ ?_
    rintro rfl
    exact hT' hQ
  · intro T' p' u' hr
    rcases Cache.rows_insert_cases hr with ⟨rfl, rfl, -⟩ | ⟨-, hr⟩
    · exact hT.imp_right fun hnew => ⟨hnew, hP⟩
    · exact .inl ⟨u', hr⟩

theorem rows_insert_outside {c : Cache Path LockEntry} {e : LockEntry} {u : ℕ} (hP : P p)
    (k : Path) (hk : ¬ P k) : (c.insert p e u).rows k = c.rows k := by
  refine Cache.rows_insert_ne _ _ _ ?_
  rintro rfl
  exact hk hP

theorem acquire_confined {key : Path} {info : LockInfo} {caller : Option UserId} (hP : P key)
    (hQ : Q info.token) (hT : info.token = new) : Confined P Q new st (st.acquire now key info caller).2 := by
  obtain ⟨e, he, hx, hr⟩ | ⟨e, he, hx, hr⟩ | ⟨he, hr⟩ := acquire_cases st now key info caller
  · rw [hr]
    exact .refl st
  · rw [hr]
    exact confined_indexToken hP hQ (.inr hT) fun _ _ => rfl
  · rw [hr]
    exact confined_indexToken hP hQ (.inr hT) (rows_insert_outside hP)

theorem refresh_confined {timeout : Option Text}
    (hT : ∀ p, st.byToken.get now T = some p → P p ∧ Q T) :
    Confined P Q new st (st.refresh now T timeout).2 := by
  obtain hr | ⟨path, e, e', hp, -, -, -, hr⟩ := refresh_cases st now T timeout
  · rw [hr]
    exact .refl st
  · rw [hr]
    obtain ⟨hP, hQ⟩ := hT path hp
    obtain ⟨w, hw, -⟩ := Cache.get_eq_some.mp hp
    exact confined_indexToken hP hQ (.inl ⟨w, hw⟩) (rows_insert_outside hP)

theorem release_confined (hT : ∀ p, st.byToken.get now T = some p → P p ∧ Q T) :
    Confined P Q new st (st.release now T).2 := by
  have hdrop : ∀ c : Cache Path LockEntry, (∀ k, ¬ P k → c.rows k = st.byPath.rows k) → Q T →
      Confined P Q new st ⟨c, st.byToken.invalidate T⟩ := by
    intro c hc hQ
    refine ⟨hc, ?_, ?_⟩
    · intro T' hT'
      refine Cache.rows_invalidate_ne _ ?_
      rintro rfl
      exact hT' hQ
    · exact fun T' p' u' hr => .inl ⟨u', (Cache.rows_invalidate_some hr).2⟩
  obtain hr | ⟨path, hp, ⟨e, -, -, hr⟩ | ⟨-, hr⟩⟩ := release_cases st now T
  · rw [hr]
    exact .refl st
  · rw [hr]
    obtain ⟨hP, hQ⟩ := hT path hp
    refine hdrop _ (fun k hk => Cache.rows_invalidate_ne _ ?_) hQ
    rintro rfl
    exact hk hP
  · rw [hr]
    exact hdrop _ (fun _ _ => rfl) (hT path hp).2

end Agree

/-! ### Plans meet the lock store -/

section Execute
variable {cfg : Config} {sv : Services σ π} {P : Path → Prop} {Q : Token → Prop} {now : ℕ} {u : UserId}
  {r : Request π} {x : σ} {st st' : WebDavLockStore} {token : Token} {pl : Plan}

/-- The reply to a request for a lock, and the store. -/
theorem execute_acquire (key : Path) (info : LockInfo) :
    execute cfg sv now u r x st (.acquire key info) =
      ((match (st.acquire now key info (some u)).1 with
        | .error _ => 423
        | .ok _ => 200, x), (st.acquire now key info (some u)).2) := by
  rcases ha : st.acquire now key info (some u) with ⟨e | e, st₁⟩ <;> simp only [execute, ha]

theorem execute_refresh (T : Token) (timeout : Option Text) :
    execute cfg sv now u r x st (.refresh T timeout) =
      ((if (st.refresh now T timeout).1.isSome then 200 else 412, x), (st.refresh now T timeout).2) := by
  rcases ha : st.refresh now T timeout with ⟨_ | e, st₁⟩ <;>
    simp only [execute, ha, Option.isSome_none, Option.isSome_some, Bool.false_eq_true, if_true, if_false]

theorem execute_release {path : Text} {T : Token}
    (hm : mayUnlock cfg sv u x path (st.getByToken now T) = .ok ()) :
    execute cfg sv now u r x st (.release path T) =
      ((if (st.release now T).1 then 204 else 409, x), (st.release now T).2) := by
  rcases ha : st.release now T with ⟨_ | _, st₁⟩ <;>
    simp only [execute, hm, ha, Bool.false_eq_true, if_true, if_false]

/-- A plan changes the store at its own keys and tokens. -/
theorem execute_confined (h : pl.Fits P token Q) (hnew : ∀ T, Q T → ∀ p, st.byToken.get now T = some p → P p) :
    Confined P (fun T => T = token ∨ Q T) token st (execute cfg sv now u r x st pl).2 := by
  rcases pl with code | ⟨key, info⟩ | ⟨T, timeout⟩ | ⟨path, T⟩ | ⟨ifHeader, calls⟩
  · exact .refl st
  · rw [execute_acquire]
    exact acquire_confined h.1 (.inl h.2) h.2
  · rw [execute_refresh]
    exact refresh_confined fun p hp => ⟨hnew T h p hp, .inr h⟩
  · rcases hm : mayUnlock cfg sv u x path (st.getByToken now T) with e | ⟨⟩
    · simpa only [execute, hm] using .refl st
    · rw [execute_release hm]
      exact release_confined fun p hp => ⟨hnew T h p hp, .inr h⟩
  · rcases hg : calls.findSome? fun c => enforceNativeLock st now ifHeader c.1 c.2 with _ | e <;>
      simpa only [execute, hg] using .refl st

/-- **A plan does the same in stores that agree on its keys and tokens.** -/
theorem execute_agree (cfg : Config) (sv : Services σ π) (now : ℕ) (u : UserId) (r : Request π) (x : σ)
    (h : pl.Fits P token Q) (ha : Agree P (fun T => T = token ∨ Q T) st st')
    (hnew : ∀ T, Q T → ∀ p, st.byToken.get now T = some p → P p)
    (habove : ∀ p, P p → ∀ q ∈ ancestors p, P q) (hnil : st.byPath.rows [] = st'.byPath.rows []) :
    (execute cfg sv now u r x st pl).1 = (execute cfg sv now u r x st' pl).1 ∧
      Agree P (fun T => T = token ∨ Q T) (execute cfg sv now u r x st pl).2
        (execute cfg sv now u r x st' pl).2 := by
  rcases pl with code | ⟨key, info⟩ | ⟨T, timeout⟩ | ⟨path, T⟩ | ⟨ifHeader, calls⟩
  · exact ⟨rfl, ha⟩
  · obtain ⟨h1, h2⟩ := acquire_agree ha now info (some u) h.1
    rw [execute_acquire, execute_acquire, h1]
    exact ⟨rfl, h2⟩
  · obtain ⟨h1, h2⟩ := refresh_agree ha (ha.token T (.inr h)) (hnew T h) timeout
    rw [execute_refresh, execute_refresh, h1]
    exact ⟨rfl, h2⟩
  · have hget := getByToken_agree ha (ha.token T (.inr h)) (hnew T h)
    rcases hm : mayUnlock cfg sv u x path (st.getByToken now T) with e | ⟨⟩
    · have hm' := hm
      rw [hget] at hm'
      simpa only [execute, hm, hm'] using ⟨trivial, ha⟩
    · obtain ⟨h1, h2⟩ := release_agree ha (ha.token T (.inr h)) (hnew T h)
      rw [execute_release hm, execute_release (hget ▸ hm), h1]
      exact ⟨rfl, h2⟩
  · have hg : (calls.findSome? fun c => enforceNativeLock st now ifHeader c.1 c.2) =
        calls.findSome? fun c => enforceNativeLock st' now ifHeader c.1 c.2 := by
      refine findSome_congr fun c hc => enforce_agree (fun q hq => ?_) _ _
      rcases h c hc with hnilc | hP
      · rw [hnilc] at hq
        rcases hq with rfl | hq
        · exact hnil
        · cases hq
      · rcases hq with rfl | hq
        · exact ha.path _ hP
        · exact ha.path q (habove _ hP q hq)
    rcases hs : calls.findSome? fun c => enforceNativeLock st' now ifHeader c.1 c.2 with _ | e <;>
      simpa only [execute, hg, hs] using ⟨trivial, ha⟩

end Execute

/-! ### Two runs -/

section Runs
variable {cfg : Config} {sv : Services σ π} {N : UserId → Text → Prop} {a : UserId}

/-- Everything in the store is under a name of the user who drew its token. -/
structure Placed (N : UserId → Text → Prop) (w : World σ) : Prop where
  token : ∀ T p e, w.store.byToken.rows T = some (p, e) → ∃ v, w.drawn T = some v ∧ N v (root p)
  path : ∀ k, w.store.byPath.rows k ≠ none → ∃ v, N v (root k)

variable {w w' : World σ} {T token : Token} {r : Request π}

variable {u : UserId}

/-- Tokens of a user, and tokens nobody drew, lead to keys of the user. -/
theorem Placed.key (h : Placed N w) {now : ℕ} (hT : ∀ v, w.drawn T = some v → v = u) (p : Path)
    (hp : w.store.byToken.get now T = some p) : N u (root p) := by
  obtain ⟨e, he, -⟩ := Cache.get_eq_some.mp hp
  obtain ⟨v, hv, hn⟩ := h.token T p e he
  rwa [← hT v hv]

theorem Placed.rows_nil (hN : Names N) (h : Placed N w) : w.store.byPath.rows [] = none := by
  by_contra hne
  obtain ⟨v, hv⟩ := h.path [] hne
  exact (hN.plain hv).1 rfl

theorem Placed.rows_new (h : Placed N w) (hT : w.drawn T = none) :
    w.store.byToken.rows T = none := by
  rcases hr : w.store.byToken.rows T with _ | ⟨p, e⟩
  · rfl
  · obtain ⟨v, hv, -⟩ := h.token T p e hr
    rw [hT] at hv
    cases hv

theorem step_confined (cfg : Config) (hN : Names N) (h : Placed N w)
    (hp : Proper sv N w (.request u token r)) :
    Confined (fun k => N u (root k)) (fun T => T = token ∨ ∀ v, w.drawn T = some v → v = u) token
      w.store (step cfg sv w (.request u token r)).2.store :=
  execute_confined (plan_fits hN hp) fun _ hT => h.key hT

theorem Placed.step {ev : Event π} (hN : Names N) (h : Placed N w) (hp : Proper sv N w ev) :
    Placed N (step cfg sv w ev).2 := by
  rcases ev with d | ⟨u, token, r⟩
  · exact ⟨h.token, h.path⟩
  · have hc := step_confined cfg hN h hp
    constructor
    · intro T p e hr
      show ∃ v, update w.drawn token (some u) T = some v ∧ N v (root p)
      rcases hc.placed T p e hr with ⟨e', he'⟩ | ⟨rfl, hP⟩
      · have hT : T ≠ token := by
          rintro rfl
          rw [h.rows_new hp.2.1] at he'
          cases he'
        rw [update_of_ne hT]
        exact h.token T p e' he'
      · rw [update_self]
        exact ⟨u, rfl, hP⟩
    · intro k hk
      by_cases hP : N u (root k)
      · exact ⟨u, hP⟩
      · rw [hc.path k hP] at hk
        exact h.path k hk

/-- The run with everybody's requests and the run with those of `a`: the same clock and storage, and the
same locks of `a`. -/
structure Alike (N : UserId → Text → Prop) (a : UserId) (w w' : World σ) : Prop where
  now : w.now = w'.now
  storage : w.storage a = w'.storage a
  drawn : ∀ T, w.drawn T = some a ↔ w'.drawn T = some a
  only : ∀ T v, w'.drawn T = some v → v = a
  agree : Agree (fun k => N a (root k)) (fun T => w.drawn T = some a) w.store w'.store
  left : Placed N w
  right : Placed N w'

/-- Tokens that nobody else drew have the same row in both runs. -/
theorem Alike.drawn_token (h : Alike N a w w')
    (hT : ∀ v, w.drawn T = some v → v = a) : w.store.byToken.rows T = w'.store.byToken.rows T := by
  rcases hd : w.drawn T with _ | v
  · have hd' : w'.drawn T = none := by
      rcases hd' : w'.drawn T with _ | v
      · rfl
      · rw [h.only T v hd', ← h.drawn T, hd] at hd'
        cases hd'
    rw [h.left.rows_new hd, h.right.rows_new hd']
  · refine h.agree.token T ?_
    rw [hd, hT v hd]

/-- A request of `a` is proper in the second run too. -/
theorem Alike.proper (h : Alike N a w w')
    (hp : Proper sv N w (.request a token r)) : Proper sv N w' (.request a token r) := by
  obtain ⟨hx, hnew, hown⟩ := hp
  refine ⟨by rwa [← h.storage], ?_, ?_⟩
  · rcases hd : w'.drawn token with _ | v
    · rfl
    · rw [h.only token v hd, ← h.drawn token, hnew] at hd
      cases hd
  · rcases r with _ | _ | _ | _ | _ | _ | _ | _
    · exact ⟨hown.1, fun hdr _ v hv => h.only _ v hv⟩
    · exact fun t _ v hv => h.only _ v hv
    all_goals trivial

theorem root_ancestor {p q : Path} (h : q ∈ ancestors p) : root q = root p :=
  root_of_above (mem_ancestors.mp h).2

/-- **A request of `a` does the same in both runs.** -/
theorem Alike.mine (hN : Names N) (h : Alike N a w w') (hp : Proper sv N w (.request a token r)) :
    (step cfg sv w (.request a token r)).1 = (step cfg sv w' (.request a token r)).1 ∧
      Alike N a (step cfg sv w (.request a token r)).2 (step cfg sv w' (.request a token r)).2 := by
  have hagree : Agree (fun k => N a (root k)) (fun T => T = token ∨ ∀ v, w.drawn T = some v → v = a)
      w.store w'.store := by
    refine ⟨h.agree.path, fun T hT => h.drawn_token ?_⟩
    rcases hT with rfl | hT
    · intro v hv
      rw [hp.2.1] at hv
      cases hv
    · exact hT
  have habove : ∀ p, N a (root p) → ∀ q ∈ ancestors p, N a (root q) := by
    intro p hP q hq
    rwa [root_ancestor hq]
  have hnil : w.store.byPath.rows [] = w'.store.byPath.rows [] := by
    rw [h.left.rows_nil hN, h.right.rows_nil hN]
  obtain ⟨hout, hst⟩ := execute_agree cfg sv w.now a r (w.storage a) (plan_fits hN hp) hagree
    (fun T hT => h.left.key hT) habove hnil
  have hright : Placed N (step cfg sv w' (.request a token r)).2 := h.right.step hN (h.proper hp)
  simp only [step, ← h.now, ← h.storage] at hright ⊢
  refine ⟨by rw [hout], rfl, ?_, ?_, ?_, ⟨hst.path, ?_⟩, h.left.step hN hp, hright⟩
  · simp [hout]
  · intro T
    by_cases hT : T = token
    · simp [hT]
    · simp only [update_of_ne hT]
      exact h.drawn T
  · intro T v hv
    by_cases hT : T = token
    · simp only [hT, update_self] at hv
      exact (Option.some.inj hv).symm
    · simp only [update_of_ne hT] at hv
      exact h.only T v hv
  · intro T hT
    refine hst.token T ?_
    by_cases hTT : T = token
    · exact .inl hTT
    · simp only [update_of_ne hTT] at hT
      refine .inr fun v hv => ?_
      rw [hT] at hv
      exact (Option.some.inj hv).symm

/-- **A request of somebody else changes nothing for `a`.** -/
theorem Alike.other (hN : Names N) (h : Alike N a w w') (hu : u ≠ a)
    (hp : Proper sv N w (.request u token r)) :
    Alike N a (step cfg sv w (.request u token r)).2 w' := by
  have hc := step_confined cfg hN h.left hp
  have hne : ∀ T, update w.drawn token (some u) T = some a → T ≠ token ∧ w.drawn T = some a := by
    intro T hT
    by_cases hTT : T = token
    · rw [hTT, update_self] at hT
      exact absurd (Option.some.inj hT) hu
    · rw [update_of_ne hTT] at hT
      exact ⟨hTT, hT⟩
  refine ⟨h.now, ?_, ?_, h.only, ⟨?_, ?_⟩, h.left.step hN hp, h.right⟩
  · show update w.storage u _ a = w'.storage a
    rw [update_of_ne hu.symm]
    exact h.storage
  · intro T
    constructor
    · intro hT
      exact (h.drawn T).mp (hne T hT).2
    · intro hT
      have hd := (h.drawn T).mpr hT
      show update w.drawn token (some u) T = some a
      rw [update_of_ne, hd]
      rintro rfl
      rw [hp.2.1] at hd
      cases hd
  · intro k hk
    rw [hc.path k fun hk' => hu (hN.apart hk' hk)]
    exact h.agree.path k hk
  · intro T hT
    obtain ⟨hTT, hd⟩ := hne T hT
    rw [hc.token T ?_]
    · exact h.agree.token T hd
    · rintro (hT' | hT')
      · exact hTT hT'
      · exact hu (hT' a hd).symm

/-- Before the first request. -/
def World.fresh (storage : UserId → σ) : World σ := ⟨0, .new, storage, fun _ => none⟩

theorem placed_fresh (storage : UserId → σ) : Placed N (World.fresh storage) := by
  constructor
  · intro T p e h
    cases h
  · intro k h
    exact absurd rfl h

theorem alike_fresh (storage : UserId → σ) : Alike N a (World.fresh storage) (World.fresh storage) where
  now := rfl
  storage := rfl
  drawn _ := Iff.rfl
  only _ _ h := by cases h
  agree := ⟨fun _ _ => rfl, fun _ _ => rfl⟩
  left := placed_fresh storage
  right := placed_fresh storage

end Runs

/-! ### Two users -/

instance (w : World σ) (u : UserId) (r : Request π) : Decidable (r.Own w u) := by
  unfold Request.Own
  split <;> infer_instance

instance (sv : Services σ π) (N : UserId → Text → Prop) [∀ u n, Decidable (N u n)] (w : World σ)
    (ev : Event π) : Decidable (Proper sv N w ev) := by
  unfold Proper
  split <;> infer_instance

/-- The standard configuration. -/
def config : Config := ⟨['@', 'd', 'r', 'i', 'v', 'e'], id, fun _ => none⟩

/-- Storage is the account and the bodies that were put. -/
def plainServices : Services (Account × List Text) Text where
  account x := x.1
  headers _ := .ok ()
  lockable _ _ := .ok ()
  unlockable _ _ := .ok ()
  putTarget _ _ := .ok none
  patchTarget _ _ := .error 404
  perform r x := match r with
    | .put _ _ body => (201, (x.1, x.2 ++ [body]))
    | _ => (404, x)

/-- One drive each, with the given names of the root folders. -/
def twoDrives (n m : Text) (u : UserId) : Account × List Text :=
  let d : Drive := ⟨u, if u = 1 then n else m⟩
  (⟨[d], some d⟩, [])

/-- The first user locks `x`, the second one locks and writes `x` and releases the lock. -/
def bothLock : List (Event Text) :=
  [.request 1 ['1'] (.lock ['x'] .infinity none none (.lockinfo .exclusive none)),
    .request 2 ['2'] (.lock ['x'] .infinity none none (.lockinfo .exclusive none)),
    .request 2 ['3'] (.put ['x'] none ['v']),
    .request 2 ['4'] (.put ['x'] (some (render [[.stateToken false ['2']]])) ['w']),
    .request 2 ['5'] (.unlock ['x'] (some ['<', '2', '>']))]

end OxiCloud.WebDav.Isolation
