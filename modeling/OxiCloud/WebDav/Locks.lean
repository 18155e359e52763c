import OxiCloud.Lib.Caches
import OxiCloud.Lib.Texts

/-! # The WebDAV lock store

`WebDavLockStore` keeps two caches with expiring rows: the lock of a path, and the path of a token. The
row of a path expires with the timeout of its lock, the row of a token after a day. Of several shared
locks on one path only the first is in the path cache.

Beside the store the run keeps the locks that were granted and not released, each with the end of its
last grant or refresh. `Law` is what clients rely on: no two of them are in conflict, and each can be
refreshed, belongs to its user and keeps its path locked. The law holds along a run exactly if every
grant keeps `Apart` from the locks there are (`law_iff_apart`): the store itself looks at one path only,
and forgets further holders of a shared lock. -/

namespace OxiCloud.WebDav.Locks

open Lib.Caches Lib.Texts Function List

abbrev Token := Text

abbrev Path := Text

abbrev UserId := ℕ

/-- `LockScope`. -/
inductive LockScope where
  | exclusive
  | shared
  deriving DecidableEq

/-- What the guards read off the depth of a lock: `infinity`, or anything else. -/
inductive Depth where
  | zero
  | infinity
  deriving DecidableEq

/-- `LockInfo`. -/
structure LockInfo where
  token : Token
  owner : Option Text
  depth : Depth
  timeout : Option Text
  scope : LockScope
  deriving DecidableEq

/-- `LockEntry`. -/
structure LockEntry where
  info : LockInfo
  path : Path
  callerUserId : Option UserId
  deriving DecidableEq

/-- `WebDavLockStore`. -/
structure WebDavLockStore where
  byPath : Cache Path LockEntry
  byToken : Cache Token Path

/-- `DEFAULT_LOCK_TIMEOUT_SECS`. -/
def defaultLockTimeoutSecs : ℕ := 1800

/-- `MAX_LOCK_TIMEOUT_SECS`. -/
def maxLockTimeoutSecs : ℕ := 86400

/-- `Second-`. -/
def secondText : Text := ['S', 'e', 'c', 'o', 'n', 'd', '-']

/-- `Infinite`. -/
def infiniteText : Text := ['I', 'n', 'f', 'i', 'n', 'i', 't', 'e']

/-- `parse_timeout`, in seconds. -/
def parseTimeout (header : Option Text) : ℕ :=
  match header with
  | none | some [] => defaultLockTimeoutSecs
  | some raw =>
    let first := trim (raw.takeWhile (· ≠ ','))
    if eqIgnoreCase first infiniteText then maxLockTimeoutSecs
    else match (cutStart secondText first).bind fun s => parseU64 (trim s) with
      | some secs => min secs maxLockTimeoutSecs
      | none => defaultLockTimeoutSecs

/-- `format!("Second-{}", ttl)`. -/
def secondHeader (ttl : ℕ) : Text := secondText ++ Nat.toDigits 10 ttl

/-- The clock counts microseconds. -/
def second : ℕ := 1000000

/-- The time an entry written now expires. -/
def expiryOf (now : ℕ) (info : LockInfo) : ℕ := now + parseTimeout info.timeout * second

namespace WebDavLockStore

/-- `new`. -/
def new : WebDavLockStore := ⟨.empty, .empty⟩

/-- `get_by_path`. -/
def getByPath (st : WebDavLockStore) (now : ℕ) (path : Path) : Option LockEntry := st.byPath.get now path

/-- `get_by_token`. -/
def getByToken (st : WebDavLockStore) (now : ℕ) (token : Token) : Option LockEntry :=
  (st.byToken.get now token).bind (st.byPath.get now)

/-- A row of the token cache. -/
def indexToken (st : WebDavLockStore) (now : ℕ) (token : Token) (path : Path) : WebDavLockStore :=
  { st with byToken := st.byToken.insert token path (now + maxLockTimeoutSecs * second) }

/-- `acquire`. The second and later holders of a shared lock are only indexed. -/
def acquire (st : WebDavLockStore) (now : ℕ) (path : Path) (info : LockInfo) (caller : Option UserId) :
    Except LockEntry LockEntry × WebDavLockStore :=
  let entry : LockEntry := ⟨info, path, caller⟩
  match st.byPath.get now path with
  | some existing =>
    if existing.info.scope = .exclusive ∨ info.scope = .exclusive then (.error existing, st)
    else (.ok entry, st.indexToken now info.token path)
  | none =>
    (.ok entry, { st with byPath := st.byPath.insert path entry (expiryOf now info) }.indexToken now
      info.token path)

/-- `refresh`. -/
def refresh (st : WebDavLockStore) (now : ℕ) (token : Token) (newTimeout : Option Text) :
    Option LockEntry × WebDavLockStore :=
  match st.byToken.get now token with
  | none => (none, st)
  | some path => match st.byPath.get now path with
    | none => (none, st)
    | some entry =>
      if entry.info.token ≠ token then (none, st)
      else
        let ttl := parseTimeout (newTimeout <|> entry.info.timeout)
        let entry := { entry with info := { entry.info with timeout := some (secondHeader ttl) } }
        (some entry, { st with byPath := st.byPath.insert path entry (expiryOf now entry.info) }.indexToken
          now token path)

/-- `release`. -/
def release (st : WebDavLockStore) (now : ℕ) (token : Token) : Bool × WebDavLockStore :=
  match st.byToken.get now token with
  | none => (false, st)
  | some path =>
    let byPath := match st.byPath.get now path with
      | some entry => if entry.info.token = token then st.byPath.invalidate path else st.byPath
      | none => st.byPath
    (true, ⟨byPath, st.byToken.invalidate token⟩)

end WebDavLockStore

/-! ### Timeouts -/

theorem parseTimeout_le (header : Option Text) : parseTimeout header ≤ maxLockTimeoutSecs := by
  have hd : defaultLockTimeoutSecs ≤ maxLockTimeoutSecs := by decide
  unfold parseTimeout
  split
  · exact hd
  · exact hd
  · dsimp only
    split_ifs
    · exact le_refl _
    · split
      · exact Nat.min_le_right _ _
      · exact hd

theorem not_infinite (s : Text) : eqIgnoreCase (secondText ++ s) infiniteText = false := by
  simp [eqIgnoreCase, secondText, infiniteText]

/-- **The normalised header means what it was made from.** -/
theorem parseTimeout_secondHeader {ttl : ℕ} (h : ttl ≤ maxLockTimeoutSecs) :
    parseTimeout (some (secondHeader ttl)) = ttl := by
  have hmax : maxLockTimeoutSecs < 2 ^ 64 := by decide
  have hdigits : ∀ c ∈ Nat.toDigits 10 ttl, c.isWhitespace = false ∧ c ≠ ',' := by
    intro c hc
    have hd := Nat.isDigit_of_mem_toDigits (by omega) (by omega) hc
    simp only [Char.isWhitespace, Bool.or_eq_false_iff, decide_eq_false_iff_not]
    refine ⟨⟨⟨⟨?_, ?_⟩, ?_⟩, ?_⟩, ?_⟩ <;> (rintro rfl; revert hd; decide)
  have hname : secondText.all (fun c => !c.isWhitespace && c != ',') = true := by decide
  have hall : ∀ c ∈ secondHeader ttl, c.isWhitespace = false ∧ c ≠ ',' :=
    forall_mem_append.mpr ⟨by simpa using hname, hdigits⟩
  have htake : (secondHeader ttl).takeWhile (· ≠ ',') = secondHeader ttl :=
    takeWhile_eq_self_iff.mpr fun c hc => decide_eq_true (hall c hc).2
  have htrim := trim_of_no_space fun c hc => (hall c hc).1
  have hnum := trim_of_no_space fun c hc => (hdigits c hc).1
  have hread : (cutStart secondText (secondHeader ttl)).bind (fun s => parseU64 (trim s)) = some ttl := by
    rw [secondHeader, cutStart_append, Option.bind_some, hnum, parseU64_toDigits (by omega)]
  have hinf : eqIgnoreCase (secondHeader ttl) infiniteText = false := not_infinite _
  obtain ⟨a, s, has⟩ : ∃ a s, secondHeader ttl = a :: s := ⟨_, _, rfl⟩
  rw [has] at htake htrim hread hinf ⊢
  simp only [parseTimeout, htake, htrim, hinf, hread, Bool.false_eq_true, if_false]
  omega

theorem parseTimeout_hour : parseTimeout (some (secondHeader 3600)) = 3600 :=
  parseTimeout_secondHeader (by decide)

/-! ### Events -/

/-- The store, the clock, and the locks that were granted and not released: what was granted, and when
the last grant or refresh ends. -/
structure State where
  now : ℕ
  store : WebDavLockStore
  grants : Token → Option (LockEntry × ℕ)

/-- Before the first request. -/
def State.fresh : State := ⟨0, .new, fun _ => none⟩

inductive Event where
  | acquire (path : Path) (info : LockInfo) (caller : Option UserId)
  | refresh (token : Token) (newTimeout : Option Text)
  | release (token : Token)
  | tick (d : ℕ)

/-- The token an event brings in. -/
def Event.newToken : Event → Option Token
  | .acquire _ info _ => some info.token
  | _ => none

def step (s : State) : Event → State
  | .acquire path info caller => match s.store.acquire s.now path info caller with
    | (.error _, st) => { s with store := st }
    | (.ok entry, st) =>
      { s with store := st, grants := Function.update s.grants info.token (some (entry, expiryOf s.now info)) }
  | .refresh token newTimeout => match s.store.refresh s.now token newTimeout with
    | (none, st) => { s with store := st }
    | (some entry, st) =>
      -- who was granted what does not change, only until when
      let grant := (s.grants token).map fun g => (g.1, expiryOf s.now entry.info)
      { s with store := st, grants := Function.update s.grants token grant }
  | .release token => match s.store.release s.now token with
    | (false, st) => { s with store := st }
    | (true, st) => { s with store := st, grants := Function.update s.grants token none }
  | .tick d => { s with now := s.now + d }

def run (l : List Event) : State := l.foldl step .fresh

theorem run_concat (l : List Event) (ev : Event) : run (l ++ [ev]) = step (run l) ev :=
  foldl_concat ..

/-! ### What a lock covers -/

/-- `q` is inside the collection `p`. -/
def Below (q p : Path) : Prop := p = [] ∧ q ≠ [] ∨ p ++ ['/'] <+: q

instance (q p : Path) : Decidable (Below q p) := by
  unfold Below
  infer_instance

/-- A lock covers its path, and with depth `infinity` everything inside. -/
def Covers (e : LockEntry) (q : Path) : Prop := q = e.path ∨ e.info.depth = .infinity ∧ Below q e.path

/-- Two locks cover a common path. -/
def Overlap (e e' : LockEntry) : Prop := Covers e e'.path ∨ Covers e' e.path

instance (e : LockEntry) (q : Path) : Decidable (Covers e q) := by
  unfold Covers
  infer_instance

instance (e e' : LockEntry) : Decidable (Overlap e e') := by
  unfold Overlap
  infer_instance

/-- Everything but the timeout is the same. -/
structure SameLock (e e' : LockEntry) : Prop where
  token : e'.info.token = e.info.token
  scope : e'.info.scope = e.info.scope
  depth : e'.info.depth = e.info.depth
  path : e'.path = e.path
  caller : e'.callerUserId = e.callerUserId

theorem SameLock.refl (e : LockEntry) : SameLock e e := ⟨rfl, rfl, rfl, rfl, rfl⟩

theorem SameLock.overlap {a a' b : LockEntry} (h : SameLock a a') : Overlap a' b ↔ Overlap a b := by
  simp [Overlap, Covers, h.path, h.depth]

variable {e : LockEntry} {p q : Path} {T : Token} {g : Option (LockEntry × ℕ)}
  {st : WebDavLockStore} {l : List Event} {ev : Event}

variable {e' : LockEntry}

theorem Overlap.symm (h : Overlap e e') : Overlap e' e := Or.symm h

/-- Two collections with a common member are one inside the other. -/
theorem below_linear {x : Path} (hp : Below x p) (hq : Below x q) : p = q ∨ Below p q ∨ Below q p := by
  rcases hp with ⟨rfl, hx⟩ | hp
  · by_cases h : q = []
    · exact .inl h.symm
    · exact .inr (.inr (.inl ⟨rfl, h⟩))
  · rcases hq with ⟨rfl, hx⟩ | hq
    · by_cases h : p = []
      · exact .inl h
      · exact .inr (.inl (.inl ⟨rfl, h⟩))
    · rcases prefix_or_prefix_of_prefix hp hq with h | h
      · rcases prefix_concat_iff.mp h with h | h
        · exact .inl (append_cancel_right h)
        · exact .inr (.inr (.inr h))
      · rcases prefix_concat_iff.mp h with h | h
        · exact .inl (append_cancel_right h).symm
        · exact .inr (.inl (.inr h))

theorem overlap_iff : Overlap e e' ↔ ∃ q, Covers e q ∧ Covers e' q := by
  constructor
  · rintro (h | h)
    · exact ⟨e'.path, h, .inl rfl⟩
    · exact ⟨e.path, .inl rfl, h⟩
  · rintro ⟨q, rfl | ⟨hd, hb⟩, h'⟩
    · exact .inr h'
    · rcases h' with rfl | ⟨hd', hb'⟩
      · exact .inl (.inr ⟨hd, hb⟩)
      · rcases below_linear hb hb' with h | h | h
        · exact .inl (.inl h.symm)
        · exact .inr (.inr ⟨hd', h⟩)
        · exact .inl (.inr ⟨hd, h⟩)

/-! ### The law and its condition -/

/-- The lock was granted with `token`, and is neither released nor past its timeout. -/
def Live (s : State) (token : Token) (e : LockEntry) : Prop :=
  ∃ expiry, s.grants token = some (e, expiry) ∧ s.now < expiry

/-- What holders of locks rely on. -/
structure Law (s : State) : Prop where
  exclusive : ∀ T T' e e', Live s T e → Live s T' e' → T ≠ T' →
    e.info.scope = .exclusive ∨ e'.info.scope = .exclusive → ∀ q, ¬ (Covers e q ∧ Covers e' q)
  refreshable : ∀ T e, Live s T e → ∀ newTimeout, (s.store.refresh s.now T newTimeout).1.isSome
  resolves : ∀ T e, Live s T e →
    (s.store.getByToken s.now T).map LockEntry.callerUserId = some e.callerUserId
  locked : ∀ T e, Live s T e → (s.store.getByPath s.now e.path).isSome

/-- Two locks may overlap if both are shared. -/
def Compatible (e e' : LockEntry) : Prop :=
  Overlap e e' → e.info.scope = .shared ∧ e'.info.scope = .shared

/-- The condition on a request: a lock asked for on a locked path is refused, and one on another path does
not conflict with the locks above and below that path. A lock with the timeout zero is never held. -/
def Apart (s : State) : Event → Prop
  | .acquire path info caller => parseTimeout info.timeout = 0 ∨
    match s.store.getByPath s.now path with
    | some e => e.info.scope = .exclusive ∨ info.scope = .exclusive
    | none => ∀ q e, s.store.getByPath s.now q = some e → Compatible e ⟨info, path, caller⟩
  | _ => True

/-- Every lock in the store was granted, is found through its token, and is what was granted. -/
def Rooted (s : State) : Prop := ∀ p e u, s.store.byPath.rows p = some (e, u) → s.now < u →
  (∃ w, s.store.byToken.rows e.info.token = some (p, w) ∧ u ≤ w) ∧
    ∃ g, s.grants e.info.token = some (g, u) ∧ g.path = p ∧ SameLock g e

/-- The granted locks are exactly those of the store, and they are compatible. -/
structure Held (s : State) : Prop where
  rooted : Rooted s
  row : ∀ {T e u}, s.grants T = some (e, u) → s.now < u →
    ∃ e', s.store.byPath.rows e.path = some (e', u) ∧ e'.info.token = T
  compatible : ∀ {T T' e e'}, Live s T e → Live s T' e' → T ≠ T' → Compatible e e'

theorem rooted_fresh : Rooted .fresh := by
  intro p e u h
  cases h

theorem held_fresh : Held .fresh where
  rooted := rooted_fresh
  row h := by cases h
  compatible h := by
    obtain ⟨_, h, _⟩ := h
    cases h

/-- A lock found at a path was granted. -/
theorem Rooted.live {s : State} (h : Rooted s) (he : s.store.getByPath s.now p = some e') :
    ∃ e, Live s e'.info.token e ∧ e.path = p ∧ SameLock e e' := by
  obtain ⟨u, hr, hu⟩ := Cache.get_eq_some.mp he
  obtain ⟨-, e, hg, hp, hsame⟩ := h _ _ _ hr hu
  exact ⟨e, ⟨u, hg, hu⟩, hp, hsame⟩

theorem Rooted.path_eq {s : State} {u : ℕ} (h : Rooted s)
    (hr : s.store.byPath.rows q = some (e, u)) (hu : s.now < u) (ht : e.info.token = T)
    (hp : s.store.byToken.get s.now T = some p) : q = p := by
  obtain ⟨⟨w, hw, -⟩, -⟩ := h _ _ _ hr hu
  obtain ⟨w', hw', -⟩ := Cache.get_eq_some.mp hp
  rw [ht, hw'] at hw
  exact (Prod.mk.inj (Option.some.inj hw)).1.symm

/-- A granted lock is found through its path and its token. -/
theorem Held.found {s : State} (h : Held s) (hl : Live s T e) :
    ∃ e', s.store.byToken.get s.now T = some e.path ∧ s.store.byPath.get s.now e.path = some e' ∧
      e'.info.token = T ∧ SameLock e e' := by
  obtain ⟨u, hg, hu⟩ := hl
  obtain ⟨e', he', ht⟩ := h.row hg hu
  obtain ⟨⟨w, hw, huw⟩, g, hgt, -, hsame⟩ := h.rooted _ _ _ he' hu
  rw [ht] at hw hgt
  rw [hg] at hgt
  obtain ⟨rfl, -⟩ := Prod.mk.inj (Option.some.inj hgt)
  exact ⟨e', Cache.get_of_rows hw (by omega), Cache.get_of_rows he' hu, ht, hsame⟩

theorem Held.law {s : State} (h : Held s) : Law s where
  exclusive := by
    intro T T' e e' hl hl' hne hx q hq
    obtain ⟨h1, h2⟩ := h.compatible hl hl' hne (overlap_iff.mpr ⟨q, hq⟩)
    rcases hx with hx | hx
    · rw [h1] at hx
      cases hx
    · rw [h2] at hx
      cases hx
  refreshable := by
    intro T e hl newTimeout
    obtain ⟨e', h1, h2, h3, -⟩ := h.found hl
    simp [WebDavLockStore.refresh, h1, h2, h3]
  resolves := by
    intro T e hl
    obtain ⟨e', h1, h2, -, hsame⟩ := h.found hl
    simp [WebDavLockStore.getByToken, h1, h2, hsame.caller]
  locked := by
    intro T e hl
    obtain ⟨e', -, h2, -, -⟩ := h.found hl
    simp [WebDavLockStore.getByPath, h2]

/-! ### What one event does -/

section

variable (st : WebDavLockStore) (now : ℕ)

theorem acquire_cases (path : Path) (info : LockInfo) (caller : Option UserId) :
    (∃ e, st.getByPath now path = some e ∧ (e.info.scope = .exclusive ∨ info.scope = .exclusive) ∧
      st.acquire now path info caller = (.error e, st)) ∨
    (∃ e, st.getByPath now path = some e ∧ ¬ (e.info.scope = .exclusive ∨ info.scope = .exclusive) ∧
      st.acquire now path info caller = (.ok ⟨info, path, caller⟩, st.indexToken now info.token path)) ∨
    st.getByPath now path = none ∧ st.acquire now path info caller = (.ok ⟨info, path, caller⟩,
      ⟨st.byPath.insert path ⟨info, path, caller⟩ (expiryOf now info),
        st.byToken.insert info.token path (now + maxLockTimeoutSecs * second)⟩) := by
  rcases h : st.byPath.get now path with _ | e
  · refine .inr (.inr ⟨h, ?_⟩)
    simp only [WebDavLockStore.acquire, h]
    rfl
  · by_cases hx : e.info.scope = .exclusive ∨ info.scope = .exclusive
    · refine .inl ⟨e, h, hx, ?_⟩
      simp [WebDavLockStore.acquire, h, if_pos hx]
    · refine .inr (.inl ⟨e, h, hx, ?_⟩)
      simp [WebDavLockStore.acquire, h, if_neg hx]

theorem refresh_cases (token : Token) (newTimeout : Option Text) :
    st.refresh now token newTimeout = (none, st) ∨
    ∃ path e e', st.byToken.get now token = some path ∧ st.byPath.get now path = some e ∧
      e.info.token = token ∧ SameLock e e' ∧ st.refresh now token newTimeout = (some e',
        ⟨st.byPath.insert path e' (expiryOf now e'.info),
          st.byToken.insert token path (now + maxLockTimeoutSecs * second)⟩) := by
  rcases h1 : st.byToken.get now token with _ | path
  · left
    simp [WebDavLockStore.refresh, h1]
  · rcases h2 : st.byPath.get now path with _ | e
    · left
      simp [WebDavLockStore.refresh, h1, h2]
    · by_cases ht : e.info.token = token
      · right
        refine ⟨path, e, { e with info := { e.info with
          timeout := some (secondHeader (parseTimeout (newTimeout <|> e.info.timeout))) } },
          rfl, h2, ht, ⟨rfl, rfl, rfl, rfl, rfl⟩, ?_⟩
        simp only [WebDavLockStore.refresh, h1, h2, ht, ne_eq, not_true_eq_false, if_false]
        rfl
      · left
        simp only [WebDavLockStore.refresh, h1, h2, ne_eq, ht, not_false_eq_true, if_true]

theorem release_cases (token : Token) : st.release now token = (false, st) ∨
    ∃ path, st.byToken.get now token = some path ∧
      ((∃ e, st.byPath.get now path = some e ∧ e.info.token = token ∧
          st.release now token = (true, ⟨st.byPath.invalidate path, st.byToken.invalidate token⟩)) ∨
        (∀ e, st.byPath.get now path = some e → e.info.token ≠ token) ∧
          st.release now token = (true, ⟨st.byPath, st.byToken.invalidate token⟩)) := by
  rcases h1 : st.byToken.get now token with _ | path
  · left
    simp [WebDavLockStore.release, h1]
  · refine .inr ⟨path, rfl, ?_⟩
    rcases h2 : st.byPath.get now path with _ | e
    · refine .inr ⟨fun e he => (by cases he), ?_⟩
      simp [WebDavLockStore.release, h1, h2]
    · by_cases ht : e.info.token = token
      · refine .inl ⟨e, rfl, ht, ?_⟩
        simp [WebDavLockStore.release, h1, h2, if_pos ht]
      · refine .inr ⟨fun e' he => ?_, ?_⟩
        · rwa [← Option.some.inj he]
        · simp [WebDavLockStore.release, h1, h2, if_neg ht]

end

/-! ### What every event keeps -/

variable {s : State}

theorem expiryOf_le (now : ℕ) (info : LockInfo) : expiryOf now info ≤ now + maxLockTimeoutSecs * second :=
  Nat.add_le_add_left (Nat.mul_le_mul_right _ (parseTimeout_le _)) _

theorem live_update {T' : Token}
    (hne : T' ≠ T) : Live ⟨s.now, st, update s.grants T g⟩ T' e ↔ Live s T' e := by
  simp [Live, update_of_ne hne]

theorem live_update_self :
    Live ⟨s.now, st, update s.grants T g⟩ T e ↔ ∃ u, g = some (e, u) ∧ s.now < u := by
  simp [Live]

/-- **An event changes the rows of one token**, and no row of another token appears. -/
theorem Rooted.update (h : Rooted s)
    (hindex : ∀ T', T' ≠ T → st.byToken.rows T' = s.store.byToken.rows T')
    (hother : ∀ p e u, st.byPath.rows p = some (e, u) → s.now < u → e.info.token ≠ T →
      s.store.byPath.rows p = some (e, u))
    (hself : ∀ p e u, st.byPath.rows p = some (e, u) → s.now < u → e.info.token = T →
      (∃ w, st.byToken.rows T = some (p, w) ∧ u ≤ w) ∧ ∃ a, g = some (a, u) ∧ a.path = p ∧ SameLock a e) :
    Rooted ⟨s.now, st, update s.grants T g⟩ := by
  intro p e u hr hu
  dsimp only at hr hu ⊢
  by_cases hT : e.info.token = T
  · rw [hT, update_self]
    exact hself p e u hr hu hT
  · rw [update_of_ne hT, hindex _ hT]
    exact h p e u (hother p e u hr hu hT) hu

/-- **The other tokens keep their locks**, and the new one is compatible with them. -/
theorem Held.update (h : Held s) (hr : Rooted ⟨s.now, st, update s.grants T g⟩)
    (hother : ∀ T' e, T' ≠ T → Live s T' e → st.byPath.rows e.path = s.store.byPath.rows e.path)
    (hself : ∀ e u, g = some (e, u) → s.now < u →
      (∃ e', st.byPath.rows e.path = some (e', u) ∧ e'.info.token = T) ∧
        ∀ T' e₂, T' ≠ T → Live s T' e₂ → Compatible e₂ e) :
    Held ⟨s.now, st, update s.grants T g⟩ := by
  refine ⟨hr, ?_, ?_⟩
  · intro T' e u hg hu
    dsimp only at hg hu ⊢
    by_cases hT : T' = T
    · rw [hT, update_self] at hg
      rw [hT]
      exact (hself e u hg hu).1
    · rw [update_of_ne hT] at hg
      rw [hother T' e hT ⟨u, hg, hu⟩]
      exact h.row hg hu
  · intro T₁ T₂ e₁ e₂ hl₁ hl₂ hne
    by_cases h1 : T₁ = T
    · rw [h1] at hl₁ hne
      obtain ⟨u, hu, hlt⟩ := live_update_self.mp hl₁
      intro ho
      exact ((hself e₁ u hu hlt).2 T₂ e₂ hne.symm ((live_update hne.symm).mp hl₂) ho.symm).symm
    · rw [live_update h1] at hl₁
      by_cases h2 : T₂ = T
      · rw [h2] at hl₂
        obtain ⟨u, hu, hlt⟩ := live_update_self.mp hl₂
        exact (hself e₂ u hu hlt).2 T₁ e₁ h1 hl₁
      · exact h.compatible hl₁ ((live_update h2).mp hl₂) hne

/-- A lock is written to its path and indexed under its token. -/
theorem Rooted.insert (h : Rooted s) {a : LockEntry} (hsame : SameLock a e')
    (hT : e'.info.token = T)
    (hfree : ∀ q e u, s.store.byPath.rows q = some (e, u) → s.now < u → e.info.token = T → q = a.path) :
    Rooted ⟨s.now, ⟨s.store.byPath.insert a.path e' (expiryOf s.now e'.info),
        s.store.byToken.insert T a.path (s.now + maxLockTimeoutSecs * second)⟩,
      Function.update s.grants T (some (a, expiryOf s.now e'.info))⟩ := by
  refine h.update (fun T' hT' => Cache.rows_insert_ne _ _ _ hT') ?_ ?_
  · intro q e u hr hu hne
    rcases Cache.rows_insert_cases hr with ⟨-, rfl, -⟩ | ⟨-, hr⟩
    · exact absurd hT hne
    · exact hr
  · intro q e u hr hu he
    rcases Cache.rows_insert_cases hr with ⟨rfl, rfl, rfl⟩ | ⟨hq, hr⟩
    · exact ⟨⟨_, Cache.rows_insert_self .., expiryOf_le ..⟩, a, rfl, rfl, hsame⟩
    · exact absurd (hfree q e u hr hu he) hq

theorem Rooted.tick (h : Rooted s) (d : ℕ) : Rooted (step s (.tick d)) := by
  intro p e u hr hu
  have hlt : s.now + d < u := hu
  exact h p e u hr (by omega)

/-- Waiting only ends locks. -/
theorem Held.tick (h : Held s) (d : ℕ) : Held (step s (.tick d)) := by
  refine ⟨h.rooted.tick d, ?_, ?_⟩
  · intro T e u hg hu
    have hlt : s.now + d < u := hu
    exact h.row hg (by omega)
  · rintro T T' e e' ⟨u, hg, hu⟩ ⟨u', hg', hu'⟩ hne
    have hlt : s.now + d < u := hu
    have hlt' : s.now + d < u' := hu'
    exact h.compatible ⟨u, hg, by omega⟩ ⟨u', hg', by omega⟩ hne

theorem Rooted.refresh (h : Rooted s) (token : Token) (newTimeout : Option Text) :
    Rooted (step s (.refresh token newTimeout)) := by
  obtain hr | ⟨path, e, e', hpath, he, ht, hsame, hr⟩ := refresh_cases s.store s.now token newTimeout
  · simp only [step, hr]
    exact h
  · obtain ⟨a, ⟨v, hav, hv⟩, rfl, has⟩ := h.live he
    rw [ht] at hav
    simp only [step, hr, hav, Option.map_some]
    have hsame' : SameLock a e' :=
      ⟨hsame.token.trans has.token, hsame.scope.trans has.scope, hsame.depth.trans has.depth,
        hsame.path.trans has.path, hsame.caller.trans has.caller⟩
    exact h.insert hsame' (hsame.token.trans ht) fun q e₂ u₂ hr₂ hu₂ hT => h.path_eq hr₂ hu₂ hT hpath

theorem Held.path_ne (h : Held s) {e₂ : LockEntry} {T' : Token} (hl : Live s T' e₂)
    (he : s.store.byPath.get s.now p = some e) (hne : T' ≠ e.info.token) : e₂.path ≠ p := by
  intro hp
  obtain ⟨b, -, hb, hbt, -⟩ := h.found hl
  rw [hp, he] at hb
  obtain rfl := Option.some.inj hb
  exact hne hbt.symm

theorem Held.refresh (h : Held s) (token : Token) (newTimeout : Option Text) :
    Held (step s (.refresh token newTimeout)) := by
  have hroot := h.rooted.refresh token newTimeout
  obtain hr | ⟨path, e, e', -, he, ht, hsame, hr⟩ := refresh_cases s.store s.now token newTimeout
  · simp only [step, hr]
    exact h
  · obtain ⟨a, ⟨v, hav, hv⟩, rfl, -⟩ := h.rooted.live he
    rw [ht] at hav
    simp only [step, hr, hav, Option.map_some] at hroot ⊢
    refine h.update hroot ?_ ?_
    · exact fun T' e₂ hne hl => Cache.rows_insert_ne _ _ _ (h.path_ne hl he (by rwa [ht]))
    · intro b u hb hu
      obtain ⟨rfl, rfl⟩ := Prod.mk.inj (Option.some.inj hb)
      refine ⟨⟨e', Cache.rows_insert_self .., hsame.token.trans ht⟩, ?_⟩
      exact fun T' e₂ hne hl => h.compatible hl ⟨v, hav, hv⟩ hne

theorem Rooted.release (h : Rooted s) (token : Token) : Rooted (step s (.release token)) := by
  obtain hr | ⟨path, hpath, ⟨e, he, ht, hr⟩ | ⟨hno, hr⟩⟩ := release_cases s.store s.now token
  · simp only [step, hr]
    exact h
  · -- the path is unlocked with its token
    simp only [step, hr]
    refine h.update (fun T' hT => Cache.rows_invalidate_ne _ hT) ?_ ?_
    · exact fun q e₂ u₂ hr₂ _ _ => (Cache.rows_invalidate_some hr₂).2
    · intro q e₂ u₂ hr₂ hu₂ hT
      obtain ⟨hq, hr₂⟩ := Cache.rows_invalidate_some hr₂
      exact absurd (h.path_eq hr₂ hu₂ hT hpath) hq
  · simp only [step, hr]
    refine h.update (fun T' hT => Cache.rows_invalidate_ne _ hT) (fun _ _ _ hr₂ _ _ => hr₂) ?_
    intro q e₂ u₂ hr₂ hu₂ hT
    obtain rfl := h.path_eq hr₂ hu₂ hT hpath
    exact absurd hT (hno e₂ (Cache.get_of_rows hr₂ hu₂))

theorem Held.release (h : Held s) (token : Token) : Held (step s (.release token)) := by
  have hroot := h.rooted.release token
  obtain hr | ⟨path, hpath, ⟨e, he, ht, hr⟩ | ⟨hno, hr⟩⟩ := release_cases s.store s.now token
  · simp only [step, hr]
    exact h
  · simp only [step, hr] at hroot ⊢
    refine h.update hroot ?_ (fun e u hu => by cases hu)
    exact fun T' e₂ hne hl => Cache.rows_invalidate_ne _ (h.path_ne hl he (by rwa [ht]))
  · simp only [step, hr] at hroot ⊢
    exact h.update hroot (fun _ _ _ _ => rfl) (fun e u hu => by cases hu)

theorem Rooted.token_ne (h : Rooted s) (hnew : s.grants T = none)
    {u : ℕ} (hr : s.store.byPath.rows p = some (e, u)) (hu : s.now < u) : e.info.token ≠ T := by
  intro hT
  obtain ⟨-, g, hg, -⟩ := h _ _ _ hr hu
  rw [hT, hnew] at hg
  cases hg

variable {info : LockInfo} {caller : Option UserId}

theorem Rooted.acquire (h : Rooted s) {path : Path} (hnew : s.grants info.token = none) :
    Rooted (step s (.acquire path info caller)) := by
  obtain ⟨e, he, hx, hr⟩ | ⟨e, he, hx, hr⟩ | ⟨he, hr⟩ := acquire_cases s.store s.now path info caller
  · simp only [step, hr]
    exact h
  · simp only [step, hr]
    refine h.update (fun T' hT => Cache.rows_insert_ne _ _ _ hT) (fun _ _ _ hr₂ _ _ => hr₂) ?_
    exact fun q e₂ u₂ hr₂ hu₂ hT => absurd hT (h.token_ne hnew hr₂ hu₂)
  · simp only [step, hr]
    exact h.insert (.refl ⟨info, path, caller⟩) rfl fun q e₂ u₂ hr₂ hu₂ hT =>
      absurd hT (h.token_ne hnew hr₂ hu₂)

theorem Held.acquire (h : Held s) {path : Path} (hnew : s.grants info.token = none)
    (ha : Apart s (.acquire path info caller)) : Held (step s (.acquire path info caller)) := by
  have hroot : Rooted (step s (.acquire path info caller)) := h.rooted.acquire hnew
  obtain ⟨e, he, hx, hr⟩ | ⟨e, he, hx, hr⟩ | ⟨he, hr⟩ := acquire_cases s.store s.now path info caller
  · simp only [step, hr]
    exact h
  · simp only [step, hr] at hroot ⊢
    have hzero : parseTimeout info.timeout = 0 := by
      simp only [Apart, he] at ha
      exact ha.resolve_right hx
    refine h.update hroot (fun _ _ _ _ => rfl) ?_
    intro a u hu hlt
    obtain ⟨-, rfl⟩ := Prod.mk.inj (Option.some.inj hu)
    simp [expiryOf, hzero] at hlt
  · simp only [step, hr] at hroot ⊢
    refine h.update hroot ?_ ?_
    · intro T' e₂ hne hl
      refine Cache.rows_insert_ne _ _ _ fun hp => ?_
      obtain ⟨b, -, hb, -⟩ := h.found hl
      rw [hp] at hb
      rw [WebDavLockStore.getByPath, hb] at he
      cases he
    · intro a u hu hlt
      obtain ⟨rfl, rfl⟩ := Prod.mk.inj (Option.some.inj hu)
      refine ⟨⟨_, Cache.rows_insert_self .., rfl⟩, ?_⟩
      intro T' e₂ hne hl ho
      have hpos : parseTimeout info.timeout ≠ 0 := by
        intro hz
        simp [expiryOf, hz] at hlt
      simp only [Apart, he] at ha
      obtain ⟨b, -, hb, -, hsame⟩ := h.found hl
      obtain ⟨h1, h2⟩ := ha.resolve_left hpos e₂.path b hb (hsame.overlap.mpr ho)
      exact ⟨hsame.scope.symm.trans h1, h2⟩

/-- Without the condition the law is broken at once. -/
theorem Held.apart_of_law (h : Held s) {path : Path} (hnew : s.grants info.token = none)
    (hl : Law (step s (.acquire path info caller))) : Apart s (.acquire path info caller) := by
  by_cases hz : parseTimeout info.timeout = 0
  · exact .inl hz
  have hlt : s.now < expiryOf s.now info := by
    have : 0 < second := by decide
    exact Nat.lt_add_of_pos_right (Nat.mul_pos (Nat.pos_of_ne_zero hz) this)
  have hother : ∀ q e, s.store.getByPath s.now q = some e → e.info.token ≠ info.token := by
    intro q e he hT
    obtain ⟨b, ⟨u, hb, -⟩, -⟩ := h.rooted.live he
    rw [hT, hnew] at hb
    cases hb
  right
  obtain ⟨e, he, hx, hr⟩ | ⟨e, he, hx, hr⟩ | ⟨he, hr⟩ := acquire_cases s.store s.now path info caller
  · rw [he]
    exact hx
  · -- the second holder of a shared lock cannot refresh it
    simp only [step, hr] at hl
    have href := hl.refreshable info.token _ (live_update_self.mpr ⟨_, rfl, hlt⟩) none
    have hin : (s.store.indexToken s.now info.token path).byToken.get s.now info.token = some path :=
      Cache.get_of_rows (Cache.rows_insert_self ..) (by have := expiryOf_le s.now info; omega)
    have hat : (s.store.indexToken s.now info.token path).byPath.get s.now path = some e := he
    simp [WebDavLockStore.refresh, hin, hat, hother path e he] at href
  · simp only [step, hr] at hl
    rw [he]
    intro q e hq ho
    obtain ⟨b, hb, hbq, hsame⟩ := h.rooted.live hq
    have hne := hother q e hq
    have hex : ¬ (b.info.scope = .exclusive ∨ info.scope = .exclusive) := by
      intro hx
      obtain ⟨x, hx1, hx2⟩ := overlap_iff.mp (hsame.overlap.mp ho)
      exact hl.exclusive e.info.token info.token b _ ((live_update hne).mpr hb)
        (live_update_self.mpr ⟨_, rfl, hlt⟩) hne hx x ⟨hx1, hx2⟩
    rw [hsame.scope]
    rcases hb' : b.info.scope with _ | _
    · exact absurd (.inl hb') hex
    · rcases hi : info.scope with _ | _
      · exact absurd (.inr hi) hex
      · exact ⟨rfl, rfl⟩

/-! ### Runs -/

theorem step_grants (ev : Event) (h : (step s ev).grants T ≠ none) :
    s.grants T ≠ none ∨ ev.newToken = some T := by
  rcases ev with ⟨path, info, caller⟩ | ⟨token, newTimeout⟩ | token | d
  · by_cases hT : T = info.token
    · exact .inr (by rw [Event.newToken, hT])
    · left
      obtain ⟨e, -, -, hr⟩ | ⟨e, -, -, hr⟩ | ⟨-, hr⟩ := acquire_cases s.store s.now path info caller
      · simpa only [step, hr] using h
      · simpa only [step, hr, update_of_ne hT] using h
      · simpa only [step, hr, update_of_ne hT] using h
  · left
    obtain hr | ⟨path, e, e', -, -, -, -, hr⟩ := refresh_cases s.store s.now token newTimeout
    · simpa only [step, hr] using h
    · by_cases hT : T = token
      · intro hn
        simp only [step, hr, hT ▸ hn, hT, Option.map_none, update_self] at h
        exact h rfl
      · simpa only [step, hr, update_of_ne hT] using h
  · left
    rcases hr : s.store.release s.now token with ⟨_ | _, st⟩
    · simpa only [step, hr] using h
    · by_cases hT : T = token
      · simp only [step, hr, hT, update_self] at h
        exact absurd rfl h
      · simpa only [step, hr, update_of_ne hT] using h
  · exact .inl h

/-- What an event brings in was in an event of the run. -/
theorem mem_of_run {α : Type} {f : Event → Option α} {x : α} {P : State → Prop} (hfresh : ¬ P .fresh)
    (hstep : ∀ s ev, P (step s ev) → P s ∨ f ev = some x) (l : List Event) (h : P (run l)) :
    x ∈ l.filterMap f := by
  induction l using List.reverseRecOn with
  | nil => exact absurd h hfresh
  | append_singleton l ev ih =>
    rw [filterMap_append, mem_append]
    rw [run_concat] at h
    rcases hstep _ ev h with h | h
    · exact .inl (ih h)
    · exact .inr (mem_filterMap.mpr ⟨ev, by simp, h⟩)

theorem run_grants (l : List Event) (h : (run l).grants T ≠ none) : T ∈ l.filterMap Event.newToken :=
  mem_of_run (P := fun s => s.grants T ≠ none) (fun h => h rfl) (fun _ => step_grants) l h

/-- Every token is drawn once. -/
def Fresh (l : List Event) : Prop := (l.filterMap Event.newToken).Nodup

instance (l : List Event) : Decidable (Fresh l) := by
  unfold Fresh
  infer_instance

/-- Every event of the run meets the condition in the state it meets. -/
def Spaced (l : List Event) : Prop := ∀ l₁ ev, l₁ ++ [ev] <+: l → Apart (run l₁) ev

theorem Fresh.of_concat (h : Fresh (l ++ [ev])) : Fresh l := by
  rw [Fresh, filterMap_append] at h
  exact h.of_append_left

theorem Fresh.new (h : Fresh (l ++ [ev]))
    (hT : ev.newToken = some T) : (run l).grants T = none := by
  by_contra hne
  rw [Fresh, filterMap_append] at h
  exact (disjoint_of_nodup_append h) (run_grants l hne) (mem_filterMap.mpr ⟨ev, by simp, hT⟩)

theorem Rooted.step (h : Rooted s) (hnew : ∀ T, ev.newToken = some T → s.grants T = none) :
    Rooted (step s ev) := by
  rcases ev with ⟨path, info, caller⟩ | ⟨token, newTimeout⟩ | token | d
  · exact h.acquire (hnew _ rfl)
  · exact h.refresh token newTimeout
  · exact h.release token
  · exact h.tick d

theorem rooted_run (hf : Fresh l) : Rooted (run l) := by
  induction l using List.reverseRecOn with
  | nil => exact rooted_fresh
  | append_singleton l ev ih =>
    have hl : Rooted (run l) := ih hf.of_concat
    rw [run_concat]
    exact hl.step fun T hT => hf.new hT

theorem Held.step (h : Held s) (hnew : ∀ T, ev.newToken = some T → s.grants T = none)
    (ha : Apart s ev) : Held (step s ev) := by
  rcases ev with ⟨path, info, caller⟩ | ⟨token, newTimeout⟩ | token | d
  · exact h.acquire (hnew _ rfl) ha
  · exact h.refresh token newTimeout
  · exact h.release token
  · exact h.tick d

theorem Held.apart (h : Held s) (hnew : ∀ T, ev.newToken = some T → s.grants T = none)
    (hl : Law (Locks.step s ev)) : Apart s ev := by
  rcases ev with ⟨path, info, caller⟩ | ⟨token, newTimeout⟩ | token | d
  · exact h.apart_of_law (hnew _ rfl) hl
  all_goals trivial

theorem held_of_spaced (hf : Fresh l) (h : Spaced l) : Held (run l) := by
  induction l using List.reverseRecOn with
  | nil => exact held_fresh
  | append_singleton l ev ih =>
    have hl : Held (run l) :=
      ih hf.of_concat fun l₁ ev' hp => h l₁ ev' (List.IsPrefix.trans hp (prefix_append _ _))
    rw [run_concat]
    exact hl.step (fun T hT => hf.new hT) (h l ev (prefix_refl _))

theorem spaced_of_law (hf : Fresh l) (h : ∀ l₁, l₁ <+: l → Law (run l₁)) : Spaced l := by
  induction l using List.reverseRecOn with
  | nil =>
    intro l₁ ev hp
    simp at hp
  | append_singleton l ev ih =>
    have hl : Spaced l :=
      ih hf.of_concat fun l₁ hp => h l₁ (List.IsPrefix.trans hp (prefix_append _ _))
    intro l₁ ev' hp
    rcases prefix_concat_iff.mp hp with he | hp
    · obtain ⟨rfl, hev⟩ := append_inj' he rfl
      obtain rfl : ev' = ev := singleton_inj.mp hev
      have hlaw := h (l₁ ++ [ev']) (prefix_refl _)
      rw [run_concat] at hlaw
      exact (held_of_spaced hf.of_concat hl).apart (fun T hT => hf.new hT) hlaw
    · exact hl l₁ ev' hp

/-- **The law holds all along a run exactly if every grant keeps apart from the locks there are.** -/
theorem law_iff_apart (l : List Event) (hf : Fresh l) :
    (∀ l₁, l₁ <+: l → Law (run l₁)) ↔ ∀ l₁ ev, l₁ ++ [ev] <+: l → Apart (run l₁) ev := by
  constructor
  · exact spaced_of_law hf
  · intro h l₁ hp
    have hf₁ : Fresh l₁ := hf.sublist (hp.sublist.filterMap _)
    exact (held_of_spaced hf₁ fun l₂ ev h₂ => h l₂ ev (List.IsPrefix.trans h₂ hp)).law

/-! ### Examples of runs -/

/-- The paths an event list can lock. -/
def Event.path? : Event → Option Path
  | .acquire path _ _ => some path
  | _ => none

theorem step_rows (ev : Event) (h : (step s ev).store.byPath.rows q ≠ none) :
    s.store.byPath.rows q ≠ none ∨ ev.path? = some q := by
  rcases ev with ⟨path, info, caller⟩ | ⟨token, newTimeout⟩ | token | d
  · by_cases hq : q = path
    · exact .inr (by rw [Event.path?, hq])
    · left
      obtain ⟨e, -, -, hr⟩ | ⟨e, -, -, hr⟩ | ⟨-, hr⟩ := acquire_cases s.store s.now path info caller
      · simpa only [step, hr] using h
      · simpa only [step, hr, WebDavLockStore.indexToken] using h
      · simpa only [step, hr, Cache.rows_insert_ne _ _ _ hq] using h
  · left
    obtain hr | ⟨path, e, e', -, he, -, -, hr⟩ := refresh_cases s.store s.now token newTimeout
    · simpa only [step, hr] using h
    · by_cases hq : q = path
      · obtain ⟨u, hu, -⟩ := Cache.get_eq_some.mp he
        rw [hq, hu]
        simp
      · simpa only [step, hr, Cache.rows_insert_ne _ _ _ hq] using h
  · left
    obtain hr | ⟨path, -, ⟨e, -, -, hr⟩ | ⟨-, hr⟩⟩ := release_cases s.store s.now token
    · simpa only [step, hr] using h
    · by_cases hq : q = path
      · simp only [step, hr, hq, Cache.rows_invalidate_self] at h
        exact absurd rfl h
      · simpa only [step, hr, Cache.rows_invalidate_ne _ hq] using h
    · simpa only [step, hr] using h
  · exact .inl h

theorem run_rows (l : List Event) (h : (run l).store.byPath.rows q ≠ none) :
    q ∈ l.filterMap Event.path? :=
  mem_of_run (P := fun s => s.store.byPath.rows q ≠ none) (fun h => h rfl) (fun _ => step_rows) l h

instance (e e' : LockEntry) : Decidable (Compatible e e') := by
  unfold Compatible
  infer_instance

/-- `Apart`, looking at the given paths. -/
def apartAt (paths : List Path) (s : State) : Event → Bool
  | .acquire path info caller => parseTimeout info.timeout = 0 ||
    match s.store.getByPath s.now path with
    | some e => e.info.scope = .exclusive || info.scope = .exclusive
    | none => paths.all fun q => (s.store.getByPath s.now q).all fun e => Compatible e ⟨info, path, caller⟩
  | _ => true

theorem apart_of_apartAt
    (h : apartAt (l.filterMap Event.path?) (run l) ev = true) : Apart (run l) ev := by
  rcases ev with ⟨path, info, caller⟩ | _ | _ | _
  · simp only [apartAt, Bool.or_eq_true, decide_eq_true_eq] at h
    refine h.imp_right fun h => ?_
    rcases he : (run l).store.getByPath (run l).now path with _ | e
    · intro q e hq
      have hmem : q ∈ l.filterMap Event.path? := by
        obtain ⟨u, hu, -⟩ := Cache.get_eq_some.mp hq
        exact run_rows l (by simp [hu])
      simp only [he] at h
      have := all_eq_true.mp h q hmem
      rw [hq] at this
      exact of_decide_eq_true this
    · simpa [he] using h
  all_goals trivial

/-- Check the events in order, after those of `l`. -/
def spacedAfter : List Event → List Event → Bool
  | _, [] => true
  | l, ev :: l' => apartAt (l.filterMap Event.path?) (run l) ev && spacedAfter (l ++ [ev]) l'

theorem spaced_of_spacedAfter {l' : List Event} (h : spacedAfter l l' = true) :
    ∀ l₁ ev, l₁ ++ [ev] <+: l' → Apart (run (l ++ l₁)) ev := by
  induction l' generalizing l with
  | nil =>
    intro l₁ ev hp
    simp at hp
  | cons a l' ih =>
    intro l₁ ev hp
    rw [spacedAfter, Bool.and_eq_true] at h
    rcases l₁ with _ | ⟨b, l₁⟩
    · obtain ⟨rfl, -⟩ := cons_prefix_cons.mp hp
      rw [append_nil]
      exact apart_of_apartAt h.1
    · obtain ⟨rfl, hp'⟩ := cons_prefix_cons.mp hp
      have := ih h.2 l₁ ev hp'
      rwa [append_assoc] at this

/-- A lock with the default timeout. -/
def lockInfo (token : Token) (depth : Depth) (scope : LockScope) : LockInfo :=
  ⟨token, none, depth, none, scope⟩

/-- A shared lock on a collection and one on a member, an exclusive lock that is refused, a refresh, and
the exclusive lock again when the others are released or timed out. -/
def afternoon : List Event :=
  [.acquire ['a'] (lockInfo ['1'] .infinity .shared) (some 1),
    .acquire ['a', '/', 'b'] (lockInfo ['2'] .zero .shared) (some 2),
    .acquire ['a'] (lockInfo ['3'] .zero .exclusive) (some 2),
    .refresh ['1'] (some (secondHeader 60)),
    .release ['2'],
    .tick (61 * second),
    .acquire ['a'] (lockInfo ['4'] .infinity .exclusive) (some 2)]

theorem law_iff_apart_afternoon : Fresh afternoon ∧ ∀ l₁, l₁ <+: afternoon → Law (run l₁) := by
  have hf : Fresh afternoon := by decide
  refine ⟨hf, (law_iff_apart afternoon hf).mpr ?_⟩
  exact spaced_of_spacedAfter (l := []) (by decide +kernel)

/-- Two users hold exclusive locks on a collection and on a member of it; and the second holder of a
shared lock cannot refresh it, is taken for the first, and is left without a lock when the first one
releases. -/
theorem locks_conflict :
    (∃ l, Fresh l ∧ ∃ T T' e e' q, T ≠ T' ∧ Live (run l) T e ∧ Live (run l) T' e' ∧
      e.info.scope = .exclusive ∧ e'.info.scope = .exclusive ∧ Covers e q ∧ Covers e' q) ∧
    ∃ l, Fresh l ∧ ∃ T e, Live (run l) T e ∧ ((run l).store.refresh (run l).now T none).1 = none ∧
      ((run l).store.getByToken (run l).now T).map LockEntry.callerUserId ≠ some e.callerUserId ∧
      ∃ T', Live (step (run l) (.release T')) T e ∧
        (step (run l) (.release T')).store.getByPath (run l).now e.path = none := by
  refine ⟨⟨[.acquire ['a'] (lockInfo ['1'] .infinity .exclusive) (some 1),
      .acquire ['a', '/', 'b'] (lockInfo ['2'] .zero .exclusive) (some 2)], by decide, ['1'], ['2'],
      ⟨lockInfo ['1'] .infinity .exclusive, ['a'], some 1⟩,
      ⟨lockInfo ['2'] .zero .exclusive, ['a', '/', 'b'], some 2⟩, ['a', '/', 'b'], by decide,
      ⟨1800 * second, by decide +kernel, by decide +kernel⟩,
      ⟨1800 * second, by decide +kernel, by decide +kernel⟩, rfl, rfl, by decide, by decide⟩,
    [.acquire ['a'] (lockInfo ['1'] .zero .shared) (some 1),
      .acquire ['a'] (lockInfo ['2'] .zero .shared) (some 2)], by decide, ['2'],
      ⟨lockInfo ['2'] .zero .shared, ['a'], some 2⟩,
      ⟨1800 * second, by decide +kernel, by decide +kernel⟩, by decide +kernel, by decide +kernel, ['1'],
      ⟨1800 * second, by decide +kernel, by decide +kernel⟩, by decide +kernel⟩

end OxiCloud.WebDav.Locks
