import OxiCloud.WebDav.Scopes

/-! # Concurrent `PUT` and `PATCH`

Requests on one file, each taken apart into its steps: read the metadata, evaluate the preconditions, open
the bytes before and after the edited range, ingest, write, and drop the cached hash of the file. Other
requests may run between any two of them. `PATCH` writes only if the hash is still the one it has seen;
`PUT` writes in any case. The ranges are opened through a cache from files to hashes, which is filled and
dropped in steps of its own. A hash stands for the content it is the hash of.

As long as nothing is written between the metadata and the write of a `PATCH` or of a request with
`If-Match`, and no `PATCH` begins between a write and the end of its invalidation, every request that
succeeds does what it says to the version it replaces (`writes_are_faithful`). -/

namespace OxiCloud.WebDav.Patches

open Lib.Texts WebDav.Scopes Function

abbrev Content := List UInt8

/-- The content of the file and its `content_modified_at`, in seconds. -/
structure Version where
  content : Content
  modifiedAt : ℕ
  deriving DecidableEq

/-- The hash of blobs. -/
structure Config where
  hash : Content → Text

/-- `compute_etag`. -/
def computeEtag (cfg : Config) (v : Version) : Text :=
  (cfg.hash v.content).take 16 ++ '-' :: Nat.toDigits 10 v.modifiedAt

/-! ### Headers -/

/-- `parse_etag_value`. -/
def parseEtagValue (raw : Text) : Bool × Text :=
  let trimmed := trim raw
  match cutStart ['W', '/'] trimmed with
  | some rest => (true, trimBoth (· = '"') (trim rest))
  | none => (false, trimBoth (· = '"') trimmed)

/-- `if_none_match_precondition_fails`. -/
def ifNoneMatchPreconditionFails (header : Text) (currentEtag : Option Text) : Bool :=
  let v := trim header
  if v = ['*'] then currentEtag.isSome
  else currentEtag.any fun current => (v.splitOn ',').any fun tag =>
    let parsed := (parseEtagValue tag).2
    parsed ≠ [] && parsed = current

/-- `if_match_precondition_fails`. -/
def ifMatchPreconditionFails (header : Text) (currentEtag : Option Text) : Bool :=
  let v := trim header
  match currentEtag with
  | none => true
  | some current =>
    if v = ['*'] then false
    else !(v.splitOn ',').any fun tag =>
      let (isWeak, parsed) := parseEtagValue tag
      !isWeak && parsed ≠ [] && parsed = current

/-- `parse_update_range`: the first byte of the edit and the last one, which an `append` does not have. -/
def parseUpdateRange (header : Text) (size : ℕ) : Except StatusCode (ℕ × Option ℕ) :=
  let header := trim header
  if eqIgnoreCase header ['a', 'p', 'p', 'e', 'n', 'd'] then .ok (size, none)
  else match cutStart ['b', 'y', 't', 'e', 's', '='] header with
    | none => .error 400
    | some spec => match splitOnce '-' spec with
      | none => .error 400
      | some (startStr, endStr) => match parseU64 startStr, parseU64 endStr with
        | some start, some stop =>
          if stop < start then .error 400
          else if size ≤ stop then .error 416
          else .ok (start, some stop)
        | _, _ => .error 400

/-- A `PUT`, or a `PATCH` with its `X-Update-Range`. -/
structure Request where
  updateRange : Option Text := none
  contentLength : Option ℕ := none
  ifMatch : Option Text := none
  ifNoneMatch : Option Text := none
  body : Content
  deriving DecidableEq

namespace Request

def isPatch (q : Request) : Bool := q.updateRange.isSome

/-- A request whose success says something about the version it replaces. -/
def conditional (q : Request) : Bool := q.isPatch || q.ifMatch.isSome

/-- The first precondition that fails. -/
def refused (cfg : Config) (q : Request) (v : Version) : Bool :=
  let etag := some (computeEtag cfg v)
  (q.ifNoneMatch.any fun h => ifNoneMatchPreconditionFails h etag) ||
    q.ifMatch.any fun h => ifMatchPreconditionFails h etag

/-- The range of a `PATCH`, with the check of the `Content-Length`. -/
def span (q : Request) (range : Text) (size : ℕ) : Except StatusCode (ℕ × Option ℕ) :=
  match parseUpdateRange range size with
  | .error e => .error e
  | .ok (start, none) => .ok (start, none)
  | .ok (start, some stop) =>
    if q.contentLength.any fun len => len ≠ stop - start + 1 then .error 400 else .ok (start, some stop)

end Request

/-! ### Steps -/

/-- `resolve_blob_hash`: look into the cache, read the row, fill the cache. -/
inductive Fetch where
  | lookup
  | select
  | insert (c : Content)
  deriving DecidableEq

/-- How far a request is. `seen` is the version whose metadata was read; `front` is there once the bytes
before the range are. -/
inductive Phase where
  | arrived
  | checking (seen : Version)
  | opening (seen : Version) (start : ℕ) (stop : Option ℕ) (front : Option Content) (fetch : Fetch)
  | ingesting (seen : Version) (start : ℕ) (stop : Option ℕ) (front back : Content)
  | writing (seen : Version) (new : Content)
  | invalidating (replaced : Version) (new : Content)
  | done (replaced : Version) (new : Content)
  | failed (code : StatusCode)
  deriving DecidableEq

/-- The row of the file, the hash that is cached for it, and the clock. -/
structure Shared where
  row : Version
  cache : Option Content
  now : ℕ
  deriving DecidableEq

/-- The second range of `splice_patch_streams`. -/
def openBack (seen : Version) (start : ℕ) (stop : Option ℕ) (front : Content) : Phase :=
  match stop with
  | none => .ingesting seen start stop front []
  | some e =>
    if e + 1 < seen.content.length then .opening seen start stop (some front) .lookup
    else .ingesting seen start stop front []

/-- The first range of `splice_patch_streams`. -/
def openFront (seen : Version) (start : ℕ) (stop : Option ℕ) : Phase :=
  if start = 0 then openBack seen start stop [] else .opening seen start stop none .lookup

/-- The blob whose range was to be opened is known. -/
def opened (seen : Version) (start : ℕ) (stop : Option ℕ) (front : Option Content) (c : Content) : Phase :=
  match front with
  | none => openBack seen start stop (c.take start)
  | some f => .ingesting seen start stop f (stop.elim [] fun e => c.drop (e + 1))

/-- The next step of a request. -/
def advance (cfg : Config) (q : Request) (s : Shared) : Phase → Phase × Shared
  | .arrived => (.checking s.row, s)
  | .checking seen =>
    if q.refused cfg seen then (.failed 412, s)
    else match q.updateRange with
      | none => (.ingesting seen 0 none [] [], s)
      | some range => match q.span range seen.content.length with
        | .error e => (.failed e, s)
        | .ok (start, stop) => (openFront seen start stop, s)
  | .opening seen start stop front .lookup => match s.cache with
    | some c => (opened seen start stop front c, s)
    | none => (.opening seen start stop front .select, s)
  | .opening seen start stop front .select => (.opening seen start stop front (.insert s.row.content), s)
  | .opening seen start stop front (.insert c) => (opened seen start stop front c, { s with cache := some c })
  | .ingesting seen start stop front back =>
    if stop.any fun e => q.body.length ≠ e - start + 1 then (.failed 400, s)
    else (.writing seen (front ++ q.body ++ back), s)
  | .writing seen new =>
    if q.isPatch && cfg.hash s.row.content ≠ cfg.hash seen.content then (.failed 412, s)
    else (.invalidating s.row new, { s with row := ⟨new, s.now⟩ })
  | .invalidating replaced new => (.done replaced new, { s with cache := none })
  | .done replaced new => (.done replaced new, s)
  | .failed code => (.failed code, s)

/-- A request may be refused, by the locks, for its permissions or its quota, or break off, up to its
write. -/
def refuse (code : StatusCode) : Phase → Phase
  | .invalidating replaced new => .invalidating replaced new
  | .done replaced new => .done replaced new
  | _ => .failed code

structure State extends Shared where
  sessions : ℕ → Option (Request × Phase)

inductive Event where
  | arrive (i : ℕ) (q : Request)
  | act (i : ℕ)
  | refuse (i : ℕ) (code : StatusCode)
  | evict
  | tick (seconds : ℕ)

def step (cfg : Config) (s : State) : Event → State
  | .arrive i q =>
    if (s.sessions i).isSome then s
    else { s with sessions := Function.update s.sessions i (some (q, .arrived)) }
  | .act i => match s.sessions i with
    | none => s
    | some (q, ph) =>
      let x := advance cfg q s.toShared ph
      ⟨x.2, Function.update s.sessions i (some (q, x.1))⟩
  | .refuse i code => match s.sessions i with
    | none => s
    | some (q, ph) => { s with sessions := Function.update s.sessions i (some (q, refuse code ph)) }
  | .evict => { s with cache := none }
  | .tick seconds => { s with now := s.now + seconds }

def run (cfg : Config) (s : State) (l : List Event) : State := l.foldl (step cfg) s

/-- No requests yet, and the cache, if it knows the file, knows the right hash. -/
structure Initial (s : State) : Prop where
  sessions : ∀ i, s.sessions i = none
  cache : ∀ c, s.cache = some c → c = s.row.content

/-! ### What a write has to be -/

/-- The content with the range replaced by the body, or with the body at its end. -/
def splice (c : Content) (start : ℕ) (stop : Option ℕ) (body : Content) : Content :=
  match stop with
  | none => c ++ body
  | some e => c.take start ++ body ++ c.drop (e + 1)

/-- The new content is the edit of this version that the request asks for. -/
def Spliced (q : Request) (v : Version) (new : Content) : Prop :=
  ∀ range, q.updateRange = some range → ∃ start stop,
    parseUpdateRange range v.content.length = .ok (start, stop) ∧ new = splice v.content start stop q.body

/-- The version meets the `If-Match` of the request. -/
def Matches (cfg : Config) (q : Request) (v : Version) : Prop :=
  ∀ h, q.ifMatch = some h → ifMatchPreconditionFails h (some (computeEtag cfg v)) = false

/-- A write that does to the version it replaces what the request asks for. -/
structure Faithful (cfg : Config) (q : Request) (replaced : Version) (new : Content) : Prop where
  spliced : Spliced q replaced new
  matched : Matches cfg q replaced

/-- What a request has written, and over what. -/
def Phase.wrote : Phase → Option (Version × Content)
  | .invalidating replaced new => some (replaced, new)
  | .done replaced new => some (replaced, new)
  | _ => none

/-- Every write so far is faithful. -/
def Law (cfg : Config) (s : State) : Prop :=
  ∀ i q ph replaced new, s.sessions i = some (q, ph) → ph.wrote = some (replaced, new) →
    Faithful cfg q replaced new

/-! ### Calm runs -/

/-- The metadata is read and the write is still to come. -/
def Phase.inFlight : Phase → Bool
  | .checking _ | .opening _ _ _ _ _ | .ingesting _ _ _ _ _ | .writing _ _ => true
  | _ => false

/-- The write is done and the cache not yet invalidated. -/
def Phase.pending : Phase → Bool
  | .invalidating _ _ => true
  | _ => false

/-- No other conditional request is in flight when a request is about to write, and no write is pending
when a `PATCH` is about to read the metadata. -/
def Calm (s : State) : Event → Prop
  | .act i =>
    (∀ q seen new, s.sessions i = some (q, .writing seen new) → ∀ j q' ph, j ≠ i →
      s.sessions j = some (q', ph) → q'.conditional = true → ph.inFlight = false) ∧
    (∀ q, s.sessions i = some (q, .arrived) → q.isPatch = true → ∀ j q' ph,
      s.sessions j = some (q', ph) → ph.pending = false)
  | _ => True

/-- Every event of a run finds the requests calm. -/
def CalmRun (cfg : Config) (s : State) : List Event → Prop
  | [] => True
  | e :: l => Calm s e ∧ CalmRun cfg (step cfg s e) l

/-- What a request relies on: it has seen the version that is still there, and what it has read of it is
right. -/
def Good (cfg : Config) (row : Version) (q : Request) : Phase → Prop
  | .arrived => True
  | .checking seen => q.conditional = true → seen = row
  | .opening seen start stop front fetch => q.isPatch = true ∧ seen = row ∧ Matches cfg q row ∧
    (∀ range, q.updateRange = some range → parseUpdateRange range row.content.length = .ok (start, stop)) ∧
    (∀ f, front = some f → f = row.content.take start ∧ stop.isSome) ∧
    ∀ c, fetch = .insert c → c = row.content
  | .ingesting seen _ _ front back => q.conditional = true → seen = row ∧ Matches cfg q row ∧
    Spliced q row (front ++ q.body ++ back)
  | .writing seen new => q.conditional = true → seen = row ∧ Matches cfg q row ∧ Spliced q row new
  | .invalidating replaced new => Faithful cfg q replaced new
  | .done replaced new => Faithful cfg q replaced new
  | .failed _ => True

structure Inv (cfg : Config) (s : State) : Prop where
  good : ∀ i q ph, s.sessions i = some (q, ph) → Good cfg s.row q ph
  apart : ∀ i j q q' ph ph', s.sessions i = some (q, ph) → s.sessions j = some (q', ph') →
    q.isPatch = true → ph.inFlight = true → ph'.pending = false
  cache : ∀ c, s.cache = some c →
    c = s.row.content ∨ ∃ i q ph, s.sessions i = some (q, ph) ∧ ph.pending = true

variable {cfg : Config} {s : State} {q : Request} {row row' seen replaced : Version} {ph : Phase}
  {start : ℕ} {stop : Option ℕ} {front : Option Content} {c new : Content} {e : Event} {i : ℕ}

theorem conditional_of_patch (h : q.isPatch = true) : q.conditional = true := by
  rw [Request.conditional, h, Bool.true_or]

variable {range : Text}

theorem span_ok {n : ℕ} (h : q.span range n = .ok (start, stop)) :
    parseUpdateRange range n = .ok (start, stop) := by
  unfold Request.span at h
  split at h
  · cases h
  · next heq => rwa [heq]
  · next heq =>
    split_ifs at h
    rwa [heq]

theorem parse_append {n : ℕ} (h : parseUpdateRange range n = .ok (start, none)) : start = n := by
  unfold parseUpdateRange at h
  dsimp only at h
  split_ifs at h
  · exact (Prod.mk.inj (Except.ok.inj h)).1.symm
  · split at h
    · cases h
    · split at h
      · cases h
      · split at h
        · split_ifs at h
          cases (Prod.mk.inj (Except.ok.inj h)).2
        · cases h

theorem matches_of_not_refused (h : q.refused cfg seen = false) : Matches cfg q seen := by
  intro hd hq
  rw [Request.refused, Bool.or_eq_false_iff, hq] at h
  exact h.2

/-! ### One step of a request -/

/-- The parts that were read make up the edit. -/
theorem splice_parts (hp : parseUpdateRange range c.length = .ok (start, stop)) (body : Content) :
    c.take start ++ body ++ stop.elim [] (fun e => c.drop (e + 1)) = splice c start stop body := by
  rcases stop with _ | e
  · rw [parse_append hp, List.take_length, Option.elim_none, List.append_nil]
    rfl
  · rfl

theorem openBack_good (hq : q.isPatch = true) (hm : Matches cfg q row)
    (hp : ∀ range, q.updateRange = some range →
      parseUpdateRange range row.content.length = .ok (start, stop)) :
    Good cfg row q (openBack row start stop (row.content.take start)) := by
  obtain ⟨range, hr⟩ := Option.isSome_iff_exists.mp hq
  have hparts := splice_parts (hp range hr) q.body
  have hdone : stop.elim [] (fun e => row.content.drop (e + 1)) = [] →
      Spliced q row (row.content.take start ++ q.body ++ []) := by
    intro hnil range' hr'
    refine ⟨start, stop, hp range' hr', ?_⟩
    rw [← hparts, hnil]
  rcases stop with _ | e
  · exact fun _ => ⟨rfl, hm, hdone rfl⟩
  · unfold openBack
    dsimp only
    split_ifs with he
    · refine ⟨hq, rfl, hm, hp, fun f hf => ⟨(Option.some.inj hf).symm, rfl⟩, ?_⟩
      intro c hc
      cases hc
    · have hnil : row.content.drop (e + 1) = [] := List.drop_eq_nil_of_le (by omega)
      exact fun _ => ⟨rfl, hm, hdone hnil⟩

theorem openFront_good (hq : q.isPatch = true) (hm : Matches cfg q row)
    (hp : ∀ range, q.updateRange = some range →
      parseUpdateRange range row.content.length = .ok (start, stop)) :
    Good cfg row q (openFront row start stop) := by
  unfold openFront
  split_ifs with h0
  · have h := openBack_good hq hm hp
    rwa [h0, List.take_zero, ← h0] at h
  · refine ⟨hq, rfl, hm, hp, ?_, ?_⟩
    · intro f hf
      cases hf
    · intro c hc
      cases hc

theorem opened_good {fetch : Fetch} (h : Good cfg row q (.opening seen start stop front fetch)) :
    Good cfg row q (opened seen start stop front row.content) := by
  obtain ⟨hq, rfl, hm, hp, hfront, -⟩ := h
  rcases front with _ | f
  · exact openBack_good hq hm hp
  · obtain ⟨rfl, -⟩ := hfront f rfl
    refine fun _ => ⟨rfl, hm, fun range hr => ⟨start, stop, hp range hr, ?_⟩⟩
    exact splice_parts (hp range hr) q.body

variable {sh : Shared}

theorem advance_good (hg : Good cfg sh.row q ph)
    (hc : q.isPatch = true → ph.inFlight = true → ∀ c, sh.cache = some c → c = sh.row.content) :
    Good cfg (advance cfg q sh ph).2.row q (advance cfg q sh ph).1 := by
  rcases ph with _ | seen | ⟨seen, start, stop, front, fetch⟩ | ⟨seen, start, stop, front, back⟩ |
    ⟨seen, new⟩ | ⟨replaced, new⟩ | ⟨replaced, new⟩ | code
  · exact fun _ => rfl
  · rw [advance]
    split_ifs with hr
    · trivial
    · have hm := matches_of_not_refused ((Bool.not_eq_true _).mp hr)
      rcases hu : q.updateRange with _ | range
      · intro hcond
        obtain rfl := hg hcond
        refine ⟨rfl, hm, fun range hrange => ?_⟩
        rw [hu] at hrange
        cases hrange
      · have hp : q.isPatch = true := by rw [Request.isPatch, hu]; rfl
        obtain rfl := hg (conditional_of_patch hp)
        rcases hs : q.span range sh.row.content.length with e | ⟨start, stop⟩
        · simp only [hs]
          trivial
        · simp only [hs]
          refine openFront_good hp hm fun range' hr' => ?_
          obtain rfl : range = range' := Option.mem_unique hu hr'
          exact span_ok hs
  · rcases fetch with _ | _ | c
    · rcases hcache : sh.cache with _ | c
      · simp only [advance, hcache]
        obtain ⟨hq, hs, hm, hp, hf, -⟩ := hg
        refine ⟨hq, hs, hm, hp, hf, fun c h => ?_⟩
        cases h
      · simp only [advance, hcache]
        rw [hc hg.1 rfl c hcache]
        exact opened_good hg
    · obtain ⟨hq, hs, hm, hp, hf, -⟩ := hg
      exact ⟨hq, hs, hm, hp, hf, fun c h => (Fetch.insert.inj h).symm⟩
    · rw [hg.2.2.2.2.2 c rfl]
      exact opened_good hg
  · rw [advance]
    split_ifs
    · trivial
    · exact hg
  · rw [advance]
    split_ifs
    · trivial
    · by_cases hcond : q.conditional = true
      · obtain ⟨-, hm, hsp⟩ := hg hcond
        exact ⟨hsp, hm⟩
      · rw [Request.conditional, Request.isPatch, Bool.or_eq_true, not_or, Bool.not_eq_true,
          Bool.not_eq_true, Option.isSome_eq_false_iff, Option.isSome_eq_false_iff,
          Option.isNone_iff_eq_none, Option.isNone_iff_eq_none] at hcond
        refine ⟨fun range hr => ?_, fun h hh => ?_⟩
        · rw [hcond.1] at hr
          cases hr
        · rw [hcond.2] at hh
          cases hh
  · exact hg
  · exact hg
  · trivial

/-- A request that relies on nothing does not mind a write. -/
theorem Good.frame (hg : Good cfg row q ph) (h : q.conditional = true → ph.inFlight = false)
    (row' : Version) : Good cfg row' q ph := by
  cases ph with
  | checking | ingesting | writing => exact fun hc => absurd (h hc) (by simp [Phase.inFlight])
  | opening => exact absurd (h (conditional_of_patch hg.1)) (by simp [Phase.inFlight])
  | invalidating | done => exact hg
  | _ => trivial

/-! ### One step of the system -/

theorem openBack_pending (f : Content) : (openBack seen start stop f).pending = false := by
  unfold openBack
  split
  · rfl
  · split_ifs <;> rfl

theorem opened_pending : (opened seen start stop front c).pending = false := by
  rcases front with _ | f
  · exact openBack_pending _
  · rfl

theorem openFront_pending : (openFront seen start stop).pending = false := by
  unfold openFront
  split_ifs
  · exact openBack_pending _
  · rfl

/-- A step that does not write or invalidate: it leaves the row alone and may fill the cache with what was
read before. -/
structure Plain (cfg : Config) (q : Request) (sh : Shared) (ph : Phase) : Prop where
  row : (advance cfg q sh ph).2.row = sh.row
  before : ph.pending = false
  after : (advance cfg q sh ph).1.pending = false
  flight : (advance cfg q sh ph).1.inFlight = true → ph.inFlight = true ∨ ph = .arrived
  cache : (advance cfg q sh ph).2.cache = sh.cache ∨ ∃ seen start stop front c,
    ph = .opening seen start stop front (.insert c) ∧ (advance cfg q sh ph).2.cache = some c

theorem plain_of_same (h : (advance cfg q sh ph).2 = sh ∧ (advance cfg q sh ph).1.pending = false)
    (hb : ph.pending = false)
    (hf : (advance cfg q sh ph).1.inFlight = true → ph.inFlight = true ∨ ph = .arrived) :
    Plain cfg q sh ph :=
  ⟨by rw [h.1], hb, h.2, hf, .inl (by rw [h.1])⟩

theorem advance_cases (cfg : Config) (q : Request) (sh : Shared) (ph : Phase) :
    (∃ seen new, ph = .writing seen new ∧
      advance cfg q sh ph = (.invalidating sh.row new, { sh with row := ⟨new, sh.now⟩ })) ∨
    (∃ replaced new, ph = .invalidating replaced new ∧
      advance cfg q sh ph = (.done replaced new, { sh with cache := none })) ∨
    Plain cfg q sh ph := by
  rcases ph with _ | seen | ⟨seen, start, stop, front, fetch⟩ | ⟨seen, start, stop, front, back⟩ |
    ⟨seen, new⟩ | ⟨replaced, new⟩ | ⟨replaced, new⟩ | code
  · exact .inr (.inr (plain_of_same ⟨rfl, rfl⟩ rfl fun _ => .inr rfl))
  · refine .inr (.inr (plain_of_same ?_ rfl fun _ => .inl rfl))
    rw [advance]
    split_ifs
    · exact ⟨rfl, rfl⟩
    · split
      · exact ⟨rfl, rfl⟩
      · split
        · exact ⟨rfl, rfl⟩
        · exact ⟨rfl, openFront_pending⟩
  · rcases fetch with _ | _ | c
    · refine .inr (.inr (plain_of_same ?_ rfl fun _ => .inl rfl))
      rw [advance]
      split
      · exact ⟨rfl, opened_pending⟩
      · exact ⟨rfl, rfl⟩
    · exact .inr (.inr (plain_of_same ⟨rfl, rfl⟩ rfl fun _ => .inl rfl))
    · exact .inr (.inr ⟨rfl, rfl, opened_pending, fun _ => .inl rfl, .inr ⟨_, _, _, _, c, rfl, rfl⟩⟩)
  · refine .inr (.inr (plain_of_same ?_ rfl fun _ => .inl rfl))
    rw [advance]
    split_ifs <;> exact ⟨rfl, rfl⟩
  · by_cases hw : (q.isPatch && decide (cfg.hash sh.row.content ≠ cfg.hash seen.content)) = true
    · refine .inr (.inr (plain_of_same ?_ rfl fun _ => .inl rfl))
      rw [advance, if_pos hw]
      exact ⟨rfl, rfl⟩
    · exact .inl ⟨seen, new, rfl, by rw [advance, if_neg hw]⟩
  · exact .inr (.inl ⟨replaced, new, rfl, rfl⟩)
  · exact .inr (.inr (plain_of_same ⟨rfl, rfl⟩ rfl fun h => absurd h Bool.false_ne_true))
  · exact .inr (.inr (plain_of_same ⟨rfl, rfl⟩ rfl fun h => absurd h Bool.false_ne_true))

theorem sessions_update {f : ℕ → Option (Request × Phase)} {k : ℕ} {q' : Request} {ph' : Phase}
    (h : update f i (some (q, ph)) k = some (q', ph')) :
    k = i ∧ q = q' ∧ ph = ph' ∨ k ≠ i ∧ f k = some (q', ph') := by
  by_cases hk : k = i
  · subst hk
    rw [update_self] at h
    exact .inl ⟨rfl, Prod.mk.inj (Option.some.inj h)⟩
  · rw [update_of_ne hk] at h
    exact .inr ⟨hk, h⟩

theorem Inv.act (hi : Inv cfg s) (hs : s.sessions i = some (q, ph)) (hcalm : Calm s (.act i)) :
    Inv cfg ⟨(advance cfg q s.toShared ph).2,
      update s.sessions i (some (q, (advance cfg q s.toShared ph).1))⟩ := by
  have hown : Good cfg (advance cfg q s.toShared ph).2.row q (advance cfg q s.toShared ph).1 := by
    refine advance_good (hi.good i q ph hs) fun hq hf c hc => ?_
    rcases hi.cache c hc with h | ⟨j, q', ph', hj, hp⟩
    · exact h
    · rw [hi.apart i j q q' ph ph' hs hj hq hf] at hp
      cases hp
  rcases advance_cases cfg q s.toShared ph with ⟨seen, new, rfl, ha⟩ | ⟨rep, new, rfl, ha⟩ | hpl
  · -- the write: nobody else relies on the row
    have hcalm := hcalm.1 q seen new hs
    rw [ha] at hown ⊢
    refine ⟨fun k q' ph' hk => ?_, fun a b q₁ q₂ ph₁ ph₂ h₁ h₂ hq hf => ?_, fun c _ => ?_⟩
    · rcases sessions_update hk with ⟨rfl, rfl, rfl⟩ | ⟨hne, hk⟩
      · exact hown
      · exact (hi.good k q' ph' hk).frame (hcalm k q' ph' hne hk) _
    · rcases sessions_update h₁ with ⟨rfl, rfl, rfl⟩ | ⟨hne, h₁⟩
      · cases hf
      · rw [hcalm a q₁ ph₁ hne h₁ (conditional_of_patch hq)] at hf
        cases hf
    · exact .inr ⟨i, q, _, update_self .., rfl⟩
  · refine ⟨fun k q' ph' hk => ?_, fun a b q₁ q₂ ph₁ ph₂ h₁ h₂ hq hf => ?_, fun c hc => ?_⟩
    · rcases sessions_update hk with ⟨rfl, rfl, rfl⟩ | ⟨hne, hk⟩
      · exact hown
      · exact hi.good k q' ph' hk
    · rcases sessions_update h₁ with ⟨rfl, rfl, rfl⟩ | ⟨-, h₁⟩
      · cases hf
      · rcases sessions_update h₂ with ⟨rfl, rfl, rfl⟩ | ⟨-, h₂⟩
        · rfl
        · exact hi.apart a b q₁ q₂ ph₁ ph₂ h₁ h₂ hq hf
    · cases hc
  · refine ⟨fun k q' ph' hk => ?_, fun a b q₁ q₂ ph₁ ph₂ h₁ h₂ hq hf => ?_, fun c hc => ?_⟩
    · rcases sessions_update hk with ⟨rfl, rfl, rfl⟩ | ⟨hne, hk⟩
      · exact hown
      · have hg := hi.good k q' ph' hk
        rwa [← hpl.row] at hg
    · rcases sessions_update h₂ with ⟨rfl, rfl, rfl⟩ | ⟨-, hb⟩
      · exact hpl.after
      · rcases sessions_update h₁ with ⟨rfl, rfl, rfl⟩ | ⟨-, ha⟩
        · rcases hpl.flight hf with hf | rfl
          · exact hi.apart a b q q₂ ph ph₂ hs hb hq hf
          · exact hcalm.2 q hs hq b q₂ ph₂ hb
        · exact hi.apart a b q₁ q₂ ph₁ ph₂ ha hb hq hf
    · have hc : (advance cfg q s.toShared ph).2.cache = some c := hc
      rw [hpl.row]
      rcases hpl.cache with hsame | ⟨seen, start, stop, front, c', rfl, hins⟩
      · rw [hsame] at hc
        rcases hi.cache c hc with h | ⟨k, q', ph', hk, hp⟩
        · exact .inl h
        · refine .inr ⟨k, q', ph', ?_, hp⟩
          have hne : k ≠ i := by
            rintro rfl
            rw [hs] at hk
            cases hk
            rw [hpl.before] at hp
            cases hp
          exact (update_of_ne hne ..).trans hk
      · obtain rfl := Option.some.inj hc
        exact .inl ((hi.good i q _ hs).2.2.2.2.2 c' rfl)

/-- A request stays where it is or ends without having written. -/
theorem Inv.settle (hi : Inv cfg s) (hs : s.sessions i = some (q, ph)) {ph' : Phase}
    (hg : Good cfg s.row q ph') (hp : ph'.pending = ph.pending)
    (hf : ph'.inFlight = true → ph.inFlight = true) :
    Inv cfg { s with sessions := update s.sessions i (some (q, ph')) } := by
  refine ⟨fun k q₁ ph₁ hk => ?_, fun a b q₁ q₂ ph₁ ph₂ h₁ h₂ hq hfl => ?_, fun c hc => ?_⟩
  · rcases sessions_update hk with ⟨rfl, rfl, rfl⟩ | ⟨-, hk⟩
    · exact hg
    · exact hi.good k q₁ ph₁ hk
  · have ha : ∃ ph₁', s.sessions a = some (q₁, ph₁') ∧ ph₁'.inFlight = true := by
      rcases sessions_update h₁ with ⟨rfl, rfl, rfl⟩ | ⟨-, h₁⟩
      · exact ⟨ph, hs, hf hfl⟩
      · exact ⟨ph₁, h₁, hfl⟩
    obtain ⟨ph₁', ha, hfa⟩ := ha
    rcases sessions_update h₂ with ⟨rfl, rfl, rfl⟩ | ⟨-, h₂⟩
    · rw [hp]
      exact hi.apart a b q₁ q ph₁' ph ha hs hq hfa
    · exact hi.apart a b q₁ q₂ ph₁' ph₂ ha h₂ hq hfa
  · rcases hi.cache c hc with h | ⟨k, q₁, ph₁, hk, hpk⟩
    · exact .inl h
    · by_cases hki : k = i
      · subst hki
        rw [hs] at hk
        cases hk
        exact .inr ⟨k, q, ph', update_self .., hp.trans hpk⟩
      · exact .inr ⟨k, q₁, ph₁, (update_of_ne hki ..).trans hk, hpk⟩

theorem Inv.arrive (hi : Inv cfg s) (hs : s.sessions i = none) (q : Request) :
    Inv cfg { s with sessions := update s.sessions i (some (q, .arrived)) } := by
  refine ⟨fun k q₁ ph₁ hk => ?_, fun a b q₁ q₂ ph₁ ph₂ h₁ h₂ hq hfl => ?_, fun c hc => ?_⟩
  · rcases sessions_update hk with ⟨rfl, rfl, rfl⟩ | ⟨-, hk⟩
    · trivial
    · exact hi.good k q₁ ph₁ hk
  · rcases sessions_update h₂ with ⟨rfl, rfl, rfl⟩ | ⟨-, h₂⟩
    · rfl
    · rcases sessions_update h₁ with ⟨rfl, rfl, rfl⟩ | ⟨-, h₁⟩
      · cases hfl
      · exact hi.apart a b q₁ q₂ ph₁ ph₂ h₁ h₂ hq hfl
  · rcases hi.cache c hc with h | ⟨k, q₁, ph₁, hk, hpk⟩
    · exact .inl h
    · have hne : k ≠ i := by
        rintro rfl
        rw [hs] at hk
        cases hk
      exact .inr ⟨k, q₁, ph₁, (update_of_ne hne ..).trans hk, hpk⟩

variable {code : StatusCode}

theorem refuse_good (hg : Good cfg row q ph) : Good cfg row q (refuse code ph) := by
  cases ph with
  | invalidating | done => exact hg
  | _ => trivial

theorem refuse_pending : (refuse code ph).pending = ph.pending := by
  cases ph <;> rfl

theorem refuse_inFlight : (refuse code ph).inFlight = false := by
  cases ph <;> rfl

/-- **A calm step keeps the invariant.** -/
theorem Inv.step (hi : Inv cfg s) (hcalm : Calm s e) : Inv cfg (step cfg s e) := by
  rcases e with ⟨i, q⟩ | i | ⟨i, code⟩ | _ | n
  · unfold Patches.step
    dsimp only
    split_ifs with h
    · exact hi
    · exact hi.arrive (by simpa using h) q
  · rcases hs : s.sessions i with _ | ⟨q, ph⟩
    · simpa only [Patches.step, hs] using hi
    · simpa only [Patches.step, hs] using hi.act hs hcalm
  · rcases hs : s.sessions i with _ | ⟨q, ph⟩
    · simpa only [Patches.step, hs] using hi
    · simp only [Patches.step, hs]
      refine hi.settle hs (refuse_good (hi.good i q ph hs)) refuse_pending fun h => ?_
      rw [refuse_inFlight] at h
      cases h
  · refine ⟨hi.good, hi.apart, fun c hc => ?_⟩
    cases hc
  · exact ⟨hi.good, hi.apart, hi.cache⟩

theorem Initial.inv (h : Initial s) : Inv cfg s := by
  refine ⟨fun i q ph hi => ?_, fun i j q q' ph ph' hi => ?_, fun c hc => .inl (h.cache c hc)⟩
  · rw [h.sessions i] at hi
    cases hi
  · rw [h.sessions i] at hi
    cases hi

theorem Inv.run {l : List Event} (hi : Inv cfg s) (hcalm : CalmRun cfg s l) : Inv cfg (run cfg s l) := by
  induction l generalizing s with
  | nil => exact hi
  | cons e l ih => exact ih (hi.step hcalm.1) hcalm.2

theorem Inv.law (hi : Inv cfg s) : Law cfg s := by
  intro i q ph replaced new hs hw
  have hg := hi.good i q ph hs
  cases ph with
  | invalidating | done =>
    obtain ⟨rfl, rfl⟩ := Prod.mk.inj (Option.some.inj hw)
    exact hg
  | _ => cases hw

/-- **In a calm run every request that writes does to the version it replaces what it says.** -/
theorem writes_are_faithful (cfg : Config) (s : State) (l : List Event) (hs : Initial s)
    (hcalm : CalmRun cfg s l) : Law cfg (run cfg s l) :=
  (hs.inv.run hcalm).law

/-! ### Runs -/

/-- `Calm` for the sessions `ids`. -/
def calmAt (ids : List ℕ) (s : State) : Event → Bool
  | .arrive i _ => i ∈ ids
  | .act i => match s.sessions i with
    | some (_, .writing _ _) => ids.all fun j =>
        j = i || (s.sessions j).all fun x => !x.1.conditional || !x.2.inFlight
    | some (q, .arrived) => !q.isPatch || ids.all fun j => (s.sessions j).all fun x => !x.2.pending
    | _ => true
  | _ => true

def calmRunAt (cfg : Config) (ids : List ℕ) (s : State) : List Event → Bool
  | [] => true
  | e :: l => calmAt ids s e && calmRunAt cfg ids (step cfg s e) l

/-- There are no other sessions. -/
def Among (ids : List ℕ) (s : State) : Prop := ∀ j q ph, s.sessions j = some (q, ph) → j ∈ ids

variable {ids : List ℕ}

theorem calm_of_calmAt (ha : Among ids s) (h : calmAt ids s e = true) : Calm s e := by
  rcases e with _ | i | _ | _ | _
  case act =>
    refine ⟨fun q seen new hs j q' ph hne hj hc => ?_, fun q hs hq j q' ph hj => ?_⟩
    · simp only [calmAt, hs] at h
      have hj' := List.all_eq_true.mp h j (ha j q' ph hj)
      simpa [hne, hj, hc] using hj'
    · simp only [calmAt, hs, hq, Bool.not_true, Bool.false_or] at h
      have hj' := List.all_eq_true.mp h j (ha j q' ph hj)
      simpa [hj] using hj'
  all_goals trivial

theorem Among.update (ha : Among ids s) (hi : i ∈ ids) {x : Request × Phase} :
    Among ids ⟨sh, update s.sessions i (some x)⟩ := by
  intro j q ph hj
  rcases sessions_update hj with ⟨rfl, -⟩ | ⟨-, hj⟩
  · exact hi
  · exact ha j q ph hj

theorem Among.step (ha : Among ids s) (h : calmAt ids s e = true) : Among ids (step cfg s e) := by
  cases e with
  | arrive i q =>
    unfold Patches.step
    dsimp only
    split_ifs
    · exact ha
    · exact ha.update (of_decide_eq_true h)
  | act i | refuse i =>
    rcases hs : s.sessions i with _ | ⟨q, ph⟩
    · simpa only [Patches.step, hs] using ha
    · simpa only [Patches.step, hs] using ha.update (ha i q ph hs)
  | _ => exact ha

theorem calmRun_of_calmRunAt (ids : List ℕ) {l : List Event} (ha : Among ids s)
    (h : calmRunAt cfg ids s l = true) : CalmRun cfg s l := by
  induction l generalizing s with
  | nil => trivial
  | cons e l ih =>
    rw [calmRunAt, Bool.and_eq_true] at h
    exact ⟨calm_of_calmAt ha h.1, ih (ha.step h.1) h.2⟩

/-- A hash for short contents. -/
def letters : Config := ⟨fun c => c.map fun b => Char.ofNat (96 + b.toNat)⟩

/-- A file that nobody works on. -/
def idle (content : Content) (cache : Option Content) : State :=
  ⟨⟨⟨content, 0⟩, cache, 0⟩, fun _ => none⟩

theorem idle_initial {cache : Option Content} (h : ∀ d, cache = some d → d = c) :
    Initial (idle c cache) :=
  ⟨fun _ => rfl, h⟩

/-- `X-Update-Range: bytes=1-1`. -/
def patchOne : Request where
  updateRange := some ['b', 'y', 't', 'e', 's', '=', '1', '-', '1']
  body := [9]

theorem patchOne_range :
    parseUpdateRange ['b', 'y', 't', 'e', 's', '=', '1', '-', '1'] 3 = .ok (1, some 1) := by
  decide +kernel

/-- A file of three bytes, patched: the byte in the middle is replaced. -/
theorem patchOne_spliced {v : Version} (hv : v.content.length = 3) (h : Spliced patchOne v new) :
    new = v.content.take 1 ++ [9] ++ v.content.drop 2 := by
  obtain ⟨start, stop, hp, hn⟩ := h _ rfl
  rw [hv, patchOne_range] at hp
  obtain ⟨rfl, rfl⟩ := Prod.mk.inj (Except.ok.inj hp)
  exact hn

def put (body : Content) : Request where
  body := body

/-- `If-Match: "a-0"`. -/
def putIf (body : Content) : Request where
  ifMatch := some ['"', 'a', '-', '0', '"']
  body := body

/-- A request on its own. -/
def alone (i : ℕ) (q : Request) (n : ℕ) : List Event := .arrive i q :: List.replicate n (.act i)

/-- A conditional `PUT`, and then a `PATCH`. -/
theorem writes_are_faithful_alone :
    Law letters (run letters (idle [1] none) (alone 1 (putIf [1, 2, 3]) 5 ++ alone 2 patchOne 9)) ∧
    (run letters (idle [1] none) (alone 1 (putIf [1, 2, 3]) 5 ++ alone 2 patchOne 9)).row = ⟨[1, 9, 3], 0⟩ := by
  refine ⟨writes_are_faithful _ _ _ (idle_initial fun d h => by cases h) ?_, by decide +kernel⟩
  refine calmRun_of_calmRunAt [1, 2] (fun j q ph h => by cases h) ?_
  decide +kernel

/-- The second request writes between the metadata and the write of the first. -/
def discarded : List Event :=
  [.arrive 1 (putIf [2]), .act 1, .act 1] ++ alone 2 (put [3]) 5 ++ List.replicate 3 (.act 1)

/-- Another content is there while the ranges are opened. -/
def restored : List Event :=
  [.arrive 1 patchOne, .act 1, .act 1] ++ alone 2 (put [2, 2, 2]) 5 ++ List.replicate 4 (.act 1) ++
    alone 3 (put [1, 1, 1]) 5 ++ List.replicate 3 (.act 1)

/-- The ranges are opened while the cache still has the hash from before the last write. -/
def stale : List Event := alone 1 (put [2, 2, 2]) 4 ++ alone 2 patchOne 7

/-- A conditional `PUT` replaces a version its header does not name; a `PATCH` mixes the content of another
version into the one it replaces, because the old content is back when it writes, or because of the
cache. -/
theorem writes_discard_and_mix :
    (run letters (idle [1] none) discarded).sessions 1 = some (putIf [2], .done ⟨[3], 0⟩ [2]) ∧
    ifMatchPreconditionFails ['"', 'a', '-', '0', '"'] (some (computeEtag letters ⟨[3], 0⟩)) = true ∧
    (run letters (idle [1, 1, 1] none) restored).sessions 1 =
      some (patchOne, .done ⟨[1, 1, 1], 0⟩ [2, 9, 2]) ∧
    (run letters (idle [1, 1, 1] (some [1, 1, 1])) stale).sessions 2 =
      some (patchOne, .done ⟨[2, 2, 2], 0⟩ [1, 9, 1]) ∧
    ¬ Law letters (run letters (idle [1] none) discarded) ∧
    ¬ Law letters (run letters (idle [1, 1, 1] none) restored) ∧
    ¬ Law letters (run letters (idle [1, 1, 1] (some [1, 1, 1])) stale) := by
  have h1 : (run letters (idle [1] none) discarded).sessions 1 =
      some (putIf [2], .done ⟨[3], 0⟩ [2]) := by decide +kernel
  have h2 : (run letters (idle [1, 1, 1] none) restored).sessions 1 =
      some (patchOne, .done ⟨[1, 1, 1], 0⟩ [2, 9, 2]) := by decide +kernel
  have h3 : (run letters (idle [1, 1, 1] (some [1, 1, 1])) stale).sessions 2 =
      some (patchOne, .done ⟨[2, 2, 2], 0⟩ [1, 9, 1]) := by decide +kernel
  have hf : ifMatchPreconditionFails ['"', 'a', '-', '0', '"'] (some (computeEtag letters ⟨[3], 0⟩)) =
      true := by decide +kernel
  refine ⟨h1, hf, h2, h3, fun h => ?_, fun h => ?_, fun h => ?_⟩
  · have hm := (h 1 _ _ _ _ h1 rfl).matched _ rfl
    cases hm
  · exact absurd (patchOne_spliced rfl (h 1 _ _ _ _ h2 rfl).spliced) (by decide)
  · exact absurd (patchOne_spliced rfl (h 2 _ _ _ _ h3 rfl).spliced) (by decide)

end OxiCloud.WebDav.Patches
