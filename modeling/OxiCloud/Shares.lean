import OxiCloud.Lib.Runs

/-! # Public links

Visits count by relative updates of the row of a link, while an edit of the owner writes back a row it has read
before: `counts_exact_iff`. A link is a row and a grant that are written one after the other, without a
transaction: `err_restores_iff`. -/

namespace OxiCloud.Shares

structure Share where
  passwordHash : Option String
  accessCount : ℕ
  maxDownloads : Option ℕ
  downloadCount : ℕ
  deriving DecidableEq

/-- `with_password` and `with_max_downloads`, as far as the request has them. -/
def Share.edit (r : Share) (password : Option (Option String)) (limit : Option (Option ℕ)) : Share :=
  { r with passwordHash := password.getD r.passwordHash, maxDownloads := limit.getD r.maxDownloads }

/-! ### The counters -/

/-- The row of a share, the rows edits have read, the numbers of registered accesses and allowed downloads, and
whether each of these downloads left the count within the limit. -/
structure World where
  share : Share
  edits : ℕ → Option Share
  accesses : ℕ
  downloads : ℕ
  within : Bool

inductive Event where
  /-- `increment_access_count`; an expired link is not found. -/
  | access (live : Bool)
  /-- `consume_download`. -/
  | download
  /-- The lookup of `update_shared_link`. -/
  | fetch (i : ℕ)
  /-- `update_share`. -/
  | write (i : ℕ) (password : Option (Option String)) (limit : Option (Option ℕ))

namespace World

def step (w : World) : Event → World
  | .access live =>
    if live then { w with share.accessCount := w.share.accessCount + 1, accesses := w.accesses + 1 } else w
  | .download =>
    if w.share.maxDownloads.all (w.share.downloadCount < ·) then
      { w with
        share.downloadCount := w.share.downloadCount + 1
        downloads := w.downloads + 1
        within := w.within && w.share.maxDownloads.all (w.share.downloadCount + 1 ≤ ·) }
    else w
  | .fetch i => { w with edits := Function.update w.edits i (some w.share) }
  | .write i password limit => match w.edits i with
    | none => w
    | some read => { w with share := { read.edit password limit with downloadCount := w.share.downloadCount } }

/-- The states a run goes through. -/
def states : List Event → World → List World
  | [], w => [w]
  | e :: es, w => w :: states es (w.step e)

/-- The counters are the numbers of what has happened. -/
structure Exact (w : World) : Prop where
  accesses : w.share.accessCount = w.accesses
  downloads : w.share.downloadCount = w.downloads
  within : w.within = true

/-- What is written knows the accesses. -/
def Informed (w : World) : Event → Prop
  | .write i _ _ => ∀ read, w.edits i = some read → read.accessCount = w.share.accessCount
  | _ => True

def InformedAll : List Event → World → Prop
  | [], _ => True
  | e :: es, w => w.Informed e ∧ InformedAll es (w.step e)

variable {w : World}

theorem Exact.step_iff (h : w.Exact) {e : Event} : (w.step e).Exact ↔ w.Informed e := by
  cases e with
  | access live =>
    refine iff_of_true ?_ trivial
    cases live
    · exact h
    · exact ⟨congrArg (· + 1) h.accesses, h.downloads, h.within⟩
  | download =>
    refine iff_of_true ?_ trivial
    rw [step]
    split_ifs with hlimit
    · exact ⟨h.accesses, congrArg (· + 1) h.downloads, by rw [h.within]; exact hlimit⟩
    · exact h
  | fetch i => exact iff_of_true ⟨h.accesses, h.downloads, h.within⟩ trivial
  | write i password limit =>
    rw [step, Informed]
    cases hread : w.edits i with
    | none => exact iff_of_true h fun read hr => by cases hr
    | some read =>
      constructor
      · rintro h' r ⟨⟩
        exact h'.accesses.trans h.accesses.symm
      · exact fun hr => ⟨(hr read rfl).trans h.accesses, h.downloads, h.within⟩

end World

/-- **The counters are exact at every point of a run iff no edit writes after an access it has not seen.** -/
theorem counts_exact_iff (es : List Event) (w : World) (h : w.Exact) :
    (∀ w' ∈ World.states es w, w'.Exact) ↔ World.InformedAll es w :=
  Lib.Runs.always_iff (fun _ _ => True) World.InformedAll (fun es w => ∀ w' ∈ World.states es w, w'.Exact)
    (fun _ => List.forall_mem_singleton) (fun _ _ _ => List.forall_mem_cons) (fun _ => trivial) (fun _ _ _ => Iff.rfl)
    (fun _ _ _ _ => ⟨trivial, fun h => h.step_iff⟩) trivial h

def World.fresh (limit : Option ℕ) : World := ⟨⟨none, 0, limit, 0⟩, fun _ => none, 0, 0, true⟩

/-- The limit is raised while a visitor downloads. -/
theorem counts_exact_iff_raised : (World.fresh (some 1)).Exact ∧ ∀ w ∈ World.states
    [.access true, .fetch 0, .download, .write 0 none (some (some 5)), .download] (.fresh (some 1)), w.Exact :=
  have h : (World.fresh (some 1)).Exact := ⟨rfl, rfl, rfl⟩
  ⟨h, (counts_exact_iff _ _ h).mpr (by simp [World.InformedAll, World.Informed, World.step, World.fresh])⟩

/-- An access between the lookup of an edit and its write is lost. -/
theorem edit_loses_access : ∃ w ∈ World.states [.fetch 0, .access true, .write 0 (some none) none] (.fresh none),
    w.share.accessCount = 0 ∧ w.accesses = 1 :=
  ⟨_, .tail _ (.tail _ (.tail _ (.head _))), rfl, rfl⟩

/-! ### Failures -/

structure DrivePolicies where
  forbidPublicLinks : Bool
  requirePublicLinkPassword : Bool
  maxPublicLinkDays : Option ℕ

/-- The row of a share and the expiry of the grant of its token. -/
structure Link where
  share : Option Share
  grant : Option (Option ℤ)
  deriving DecidableEq

inductive Call where
  | createSharedLink (password : Option String) (maxDownloads : Option ℕ) (expiresAt : Option ℤ)
  | updateSharedLink (password : Option String) (maxDownloads : Option (Option ℕ)) (expiresAt : Option ℤ)

/-- What a call meets. Of the failures, `lookup` is that of a read or of a check of the caller, `first` that of
`save_share` or `set_expiry_for_subject`, `second` that of `set_role` or `update_share`. -/
structure Env extends DrivePolicies where
  now : ℤ
  hash : String → String
  lookup : Bool
  hashing : Bool
  first : Bool
  second : Bool

namespace Call

/-- The call fails before it has written anything. -/
def refused (e : Env) (l : Link) : Call → Bool
  | createSharedLink password maxDownloads expiresAt =>
    maxDownloads == some 0 || e.lookup || e.forbidPublicLinks
      || e.requirePublicLinkPassword && password.getD "" == ""
      || e.maxPublicLinkDays.any (fun days => expiresAt.all (e.now + days * 86400 < ·))
      || password.isSome && e.hashing || e.first
  | updateSharedLink password maxDownloads expiresAt =>
    l.share.isNone || e.lookup || password.any (· != "") && e.hashing || maxDownloads == some (some 0)
      || expiresAt.isSome && e.first

def firstWrite (e : Env) (l : Link) : Call → Link
  | createSharedLink password maxDownloads _ => { l with share := some ⟨password.map e.hash, 0, maxDownloads, 0⟩ }
  | updateSharedLink _ _ expiresAt => { l with grant := l.grant.map fun g => if expiresAt.isSome then expiresAt else g }

def secondWrite (e : Env) (l : Link) : Call → Link
  | createSharedLink _ _ expiresAt => { l with grant := some expiresAt }
  | updateSharedLink password maxDownloads _ =>
    { l with share := l.share.map (·.edit (password.map fun p => if p = "" then none else e.hash p) maxDownloads) }

/-- Whether the call succeeds, and what it leaves. -/
def run (e : Env) (l : Link) (c : Call) : Bool × Link :=
  if c.refused e l then (false, l)
  else if e.second then (false, c.firstWrite e l)
  else (true, c.secondWrite e (c.firstWrite e l))

/-- The request leaves the expiry as it is. -/
def Idle (l : Link) : Call → Prop
  | createSharedLink .. => False
  | updateSharedLink _ _ expiresAt => ∀ g ∈ l.grant, expiresAt.isSome = true → g = expiresAt

/-- A created link has a new id. -/
def Fresh (l : Link) : Call → Prop
  | createSharedLink .. => l = ⟨none, none⟩
  | updateSharedLink .. => True

theorem firstWrite_eq_iff {e : Env} {l : Link} {c : Call} (hl : c.Fresh l) : c.firstWrite e l = l ↔ c.Idle l := by
  cases c with
  | createSharedLink password maxDownloads expiresAt =>
    rw [hl]
    exact iff_of_false (fun h => by cases h) id
  | updateSharedLink password maxDownloads expiresAt =>
    obtain ⟨share, grant⟩ := l
    cases grant with
    | none => exact iff_of_true rfl fun g hg => by cases hg
    | some g => cases expiresAt <;> simp [firstWrite, Idle, eq_comm]

end Call

/-- **A call that fails leaves the link as it was iff it failed before its first write, or that changed
nothing.** -/
theorem err_restores_iff (e : Env) (l : Link) (c : Call) (hl : c.Fresh l) (herr : (c.run e l).1 = false) :
    (c.run e l).2 = l ↔ c.refused e l = true ∨ c.Idle l := by
  rw [← Call.firstWrite_eq_iff (e := e) hl]
  unfold Call.run at herr ⊢
  split_ifs at herr ⊢ with hr hs
  · exact iff_of_true rfl (.inl hr)
  · exact ⟨.inr, fun h => h.resolve_left hr⟩

/-- Only the second write fails. -/
def Env.halfway : Env := ⟨⟨false, false, none⟩, 0, id, false, false, false, true⟩

/-- A new password that is not written. -/
theorem err_restores_iff_password :
    (Call.run .halfway ⟨some ⟨none, 3, none, 0⟩, some none⟩ (.updateSharedLink (some "p") none none)).2 =
      ⟨some ⟨none, 3, none, 0⟩, some none⟩ :=
  (err_restores_iff _ _ _ (by exact trivial) rfl).mpr (.inr fun _ _ h => by cases h)

/-- The row of a failed creation stays, and so does the expiry of a failed edit. -/
theorem err_leaves_writes :
    Call.run .halfway ⟨none, none⟩ (.createSharedLink none none none) = (false, ⟨some ⟨none, 0, none, 0⟩, none⟩) ∧
    Call.run .halfway ⟨some ⟨none, 3, none, 0⟩, some none⟩ (.updateSharedLink none none (some 9)) =
      (false, ⟨some ⟨none, 3, none, 0⟩, some (some 9)⟩) := ⟨rfl, rfl⟩

end OxiCloud.Shares
