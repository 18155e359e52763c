import OxiCloud.Counters

/-! # What a statement does to manifests and to the backend

A manifest row never changes but for its counter. It is created by the `INSERT` of `attach_manifest` and
by the transaction of a legacy re-chunk (`manifest_exec`). An object is only created by the two backend
writes (`object_exec`). -/

namespace OxiCloud.Effects

open Lib.Tables Schema Machine

variable {H : Type}

/-! ### Manifests -/

/-- Two manifests differ at most in their counter. -/
structure SameContent (m m' : Manifest H) : Prop where
  chunkHashes : m'.chunkHashes = m.chunkHashes
  chunkSizes : m'.chunkSizes = m.chunkSizes
  totalSize : m'.totalSize = m.totalSize

theorem SameContent.refl (m : Manifest H) : SameContent m m := ⟨rfl, rfl, rfl⟩

/-- Every manifest was there before, with the same content. -/
def Kept (s s' : Store H) : Prop := ∀ h m', s'.chunkManifests.get h = some m' →
  ∃ m, s.chunkManifests.get h = some m ∧ SameContent m m'

variable {s s' : Store H} {h : H} {op : Op H} {ch : Choice H}

theorem Kept.of_eq (h : s'.chunkManifests = s.chunkManifests) : Kept s s' := by
  intro x m' hm'
  rw [h] at hm'
  exact ⟨m', hm', .refl m'⟩

theorem Kept.isSome (hk : Kept s s')
    (hm : (s'.chunkManifests.get h).isSome = true) : (s.chunkManifests.get h).isSome = true := by
  obtain ⟨m', hm'⟩ := Option.isSome_iff_exists.mp hm
  obtain ⟨m, hm, -⟩ := hk h m' hm'
  rw [hm]
  rfl

theorem Kept.trans {s₁ : Store H} (h₁ : Kept s s₁) (h₂ : Kept s₁ s') : Kept s s' := by
  intro x m' hm'
  obtain ⟨m₁, hm₁, hc₁⟩ := h₂ x m' hm'
  obtain ⟨m, hm, hc⟩ := h₁ x m₁ hm₁
  exact ⟨m, hm, hc₁.chunkHashes.trans hc.chunkHashes, hc₁.chunkSizes.trans hc.chunkSizes,
    hc₁.totalSize.trans hc.totalSize⟩

theorem kept_modify {f : H → Manifest H → Manifest H}
    (hs : s'.chunkManifests = s.chunkManifests.modify f)
    (hf : ∀ h m, SameContent m (f h m)) : Kept s s' := by
  intro x m' hm'
  rw [hs, Table.get_modify, Option.map_eq_some_iff] at hm'
  obtain ⟨m, hm, rfl⟩ := hm'
  exact ⟨m, hm, hf x m⟩

/-- What may happen to a blob row that stays: a row whose counter is zero was so before and kept its
stamp, or it is stamped now. -/
def Aged (now : ℕ) (b b' : BlobRow) : Prop :=
  b'.refCount = 0 → b.refCount = 0 ∧ b'.orphanedAt = b.orphanedAt ∨ b'.orphanedAt = some now

theorem Aged.refl (now : ℕ) (b : BlobRow) : Aged now b b := fun h => .inl ⟨h, rfl⟩

theorem Aged.trans {now : ℕ} {b b₁ b' : BlobRow} (h₁ : Aged now b b₁) (h₂ : Aged now b₁ b') :
    Aged now b b' := by
  intro hz
  rcases h₂ hz with ⟨hz₁, ho⟩ | ho
  · rcases h₁ hz₁ with ⟨hz₀, ho₁⟩ | ho₁
    · exact .inl ⟨hz₀, ho.trans ho₁⟩
    · exact .inr (ho.trans ho₁)
  · exact .inr ho

theorem Aged.of_pos {now : ℕ} {b b' : BlobRow} (h : b'.refCount ≠ 0) : Aged now b b' :=
  fun hz => absurd hz h

theorem aged_release (now n : ℕ) (b : BlobRow) : Aged now b (b.release now n) := by
  intro hz
  simp only [BlobRow.release] at hz
  simp [BlobRow.release, hz]

/-- Every blob row was there before. -/
def RowsAged (s s' : Store H) : Prop := ∀ h b', s'.blobs.get h = some b' →
  ∃ b, s.blobs.get h = some b ∧ Aged s.now b b'

theorem RowsAged.of_eq (h : s'.blobs = s.blobs) : RowsAged s s' := by
  intro x b' hb'
  rw [h] at hb'
  exact ⟨b', hb', .refl _ b'⟩

theorem rowsAged_modify {f : H → BlobRow → BlobRow}
    (hs : s'.blobs = s.blobs.modify f) (hf : ∀ h b, Aged s.now b (f h b)) : RowsAged s s' := by
  intro x b' hb'
  rw [hs, Table.get_modify, Option.map_eq_some_iff] at hb'
  obtain ⟨b, hb, rfl⟩ := hb'
  exact ⟨b, hb, hf x b⟩

theorem rowsAged_releaseBy (s : Store H) (d : H → ℕ) : RowsAged s (s.releaseBy d) := by
  refine rowsAged_modify rfl fun h b => ?_
  split_ifs
  · exact .refl _ b
  · exact aged_release s.now (d h) b

theorem rowsAged_addBlobReferences (s : Store H) (n : H → ℕ) :
    RowsAged s (s.addBlobReferences n) := by
  refine rowsAged_modify rfl fun h b => ?_
  split_ifs with hn
  · exact .refl _ b
  · exact .of_pos (by simp only [BlobRow.pin]; omega)

theorem RowsAged.trans {s₁ : Store H} (h₁ : RowsAged s s₁) (hn : s₁.now = s.now)
    (h₂ : RowsAged s₁ s') : RowsAged s s' := by
  intro x b' hb'
  obtain ⟨b₁, hb₁, ha₁⟩ := h₂ x b' hb'
  obtain ⟨b, hb, ha⟩ := h₁ x b₁ hb₁
  rw [hn] at ha₁
  exact ⟨b, hb, ha.trans ha₁⟩

variable [DecidableEq H]

theorem kept_set {m m₀ : Manifest H}
    (hs : s'.chunkManifests = s.chunkManifests.set h m) (hm₀ : s.chunkManifests.get h = some m₀)
    (hc : SameContent m₀ m) : Kept s s' := by
  intro x m' hm'
  rcases Table.get_set_cases (hs ▸ hm') with ⟨rfl, rfl⟩ | ⟨-, hm'⟩
  · exact ⟨m₀, hm₀, hc⟩
  · exact ⟨m', hm', .refl m'⟩

theorem kept_erase (hs : s'.chunkManifests = s.chunkManifests.erase h) : Kept s s' := by
  intro x m' hm'
  rw [hs, Table.get_erase] at hm'
  split_ifs at hm'
  exact ⟨m', hm', .refl m'⟩

theorem kept_copyOne (s : Store H) (c : CopySpec) :
    Kept s (s.copyOne c.old c.new c.folder c.name) := by
  unfold Store.copyOne
  cases s.files.get c.old with
  | none => exact .of_eq rfl
  | some r =>
    have h₁ : Kept s ({ s with files := s.files.set c.new ⟨c.folder, c.name, r.blobHash, false⟩
        }.addBlobReferences fun h => if r.blobHash = h then 1 else 0) :=
      kept_modify rfl fun _ _ => ⟨rfl, rfl, rfl⟩
    exact h₁.trans (kept_modify rfl fun _ _ => ⟨rfl, rfl, rfl⟩)

theorem kept_copyList : ∀ (l : List CopySpec) (s : Store H),
    Kept s (l.foldl (fun s c => s.copyOne c.old c.new c.folder c.name) s)
  | [], _ => .of_eq rfl
  | c :: l, s => (kept_copyOne s c).trans (kept_copyList l _)

variable {r : op.Resp}

/-- **Where manifests come from.** -/
theorem manifest_exec (he : exec op ch s = some (r, s')) : Kept s s' ∨
      (∃ h m, op = .insertManifest h m ∧ s.chunkManifests.get h = none ∧
        s'.chunkManifests = s.chunkManifests.set h m) ∨
      ∃ h cs sizes, op = .rechunk h cs sizes ∧ s.chunkManifests.get h = none ∧
        s'.chunkManifests = s.chunkManifests.set h ⟨cs, sizes, sizes.sum, s.filesNaming h⟩ := by
  by_cases ht : op.TouchesManifests
  swap
  · exact .inl (.of_eq (chunkManifests_exec ht he))
  have hrefl : Kept s s := .of_eq rfl
  obtain rfl | ⟨-, rfl⟩ := exec_store he
  · exact .inl hrefl
  cases op
  case insertManifest h m =>
    dsimp only [Op.effect, Store.insertManifest]
    cases hm : s.chunkManifests.get h with
    | some m₀ => exact .inl hrefl
    | none => exact .inr (.inl ⟨h, m, rfl, hm, rfl⟩)
  case bumpManifest h =>
    dsimp only [Op.effect, Store.bumpManifest]
    cases hm : s.chunkManifests.get h with
    | none => exact .inl hrefl
    | some m => exact .inl (kept_set rfl hm ⟨rfl, rfl, rfl⟩)
  case removeManifest h cs =>
    dsimp only [Op.effect, Store.removeManifest]
    cases hm : s.chunkManifests.get h with
    | none => exact .inl hrefl
    | some m =>
      dsimp only
      split_ifs
      · exact .inl (kept_erase rfl)
      · exact .inl (kept_set rfl hm ⟨rfl, rfl, rfl⟩)
  case reapManifests =>
    refine .inl fun x m' hm' => ?_
    simp only [Op.effect, Store.reapManifests, Table.get_filter, Option.filter_eq_some_iff] at hm'
    exact ⟨m', hm'.1, .refl m'⟩
  case deleteFile id =>
    dsimp only [Op.effect, Store.deleteFile]
    cases s.files.get id with
    | none => exact .inl hrefl
    | some row => exact .inl (kept_modify rfl fun _ _ => ⟨rfl, rfl, rfl⟩)
  case copyFiles newFolders l =>
    have hl := kept_copyList l { s with folders := s.folders ∪ newFolders.toFinset }
    exact .inl hl
  case rechunk h cs sizes =>
    dsimp only [Op.effect, Store.rechunk]
    cases hm : s.chunkManifests.get h with
    | some m => exact .inl hrefl
    | none =>
      refine .inr (.inr ⟨h, cs, sizes, rfl, hm, ?_⟩)
      cases s.blobs.get h with
      | none => rfl
      | some b => dsimp only; split_ifs <;> rfl
  all_goals exact absurd ht id

theorem chunkHashes_exec (he : exec op ch s = some (r, s')) {m m' : Manifest H}
    (hm : s.chunkManifests.get h = some m) (hm' : s'.chunkManifests.get h = some m') :
    m'.chunkHashes = m.chunkHashes := by
  have hother : ∀ {x : H} {mx : Manifest H}, s.chunkManifests.get x = none →
      s'.chunkManifests = s.chunkManifests.set x mx → m' = m := by
    intro x mx hx hs
    rw [hs, Table.get_set] at hm'
    split_ifs at hm' with hxh
    · rw [← hxh, hm] at hx
      cases hx
    · rw [hm] at hm'
      cases hm'
      rfl
  rcases manifest_exec he with hk | ⟨x, mx, -, hx, hs⟩ | ⟨x, cs, sizes, -, hx, hs⟩
  · obtain ⟨m₀, h0, hc⟩ := hk h m' hm'
    rw [hm] at h0
    cases h0
    exact hc.chunkHashes
  · rw [hother hx hs]
  · rw [hother hx hs]

/-! ### The backend, the deletion queue and the clock -/

/-- The stores agree on the objects, the deletion queue and the clock. -/
structure SameBackend (s s' : Store H) : Prop where
  objects : s'.objects = s.objects
  pendingActions : s'.pendingActions = s.pendingActions
  now : s'.now = s.now

/-- The statements that change objects, the deletion queue or the clock. -/
def TouchesBackend : Op H → Prop
  | .tick _ | .putUnsynced .. | .putReplace .. | .deleteObject _ | .enqueueDeletion _
  | .cancelDeletions _ | .claimDeletion _ | .settleDeletion _ | .recordAttempt ..
  | .rollbackDeletion _ | .removeLegacy _ | .cleanupOrphaned _ | .reapBlobs _ => True
  | _ => False

/-- All other statements leave them alone. -/
theorem sameBackend_exec (hop : ¬ TouchesBackend op) (he : exec op ch s = some (r, s')) :
    SameBackend s s' := by
  obtain ⟨t, rfl | rfl⟩ := exec_frame he
  · exact ⟨rfl, rfl, rfl⟩
  · cases op <;> first | exact ⟨rfl, rfl, rfl⟩ | exact absurd trivial hop

/-- The statements that write or delete objects. -/
def TouchesObjects : Op H → Prop
  | .putUnsynced .. | .putReplace .. | .deleteObject _ => True
  | _ => False

theorem objects_exec (hop : ¬ TouchesObjects op) (he : exec op ch s = some (r, s')) :
    s'.objects = s.objects := by
  obtain ⟨t, rfl | rfl⟩ := exec_frame he
  · rfl
  · cases op <;> first | rfl | exact absurd trivial hop

/-- **Where objects come from.** -/
theorem object_exec (he : exec op ch s = some (r, s')) {data : Bytes}
    (hd : s'.objects.get h = some data) :
    s.objects.get h = some data ∨ (∃ w, op = .putUnsynced w h data) ∨ op = .putReplace h data := by
  by_cases ht : TouchesObjects op
  swap
  · rw [objects_exec ht he] at hd
    exact .inl hd
  cases op with
  | putUnsynced w x bytes =>
    rcases backendAnswer_cases he with rfl | rfl
    · exact .inl hd
    · unfold Store.putUnsynced at hd
      cases hx : s.objects.get x with
      | some old => rw [hx] at hd; exact .inl hd
      | none =>
        simp only [hx] at hd
        rcases Table.get_set_cases hd with ⟨rfl, rfl⟩ | ⟨-, hd⟩
        · exact .inr (.inl ⟨w, rfl⟩)
        · exact .inl hd
  | putReplace x bytes =>
    rcases backendAnswer_cases he with rfl | rfl
    · exact .inl hd
    · rcases Table.get_set_cases hd with ⟨rfl, rfl⟩ | ⟨-, hd⟩
      · exact .inr (.inr rfl)
      · exact .inl hd
  | deleteObject x =>
    rcases backendAnswer_cases he with rfl | rfl
    · exact .inl hd
    · simp only [Store.deleteObject, Table.get_erase] at hd
      split_ifs at hd
      exact .inl hd
  | _ => exact absurd ht id

/-! ### Blob rows -/

theorem rowsAged_set {b b₀ : BlobRow}
    (hs : s'.blobs = s.blobs.set h b) (hb₀ : s.blobs.get h = some b₀) (ha : Aged s.now b₀ b) :
    RowsAged s s' := by
  intro x b' hb'
  rw [hs, Table.get_set] at hb'
  split_ifs at hb' with hx
  · subst hx
    cases hb'
    exact ⟨b₀, hb₀, ha⟩
  · exact ⟨b', hb', .refl _ b'⟩

theorem rowsAged_erase (hs : s'.blobs = s.blobs.erase h) : RowsAged s s' := by
  intro x b' hb'
  rw [hs, Table.get_erase] at hb'
  split_ifs at hb'
  exact ⟨b', hb', .refl _ b'⟩

theorem rowsAged_copyOne (s : Store H) (c : CopySpec) :
    RowsAged s (s.copyOne c.old c.new c.folder c.name) := by
  unfold Store.copyOne
  cases s.files.get c.old with
  | none => exact .of_eq rfl
  | some r =>
    have h₁ := rowsAged_addBlobReferences
      { s with files := s.files.set c.new ⟨c.folder, c.name, r.blobHash, false⟩ }
      fun h => if r.blobHash = h then 1 else 0
    exact RowsAged.trans (s := s) h₁ rfl (rowsAged_addBlobReferences _ _)

theorem rowsAged_copyList : ∀ (l : List CopySpec) (s : Store H),
    RowsAged s (l.foldl (fun s c => s.copyOne c.old c.new c.folder c.name) s)
  | [], _ => .of_eq rfl
  | c :: l, s => by
    have hnow : (s.copyOne c.old c.new c.folder c.name).now = s.now := by
      obtain ⟨_, _, _, _, h⟩ := copyList_frame [c] s
      have hnow := congrArg Store.now h
      exact hnow
    exact (rowsAged_copyOne s c).trans hnow (rowsAged_copyList l _)

/-- The statements that create blob rows. -/
def Registers : Op H → Prop
  | .registerChunks _ | .registerOrphans _ => True
  | _ => False

/-- **No other statement creates a blob row**, and a counter that reaches zero is stamped. -/
theorem rowsAged_exec (hop : ¬ Registers op) (he : exec op ch s = some (r, s')) : RowsAged s s' := by
  have hrefl : RowsAged s s := .of_eq rfl
  obtain rfl | ⟨-, rfl⟩ := exec_store he
  · exact hrefl
  cases op
  case pinExisting hs =>
    refine rowsAged_modify rfl fun h b => ?_
    split_ifs
    · exact .of_pos (by simp [BlobRow.pin])
    · exact .refl _ b
  case pinClaimable hs =>
    refine rowsAged_modify rfl fun h b => ?_
    split_ifs
    · exact .of_pos (by simp)
    · exact .refl _ b
  case releaseChunks | releaseBatch => exact rowsAged_releaseBy s _
  case bumpBlob h =>
    dsimp only [Op.effect, Store.bumpBlob]
    cases hb : s.blobs.get h with
    | none => exact hrefl
    | some b => exact rowsAged_set rfl hb (.of_pos (by simp [BlobRow.pin]))
  case removeManifest h cs =>
    dsimp only [Op.effect, Store.removeManifest]
    cases s.chunkManifests.get h with
    | none => exact hrefl
    | some m =>
      dsimp only
      split_ifs
      · exact rowsAged_releaseBy { s with chunkManifests := s.chunkManifests.erase h } _
      · exact .of_eq rfl
  case removeLegacy h =>
    dsimp only [Op.effect, Store.removeLegacy]
    cases hb : s.blobs.get h with
    | none => exact hrefl
    | some b =>
      dsimp only
      split_ifs with hz
      · exact rowsAged_erase rfl
      · exact rowsAged_set rfl hb (.of_pos hz)
  case cleanupOrphaned h =>
    dsimp only [Op.effect, Store.cleanupOrphaned]
    cases hb : s.blobs.get h with
    | none => exact hrefl
    | some b =>
      dsimp only
      split_ifs
      · exact rowsAged_erase rfl
      · exact hrefl
  case reapBlobs grace =>
    intro x b' hb'
    simp only [Op.effect, Store.reapBlobs, Store.enqueueDeletions, Table.get_filter,
      Option.filter_eq_some_iff] at hb'
    exact ⟨b', hb'.1, .refl _ b'⟩
  case rechunk h cs sizes =>
    dsimp only [Op.effect, Store.rechunk]
    cases s.chunkManifests.get h with
    | some m => exact hrefl
    | none =>
      cases hb : s.blobs.get h with
      | none => exact .of_eq rfl
      | some b =>
        dsimp only
        split_ifs with hz
        · exact rowsAged_erase rfl
        · exact rowsAged_set rfl hb (.of_pos hz)
  case deleteFile id =>
    dsimp only [Op.effect, Store.deleteFile]
    cases s.files.get id with
    | none => exact hrefl
    | some row => exact rowsAged_releaseBy { s with files := _, fileAttachedBlobs := _, chunkManifests := _ } _
  case copyFiles newFolders l =>
    have hl := rowsAged_copyList l { s with folders := s.folders ∪ newFolders.toFinset }
    exact hl
  all_goals first
    | exact absurd trivial hop
    | rw [effect_frame]
      exact .of_eq rfl

end OxiCloud.Effects
