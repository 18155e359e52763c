import OxiCloud.Tokens

/-! # The reference accounting

What the rows and the running programs hold on a hash is covered by its counter. `Accounts` states
this in three strengths:

* `plain`: the manifest counters cover the rows and the tokens, every content having a manifest;
* `legacy`: the same for stores with legacy whole-file blobs, whose references are counted at the blob
  row; a credit `L h` says how many of the references on `h` are counted there. The blob counters cover
  the credit, the manifests and the chunk tokens;
* `exact`: both levels hold with equality, and nothing is legacy.

`Accounts.exec` is the one theorem about the statements: each of them keeps the accounts, if the
program that issues it holds the tokens it takes. -/

namespace OxiCloud.Accounting

open Lib.Tables Lib.Programs Lib.Pools Schema OxiCloud.Machine Tokens Schema.Store

variable {H : Type} [DecidableEq H]

/-! ### Statements that move references -/

/-- The statement moves references: its program gives up the tokens `l` for `g`, and on both levels the
counters change as the rows and the tokens do. The blob rows count the tokens that are given up. -/
structure Moves (s s' : Store H) (l g : Multiset (Token H)) : Prop where
  file : ∀ h, s'.references h + fileTokens g h + s.manifestRefs h =
    s.references h + fileTokens l h + s'.manifestRefs h
  chunk : ∀ x, chunkTokens l x ≤ s.blobRefs x →
    s'.containing x + chunkTokens g x + s.blobRefs x =
      s.containing x + chunkTokens l x + s'.blobRefs x

namespace Moves

variable {s s' : Store H} {l g : Multiset (Token H)}

theorem refl (s : Store H) : Moves s s 0 0 := ⟨fun _ => rfl, fun _ _ => rfl⟩

/-- Statements that only touch the blob rows. -/
theorem of_blobs (hs : SameNames s s') (hf : ∀ h, fileTokens g h = fileTokens l h)
    (hB : ∀ x, chunkTokens l x ≤ s.blobRefs x →
      chunkTokens g x + s.blobRefs x = chunkTokens l x + s'.blobRefs x) : Moves s s' l g := by
  refine ⟨fun h => ?_, fun x hx => ?_⟩
  · rw [references_congr hs, manifestRefs_congr hs.manifests, hf h]
  · have h1 := hB x hx
    rw [containing_congr hs.manifests]
    omega

/-- Statements that only touch rows naming contents. -/
theorem of_rows (hm : s'.chunkManifests = s.chunkManifests) (hb : s'.blobs = s.blobs)
    (hx : ∀ x, chunkTokens g x = chunkTokens l x)
    (hF : ∀ h, s'.references h + fileTokens g h = s.references h + fileTokens l h) :
    Moves s s' l g := by
  refine ⟨fun h => ?_, fun x _ => ?_⟩
  · rw [manifestRefs_congr hm, hF h]
  · rw [containing_congr hm, blobRefs_congr hb, hx x]

section

variable (s : Store H)

theorem pinExisting (hs : List H) :
    Moves s (s.pinExisting hs).2 0 (chunksOf (s.pinExisting hs).1) := by
  refine of_blobs ⟨rfl, rfl, rfl, rfl⟩ (by simp) fun x _ => ?_
  rw [blobRefs_pinExisting, chunkTokens_chunksOf, chunkTokens_zero]
  omega

theorem pinClaimable (hs entitled : List H) :
    Moves s (s.pinClaimable hs entitled).2 0 (chunksOf (s.pinClaimable hs entitled).1) := by
  refine of_blobs ⟨rfl, rfl, rfl, rfl⟩ (by simp) fun x _ => ?_
  rw [blobRefs_pinClaimable, chunkTokens_chunksOf, chunkTokens_zero]
  omega

theorem releaseChunks (hs : List H) : Moves s (s.releaseChunks hs) (chunksOf hs) 0 := by
  refine of_blobs ⟨rfl, rfl, rfl, rfl⟩ (by simp) fun x hx => ?_
  rw [blobRefs_releaseChunks]
  rw [chunkTokens_chunksOf] at hx ⊢
  rw [chunkTokens_zero]
  omega

theorem releaseBatch (batch : List (List H)) :
    Moves s (s.releaseBatch batch) (chunksOfAll batch) 0 := by
  refine of_blobs ⟨rfl, rfl, rfl, rfl⟩ (by simp) fun x hx => ?_
  rw [blobRefs_releaseBatch]
  rw [chunkTokens_chunksOfAll] at hx ⊢
  rw [chunkTokens_zero]
  omega

theorem registerChunks (rows : List (H × ℕ)) :
    Moves s (s.registerChunks rows) 0 (chunksOf (rows.map Prod.fst)) := by
  refine of_blobs ⟨rfl, rfl, rfl, rfl⟩ (by simp) fun x _ => ?_
  rw [blobRefs_registerChunks, chunkTokens_chunksOf, chunkTokens_zero]
  omega

theorem registerOrphans (rows : List (H × ℕ)) : Moves s (s.registerOrphans rows) 0 0 := by
  refine of_blobs ⟨rfl, rfl, rfl, rfl⟩ (by simp) fun x _ => ?_
  rw [blobRefs_registerOrphans]

theorem removeLegacy (h : H) : Moves s (s.removeLegacy h).2 {.chunk h} 0 := by
  refine of_blobs (s.sameNames_removeLegacy h) (by simp [Token.names]) fun x hx => ?_
  rw [blobRefs_removeLegacy]
  simp only [chunkTokens_singleton, Token.chunk.injEq, chunkTokens_zero] at hx ⊢
  omega

theorem cleanupOrphaned (h : H) : Moves s (s.cleanupOrphaned h).2 0 0 := by
  refine of_blobs (s.sameNames_cleanupOrphaned h) (by simp) fun x _ => ?_
  rw [blobRefs_cleanupOrphaned]

end

theorem reapBlobs {pick : List H} (hp : ∀ h ∈ pick, s.blobRefs h = 0) :
    Moves s (s.reapBlobs pick).2 0 0 := by
  refine of_blobs ⟨rfl, rfl, rfl, rfl⟩ (by simp) fun x _ => ?_
  rw [blobRefs_reapBlobs hp]

variable {h : H}

theorem insertManifest {m : Manifest H} (hi : (s.insertManifest h m).1 = true) :
    Moves s (s.insertManifest h m).2 (chunksOf m.chunkHashes)
      (Multiset.replicate m.refCount (.file h)) := by
  have hr : (s.insertManifest h m).2.references = s.references ∧
      (s.insertManifest h m).2.blobRefs = s.blobRefs := by
    unfold Store.insertManifest
    cases s.chunkManifests.get h <;> exact ⟨rfl, rfl⟩
  refine ⟨fun h' => ?_, fun x _ => ?_⟩
  · rw [hr.1, manifestRefs_insertManifest, hi]
    simp only [fileTokens_replicate_file, true_and, fileTokens_chunksOf]
    omega
  · rw [hr.2, containing_insertManifest, hi]
    simp only [chunkTokens_replicate_file, true_and, chunkTokens_chunksOf]
    omega

theorem bumpManifest (hi : (s.bumpManifest h).1.isSome = true) :
    Moves s (s.bumpManifest h).2 0 {.file h} := by
  have hr : (s.bumpManifest h).2.references = s.references ∧
      (s.bumpManifest h).2.blobRefs = s.blobRefs := by
    unfold Store.bumpManifest
    cases s.chunkManifests.get h <;> exact ⟨rfl, rfl⟩
  refine ⟨fun h' => ?_, fun x _ => ?_⟩
  · rw [hr.1, manifestRefs_bumpManifest, hi]
    simp only [fileTokens_singleton, Token.names, decide_eq_true_eq, true_and, fileTokens_zero]
    omega
  · rw [hr.2, containing_bumpManifest]
    simp

theorem insertFile {folder : FolderId} {name : String} {id : FileId} (hid : s.files.get id = none)
    (hi : (s.insertFile folder name h id).1 = .inserted id) :
    Moves s (s.insertFile folder name h id).2 {.file h} 0 := by
  have hs : (s.insertFile folder name h id).2.chunkManifests = s.chunkManifests ∧
      (s.insertFile folder name h id).2.blobs = s.blobs := by
    unfold Store.insertFile
    split_ifs <;> exact ⟨rfl, rfl⟩
  refine of_rows hs.1 hs.2 (by simp) fun h' => ?_
  rw [references_insertFile hid, hi]
  simp [Token.names]

theorem swapBlobHash {id : FileId} {old : H} {expected : Option H}
    (hs : s.swapBlobHash id h expected = (some (old, true), s')) :
    Moves s s' {.file h} {.file old} := by
  have hsame : s'.chunkManifests = s.chunkManifests ∧ s'.blobs = s.blobs := by
    have hs' : s' = (s.swapBlobHash id h expected).2 := by rw [hs]
    rw [hs']
    unfold Store.swapBlobHash
    cases s.files.get id with
    | none => exact ⟨rfl, rfl⟩
    | some r => dsimp only; split_ifs <;> exact ⟨rfl, rfl⟩
  refine of_rows hsame.1 hsame.2 (by simp) fun h' => ?_
  have := references_swapBlobHash hs h'
  simpa [Token.names] using this

theorem insertDerived {k : DerivedKey H} (hi : (s.insertDerived k h).1 = true) :
    Moves s (s.insertDerived k h).2 {.file h} {.slot} := by
  have hs : (s.insertDerived k h).2.chunkManifests = s.chunkManifests ∧
      (s.insertDerived k h).2.blobs = s.blobs := by
    unfold Store.insertDerived
    split_ifs <;> exact ⟨rfl, rfl⟩
  refine of_rows hs.1 hs.2 (by simp) fun h' => ?_
  rw [references_insertDerived, hi]
  simp [Token.names]

theorem insertAttached {k : AttachedKey} (hi : (s.insertAttached k h).1 = true) :
    Moves s (s.insertAttached k h).2 {.file h} 0 := by
  have hs : (s.insertAttached k h).2.chunkManifests = s.chunkManifests ∧
      (s.insertAttached k h).2.blobs = s.blobs := by
    unfold Store.insertAttached
    cases s.fileAttachedBlobs.get k <;> exact ⟨rfl, rfl⟩
  refine of_rows hs.1 hs.2 (by simp) fun h' => ?_
  rw [references_insertAttached, hi]
  simp [Token.names]

theorem upsertAttached (s : Store H) (k : AttachedKey) (h : H) :
    Moves s (s.upsertAttached k h) {.file h}
      ((s.fileAttachedBlobs.get k).elim 0 fun old => {.file old}) := by
  have hr := references_upsertAttached s k h
  cases hk : s.fileAttachedBlobs.get k with
  | none | some old =>
    refine of_rows rfl rfl (by simp) fun h' => ?_
    have := hr h'
    simp [hk] at this
    simp [Token.names, this]

/-- Reading the manifest of a reference that is about to be released. -/
theorem selectManifest (s : Store H) (h : H) (cs : List H) : Moves s s {.file h} {.release h cs} :=
  ⟨by simp [Token.names], by simp⟩

end Moves

/-- How strong the accounts are. -/
inductive Mode where
  | plain
  | legacy
  | exact
  deriving DecidableEq

/-- `x` is covered by `y`. -/
def Mode.covers : Mode → ℕ → ℕ → Prop
  | .exact, x, y => x = y
  | _, x, y => x ≤ y

theorem Mode.covers.shift {mode : Mode} {x y x' y' : ℕ} (h : mode.covers x y) (he : x + y' = x' + y) :
    mode.covers x' y' := by
  cases mode <;> simp only [Mode.covers] at h ⊢ <;> omega

/-- The accounts, for a credit `L` counted at the blob rows. -/
structure Credit (mode : Mode) (s : Store H) (a : Multiset (Token H)) (L : H → ℕ) : Prop where
  none : mode ≠ .legacy → ∀ h, L h = 0
  file : ∀ h, mode.covers (s.references h + fileTokens a h) (s.manifestRefs h + L h)
  chunk : mode ≠ .plain → ∀ c, mode.covers (L c + s.containing c + chunkTokens a c) (s.blobRefs c)

variable {s : Store H}

theorem Credit.exact {mode : Mode} {a : Multiset (Token H)} {L : H → ℕ} (hL : Credit mode s a L)
    (h : H) (hm : mode = .exact) : L h = 0 := hL.none (by simp [hm]) h

/-- The accounts of a store and the tokens held by all running programs. -/
def Accounts (mode : Mode) (s : Store H) (a : Multiset (Token H)) : Prop := ∃ L, Credit mode s a L

namespace Accounts

variable {mode : Mode} {s s' : Store H} {a a' c l g rest : Multiset (Token H)}

theorem chunk_le (ha : Accounts mode s a) (hm : mode ≠ .plain) (x : H) :
    s.containing x + chunkTokens a x ≤ s.blobRefs x := by
  obtain ⟨L, hL⟩ := ha
  have := hL.chunk hm x
  cases mode <;> simp only [Mode.covers] at this <;> omega

theorem file_le (ha : Accounts mode s a) (hm : mode ≠ .legacy) (h : H) :
    s.references h + fileTokens a h ≤ s.manifestRefs h := by
  obtain ⟨L, hL⟩ := ha
  have h1 := hL.none hm h
  have := hL.file h
  cases mode <;> simp only [Mode.covers] at this <;> omega

omit [DecidableEq H] in
theorem covers_zero (mode : Mode) : mode.covers 0 0 := by cases mode <;> simp [Mode.covers]

theorem fresh (mode : Mode) (folders : Finset FolderId) :
    Accounts mode (Store.fresh folders : Store H) 0 :=
  ⟨fun _ => 0, fun _ _ => rfl, fun _ => covers_zero mode, fun _ _ => covers_zero mode⟩

/-- Tokens may be dropped unless the accounts are exact. -/
theorem mono (ha : Accounts mode s a) (hm : mode ≠ .exact) (hle : a' ≤ a) : Accounts mode s a' := by
  obtain ⟨L, hL⟩ := ha
  refine ⟨L, hL.none, fun h => ?_, fun hp c => ?_⟩
  · have h1 := hL.file h
    have h2 := fileTokens_mono hle h
    cases mode <;> simp only [Mode.covers] at h1 ⊢ <;> first | omega | exact absurd rfl hm
  · have h1 := hL.chunk hp c
    have h2 := chunkTokens_mono hle c
    cases mode <;> simp only [Mode.covers] at h1 ⊢ <;> first | omega | exact absurd rfl hm

/-- A statement that moves references keeps the accounts. -/
theorem step (ha : Accounts mode s (c + rest)) (hl : l ≤ c) (hm : Moves s s' l g) :
    Accounts mode s' (c - l + g + rest) := by
  have hchunk := ha.chunk_le
  obtain ⟨L, hL⟩ := ha
  refine ⟨L, hL.none, fun h => ?_, fun hp x => ?_⟩
  · have h1 := hL.file h
    have h2 := fileTokens_next hl g rest h
    have h3 := hm.file h
    exact h1.shift (by omega)
  · have h1 := hL.chunk hp x
    have h2 := chunkTokens_next hl g rest x
    have h3 := hchunk hp x
    have h4 := chunkTokens_mono (hl.trans (Multiset.le_add_right c rest)) x
    have h5 := hm.chunk x (by omega)
    exact h1.shift (by omega)

theorem count_reduceOption (l : List (Option H)) (h : H) :
    l.reduceOption.count h = l.count (some h) := by
  induction l with
  | nil => rfl
  | cons x l ih =>
    cases x with
    | none => simpa [List.reduceOption] using ih
    | some y => simpa [List.reduceOption, List.count_cons] using ih

section

variable (ha : Accounts mode s (c + rest))
include ha

/-- The rows a purge deletes become references its program holds, or are forgotten with a negative
row. -/
theorem deleteDerived {h : H} {keys : List (DerivedKey H)} (ho : s.DerivedOrder h keys)
    (hneg : mode = .exact → none ∉ (s.deleteDerived h keys).1) (n : ℕ) :
    Accounts mode (s.deleteDerived h keys).2 (c - Multiset.replicate n .slot - 0 +
      (if none ∈ (s.deleteDerived h keys).1 then 0
        else filesOf (s.deleteDerived h keys).1.reduceOption) + rest) := by
  have href : ∀ x, (s.deleteDerived h keys).2.references x +
      (s.deleteDerived h keys).1.reduceOption.count x = s.references x := fun x => by
    rw [count_reduceOption]
    exact references_deleteDerived ho x
  obtain ⟨L, hL⟩ := ha
  refine ⟨L, hL.none, fun x => ?_, fun hp x => ?_⟩
  · have h1 := hL.file x
    have h2 := href x
    have h3 : (s.deleteDerived h keys).2.manifestRefs x = s.manifestRefs x := rfl
    rw [fileTokens_add] at h1
    rw [fileTokens_add, fileTokens_add, Multiset.sub_zero, fileTokens_spend, h3]
    split_ifs with hn
    · rw [fileTokens_zero]
      cases mode <;> simp only [Mode.covers] at h1 ⊢
      · omega
      · omega
      · exact absurd hn (hneg rfl)
    · rw [fileTokens_filesOf]
      exact h1.shift (by omega)
  · have h1 := hL.chunk hp x
    have h2 : (s.deleteDerived h keys).2.containing x = s.containing x := rfl
    have h3 : (s.deleteDerived h keys).2.blobRefs x = s.blobRefs x := rfl
    rw [chunkTokens_add] at h1
    rw [chunkTokens_add, chunkTokens_add, Multiset.sub_zero, chunkTokens_spend, h2, h3]
    split_ifs with hn
    · rwa [chunkTokens_zero, Nat.add_zero]
    · rwa [chunkTokens_filesOf, Nat.add_zero]

/-! ### The statements with an argument of their own -/

theorem selectManifest {h : H} (hl : {.file h} ≤ c) :
    Accounts mode s (c - {.file h} + ((s.chunkManifests.get h).elim {.chunk h}
      fun m => {.release h m.chunkHashes}) + rest) := by
  cases hm : s.chunkManifests.get h with
  | some m => exact ha.step hl (.selectManifest s h m.chunkHashes)
  | none =>
    have htok := fileTokens_pos rest hl (h := h) (by simp [Token.names])
    have hmr := manifestRefs_of_none hm
    by_cases hleg : mode = .legacy
    · subst hleg
      obtain ⟨L, hL⟩ := ha
      have hLh := hL.file h
      simp only [Mode.covers] at hLh
      refine ⟨fun x => L x - if h = x then 1 else 0, fun hne => absurd rfl hne, fun x => ?_, fun _ x => ?_⟩
      · have h1 := hL.file x
        have h2 := fileTokens_next hl {.chunk h} rest x
        simp only [fileTokens_singleton, Token.names, decide_eq_true_eq, Bool.false_eq_true, if_false] at h2
        simp only [Mode.covers, Option.elim] at h1 ⊢
        split_ifs at h2 ⊢ with hh
        · subst hh
          omega
        · omega
      · have h1 := hL.chunk (by decide) x
        have h2 := chunkTokens_next hl {.chunk h} rest x
        simp only [chunkTokens_singleton, reduceCtorEq, if_false, Token.chunk.injEq] at h2
        simp only [Mode.covers, Option.elim] at h1 ⊢
        split_ifs at h2 ⊢ with hh
        · subst hh
          omega
        · omega
    · have := ha.file_le hleg h
      omega

theorem removeManifest {h : H} {cs : List H} (hl : {.release h cs} ≤ c)
    (hcs : mode ≠ .plain → ∀ m, s.chunkManifests.get h = some m → ∀ x, x ∈ m.chunkHashes ↔ x ∈ cs) :
    Accounts mode (s.removeManifest h cs).2 (c - {.release h cs} + 0 + rest) := by
  have htok := fileTokens_pos rest hl (h := h) (by simp [Token.names])
  cases hm : s.chunkManifests.get h with
  | none =>
    have hmr := manifestRefs_of_none hm
    have hs : (s.removeManifest h cs).2 = s := by simp [Store.removeManifest, hm]
    rw [hs, add_zero]
    by_cases hex : mode = .exact
    · subst hex
      have := ha.file_le (by decide) h
      omega
    · exact ha.mono hex (by gcongr; exact Multiset.sub_le_self _ _)
  | some m =>
    have hmr := manifestRefs_of_get hm
    have href : (s.removeManifest h cs).2.references = s.references := by
      funext x
      simp only [Store.removeManifest, hm]
      split_ifs <;> rfl
    obtain ⟨L, hL⟩ := ha
    refine ⟨L, hL.none, fun h' => ?_, fun hp x => ?_⟩
    · have h1 := hL.file h'
      have h2 := fileTokens_next hl 0 rest h'
      have h3 := manifestRefs_removeManifest s h cs h'
      have h4 := hL.exact h
      simp only [fileTokens_singleton, Token.names, decide_eq_true_eq, fileTokens_zero] at h2
      rw [href]
      by_cases hh : h = h'
      · subst hh
        cases mode <;> simp only [Mode.covers] at h1 ⊢ <;> simp at h4 <;> omega
      · rw [if_neg hh] at h2 h3
        exact h1.shift (by omega)
    · have h1 := hL.chunk hp x
      have h2 := chunkTokens_next hl 0 rest x
      have h3 := containing_removeManifest hm cs x
      have h4 := blobRefs_removeManifest hm cs x
      simp only [hcs hp m hm x] at h3
      simp only [chunkTokens_singleton, reduceCtorEq, if_false, chunkTokens_zero] at h2
      by_cases hx : m.refCount ≤ 1 ∧ x ∈ cs
      · cases mode <;> simp only [Mode.covers] at h1 ⊢ <;> omega
      · rw [if_neg hx] at h3 h4
        exact h1.shift (by omega)

end

theorem bumpBlob (ha : Accounts .legacy s (c + rest)) (h : H) : Accounts .legacy (s.bumpBlob h).2
      (c - 0 + (if (s.bumpBlob h).1 then {.file h} else 0) + rest) := by
  obtain ⟨L, hL⟩ := ha
  have hs := s.sameNames_bumpBlob h
  have hb := blobRefs_bumpBlob s h
  refine ⟨fun x => L x + if (s.bumpBlob h).1 = true ∧ h = x then 1 else 0,
    fun hne => absurd rfl hne, fun x => ?_, fun _ x => ?_⟩
  · have h1 := hL.file x
    rw [references_congr hs, manifestRefs_congr hs.manifests]
    cases hr : (s.bumpBlob h).1 <;> by_cases hh : h = x <;>
      simp [Mode.covers, hh, Token.names] at h1 ⊢ <;> omega
  · have h1 := hL.chunk (by decide) x
    rw [containing_congr hs.manifests, hb x]
    cases hr : (s.bumpBlob h).1 <;> by_cases hh : h = x <;>
      simp [Mode.covers, hh] at h1 ⊢ <;> omega

/-- A manifest is reaped only if no row names it. If no other program holds a reference on it either,
the accounts stay covered, whatever its counter said. -/
theorem reapManifests (ha : Accounts mode s (c + rest)) {pick : List H} (hn : pick.Nodup)
    (hk : ∀ h ∈ pick, h ∈ s.chunkManifests.keys ∧ s.references h = 0)
    (hrest : ∀ h ∈ pick, fileTokens rest h = 0) : Accounts mode (s.reapManifests pick).2
      (c.filter (fun t => ((s.reapManifests pick).1.any fun x => t.names x.1) = false) - 0 +
        chunksOfAll (Store.reapedChunks (s.reapManifests pick).1) + rest) := by
  have hmem : ∀ h, (∃ x ∈ (s.reapManifests pick).1, x.1 = h) ↔ h ∈ pick := by
    intro h
    simp only [Store.reapManifests, List.mem_filterMap, Option.map_eq_some_iff]
    constructor
    · rintro ⟨x, ⟨h', hp, m, -, rfl⟩, rfl⟩
      exact hp
    · intro hp
      obtain ⟨m, hm⟩ := Option.isSome_iff_exists.mp
        ((s.chunkManifests.mem_keys h).mp (hk h hp).1)
      exact ⟨_, ⟨h, hp, m, hm, rfl⟩, rfl⟩
  have htok : ∀ h, fileTokens (c.filter fun t =>
        ((s.reapManifests pick).1.any fun x => t.names x.1) = false) h =
      if h ∈ pick then 0 else fileTokens c h := by
    intro h
    simp only [fileTokens, Multiset.countP_filter]
    split_ifs with hp
    · rw [Multiset.countP_eq_zero]
      rintro t - ⟨ht, hv⟩
      obtain ⟨x, hx, rfl⟩ := (hmem h).mpr hp
      rw [List.any_eq_false] at hv
      exact hv x hx ht
    · refine Multiset.countP_congr rfl fun t _ => ?_
      simp only [eq_iff_iff, and_iff_left_iff_imp]
      intro ht
      rw [List.any_eq_false]
      intro x hx hxt
      refine hp ((hmem h).mp ⟨x, hx, ?_⟩)
      cases t <;> simp_all [Token.names]
  have hchunk : ∀ x, chunkTokens (c.filter fun t =>
      ((s.reapManifests pick).1.any fun x => t.names x.1) = false) x = chunkTokens c x := by
    intro x
    refine Multiset.count_filter_of_pos ?_
    simp [Token.names]
  obtain ⟨L, hL⟩ := ha
  refine ⟨L, hL.none, fun h => ?_, fun hp x => ?_⟩
  · have h1 := hL.file h
    have h2 := manifestRefs_reapManifests s pick h
    have h3 : (s.reapManifests pick).2.references h = s.references h := rfl
    have h4 := hL.exact h
    simp only [Multiset.sub_zero, fileTokens_add, htok, fileTokens_chunksOfAll, h2, h3] at h1 ⊢
    split_ifs with hpk
    · rw [(hk h hpk).2, hrest h hpk]
      cases mode <;> simp only [Mode.covers] <;> simp at h4 <;> omega
    · exact h1.shift (by omega)
  · have h1 := hL.chunk hp x
    have h2 := containing_reapManifests s hn x
    have h3 : (s.reapManifests pick).2.blobRefs x = s.blobRefs x := rfl
    simp only [Multiset.sub_zero, chunkTokens_add, hchunk, chunkTokens_chunksOfAll, h3] at h1 ⊢
    exact h1.shift (by omega)

/-- The delete trigger takes the reference from where it is counted. -/
theorem deleteFile (ha : Accounts mode s a) (id : FileId) :
    Accounts mode (s.deleteFile id).2 a := by
  cases hr : s.files.get id with
  | none =>
    have hs : (s.deleteFile id).2 = s := by simp [Store.deleteFile, hr]
    rwa [hs]
  | some r =>
    obtain ⟨L, hL⟩ := ha
    have hn := fun h => references_deleteFile hr h
    have hle : ∀ h, (s.chunkManifests.get h).isSome = false → mode ≠ .legacy →
        s.rowsOf id r h = 0 := by
      intro h hm hne
      have h1 := (Accounts.file_le ⟨L, hL⟩ hne h : s.references h + fileTokens a h ≤ _)
      rw [manifestRefs_of_isNone hm] at h1
      have := hn h
      omega
    refine ⟨fun h => L h - if (s.chunkManifests.get h).isSome then 0 else s.rowsOf id r h,
      fun hne h => by simp [hL.none hne h], fun h => ?_, fun hp x => ?_⟩
    · have h1 := hL.file h
      have h2 := manifestRefs_deleteFile hr h
      have h3 := hn h
      have h4 := hL.exact h
      cases hm : (s.chunkManifests.get h).isSome with
      | true =>
        simp only [if_true, Nat.sub_zero]
        cases mode <;> simp only [Mode.covers] at h1 ⊢ <;> simp at h4 <;> omega
      | false =>
        have h5 := manifestRefs_of_isNone hm
        simp only [Bool.false_eq_true, if_false]
        cases mode <;> simp only [Mode.covers] at h1 ⊢
        · have := hle h hm (by decide)
          omega
        · omega
        · have := hle h hm (by decide)
          have := h4 rfl
          omega
    · have h1 := hL.chunk hp x
      have h2 := blobRefs_deleteFile hr x
      have h3 := containing_deleteFile s id x
      have h4 := hL.file x
      have h5 := hn x
      cases hm : (s.chunkManifests.get x).isSome with
      | true =>
        rw [hm, if_pos rfl] at h2
        simp only [if_true, Nat.sub_zero]
        exact h1.shift (by omega)
      | false =>
        have h6 := manifestRefs_of_isNone hm
        rw [hm, if_neg (by decide)] at h2
        simp only [Bool.false_eq_true, if_false]
        cases mode <;> simp only [Mode.covers] at h1 h4 ⊢
        · exact absurd rfl hp
        · omega
        · have := hle x hm (by decide)
          omega

/-- A copied row finds its counter, because the row it is copied from is already covered. -/
theorem copyOne (ha : Accounts mode s a) {old new : FileId} {r : FileRow H}
    (hr : s.files.get old = some r) (hn : s.files.get new = none) (hfk : mode = .exact → s.AttachedFk)
    (folder : FolderId) (name : String) : Accounts mode (s.copyOne old new folder name) a := by
  obtain ⟨L, hL⟩ := ha
  have hle := fun h => rowsOf_le_references hr h
  refine ⟨fun h => L h + if (s.chunkManifests.get h).isSome then 0 else
      if mode = .legacy then s.rowsOf old r h else 0, fun hne h => by simp [hL.none hne h, hne],
    fun h => ?_, fun hp x => ?_⟩
  · have h1 := hL.file h
    have h2 := references_copyOne hr hn folder name h
    have h3 := manifestRefs_copyOne hr new folder name h
    have h4 := hle h
    have h5 := hL.none
    cases hm : (s.chunkManifests.get h).isSome with
    | true =>
      rw [hm, if_pos rfl] at h3
      simp only [if_true]
      cases mode <;> simp only [Mode.covers] at h1 ⊢
      · omega
      · omega
      · have h6 := (hfk rfl).count_new hn h
        omega
    | false =>
      rw [hm, if_neg (by decide)] at h3
      have h6 := manifestRefs_of_isNone hm
      cases mode <;> simp only [Mode.covers, reduceCtorEq, if_true, if_false] at h1 ⊢
      · have := h5 (by decide) h
        omega
      · omega
      · have := h5 (by decide) h
        omega
  · have h1 := hL.chunk hp x
    have h2 := blobRefs_copyOne hr new folder name x
    have h3 := containing_copyOne s old new folder name x
    have h4 := hle x
    have h5 := hL.file x
    have h6 := hL.none
    cases hm : (s.chunkManifests.get x).isSome with
    | true =>
      rw [hm, if_pos rfl] at h2
      simp only [if_true]
      exact h1.shift (by omega)
    | false =>
      rw [hm, if_neg (by decide)] at h2
      have h7 := manifestRefs_of_isNone hm
      have hrow : (s.blobs.get x).isSome = false → s.blobRefs x = 0 := by
        rw [Option.isSome_eq_false_iff, Option.isNone_iff_eq_none]
        exact blobRefs_of_none
      simp only [Bool.false_eq_true, if_false]
      cases mode <;> simp only [Mode.covers, reduceCtorEq, if_true, if_false] at h1 h5 ⊢
      · exact absurd rfl hp
      · cases hb : (s.blobs.get x).isSome with
        | true => rw [hb, if_pos rfl] at h2; omega
        | false => rw [hb, if_neg (by decide)] at h2; have := hrow hb; omega
      · have := h6 (by decide) x
        cases hb : (s.blobs.get x).isSome with
        | true => rw [hb, if_pos rfl] at h2; omega
        | false => rw [hb, if_neg (by decide)] at h2; omega

theorem copyList : ∀ {l : List CopySpec} {s : Store H}, Accounts mode s a → CopyOk s l →
    (mode = .exact → s.AttachedFk) →
    Accounts mode (l.foldl (fun s c => s.copyOne c.old c.new c.folder c.name) s) a
  | [], _, ha, _, _ => ha
  | x :: l, s, ha, hok, hfk => by
    obtain ⟨hnew, hold⟩ := hok.2 x (by simp)
    obtain ⟨r, hr, -⟩ := (Option.any_eq_true ..).mp hold
    have hn : s.files.get x.new = none := Option.isNone_iff_eq_none.mp hnew
    have hrest := copyList (l := l) (ha.copyOne hr hn hfk x.folder x.name) (hok.tail hr)
      fun hm => (hfk hm).copyOne hr
    exact hrest

end Accounts

/-! ### All statements -/

/-- The statements that, whatever their answer is, move the references they take to those they give. -/
def Moving : Op H → Prop
  | .pinExisting _ | .pinClaimable _ | .releaseChunks _ | .releaseBatch _ | .registerChunks _ | .registerOrphans _
  | .insertManifest .. | .bumpManifest _ | .cleanupOrphaned _ | .reapBlobs _ | .insertFile .. | .swapBlobHash ..
  | .insertDerived .. | .upsertAttached .. | .insertAttached .. => True
  | _ => False

theorem next_moving {op : Op H} (hop : Moving op) {r : op.Resp} {c : Multiset (Token H)} :
    (ledger H).next op s r c = c - loss op r + gain op s r := by
  cases op
  all_goals first | exact next_eq (fun _ => rfl) rfl | exact hop.elim

theorem Moves.exec {op : Op H} (hop : Moving op) {ch : Choice H} {s' : Store H} {r : op.Resp}
    (he : Machine.exec op ch s = some (r, s')) : Moves s s' (loss op r) (gain op s r) := by
  have hsame : Moves s s 0 0 := .refl s
  cases op with
  | pinExisting hs =>
    exact answer_elim he hsame (.pinExisting s hs)
  | pinClaimable hs =>
    exact answer_elim he hsame (.pinClaimable s hs ch.entitled)
  | releaseChunks hs =>
    exact answer_elim he hsame (.releaseChunks s hs)
  | releaseBatch batch =>
    exact answer_elim he hsame (.releaseBatch s batch)
  | registerChunks rows =>
    exact answer_elim he hsame (.registerChunks s rows)
  | registerOrphans rows =>
    exact answer_elim he hsame (.registerOrphans s rows)
  | insertManifest h m =>
    refine answer_elim he hsame ?_
    cases hi : (s.insertManifest h m).1 with
    | true => exact .insertManifest hi
    | false => rw [s.insertManifest_false hi]; exact hsame
  | bumpManifest h =>
    refine answer_elim he hsame ?_
    cases hi : (s.bumpManifest h).1 with
    | some n => exact .bumpManifest (by rw [hi]; rfl)
    | none => rw [s.bumpManifest_none hi]; exact hsame
  | cleanupOrphaned h =>
    exact answer_elim he hsame (.cleanupOrphaned s h)
  | reapBlobs grace =>
    simp only [Machine.exec] at he
    split_ifs at he with hb
    refine answer_elim he hsame ?_
    refine .reapBlobs fun h hh => ?_
    obtain ⟨b, hget, hz, -⟩ := (hb.2.1 h hh).2
    rw [blobRefs_of_get hget, hz]
  | insertFile folder name h =>
    simp only [Machine.exec] at he
    split_ifs at he with hid
    rw [Option.not_isSome_iff_eq_none] at hid
    refine answer_elim he hsame ?_
    rcases s.insertFile_cases folder name h ch.newId with hi | ⟨hi, hs⟩
    · rw [hi]
      exact .insertFile hid hi
    · rw [hs]
      rcases hi with hi | hi <;> rw [hi] <;> exact hsame
  | swapBlobHash id h expected =>
    refine answer_elim he hsame ?_
    have hunchanged : ∀ {x : Option (H × Bool)}, (s.swapBlobHash id h expected).1 = x →
        (∀ old, x ≠ some (old, true)) → (s.swapBlobHash id h expected).2 = s :=
      fun hi hne => swapBlobHash_unchanged (Prod.ext hi rfl) hne
    rcases hi : (s.swapBlobHash id h expected).1 with _ | ⟨old, _ | _⟩
    iterate 2
      · rw [hunchanged hi (by simp)]
        exact hsame
    · exact .swapBlobHash (Prod.ext hi rfl)
  | insertDerived k h =>
    refine answer_elim he hsame ?_
    cases hi : (s.insertDerived k h).1 with
    | true => exact .insertDerived hi
    | false => rw [s.insertDerived_false hi]; exact hsame
  | upsertAttached k h previous =>
    simp only [Machine.exec] at he
    split_ifs at he
    · exact answer_elim he hsame (.upsertAttached s k h)
    · cases he
      exact hsame
  | insertAttached k h =>
    simp only [Machine.exec] at he
    split_ifs at he
    · refine answer_elim he hsame ?_
      cases hi : (s.insertAttached k h).1 with
      | true => exact .insertAttached hi
      | false => rw [s.insertAttached_false hi]; exact hsame
    · cases he
      exact hsame
  | _ => exact hop.elim

/-- What the accounts need of a statement beyond the tokens: a reaped manifest is not held by another
program, a released manifest has the chunks its reader saw, legacy references are only taken where they
are accounted for, attached rows have their file, no derived row is negative. Legacy re-chunking is not
covered. -/
def Proper (mode : Mode) (s : Store H) (pick : List H) (rest : Multiset (Token H)) : Op H → Prop
  | .reapManifests => ∀ h ∈ pick, fileTokens rest h = 0
  | .removeManifest h cs => mode ≠ .plain → ∀ m, s.chunkManifests.get h = some m →
      ∀ x, x ∈ m.chunkHashes ↔ x ∈ cs
  | .bumpBlob _ => mode = .legacy
  | .copyFiles .. => mode = .exact → s.AttachedFk
  | .deleteDerived _ => mode = .exact → s.NoNegative
  | .rechunk .. => False
  | _ => True

/-- The statements that take or give back a reference, or are issued holding one, and whose failure no
caller makes good. -/
def settles : Op H → Bool
  | .releaseChunks _ | .releaseBatch _ | .insertManifest .. | .bumpManifest _ | .selectManifest _
  | .removeManifest .. | .removeLegacy _ | .insertDerived .. | .selectAttached _
  | .upsertAttached .. | .insertAttached .. => true
  | _ => false

/-- The foreign key of the attached rows. -/
def fkHolds (s : Store H) : Op H → Bool
  | .upsertAttached k _ _ | .insertAttached k _ => (s.files.get k.fileId).isSome
  | _ => true

/-- A statement that settles a reference does not fail. -/
def Works (op : Op H) (ch : Choice H) (s : Store H) : Prop :=
  settles op = true → ch.fault = false ∧ fkHolds s op = true

instance (op : Op H) (ch : Choice H) (s : Store H) : Decidable (Works op ch s) :=
  inferInstanceAs (Decidable (_ → _))

namespace Accounts

variable {mode : Mode} {s s' : Store H} {c rest : Multiset (Token H)}

/-- A statement that takes tokens and changes no counter. -/
theorem dropped (ha : Accounts mode s (c + rest)) {l : Multiset (Token H)}
    (hm : mode = .exact → l = 0) : Accounts mode s (c - l + 0 + rest) := by
  by_cases hex : mode = .exact
  · rw [hm hex, Multiset.sub_zero, add_zero]; exact ha
  · refine ha.mono hex ?_
    rw [add_zero]
    gcongr
    exact Multiset.sub_le_self _ _

/-- Statements that leave the five tables of the accounts alone. -/
theorem frame {a : Multiset (Token H)} (ha : Accounts mode s a) (h : SameRows s s') :
    Accounts mode s' a := by
  obtain ⟨L, hL⟩ := ha
  refine ⟨L, hL.none, fun x => ?_, fun hp x => ?_⟩
  · rw [references_congr h.toSameNames, manifestRefs_congr h.manifests]
    exact hL.file x
  · rw [containing_congr h.manifests, blobRefs_congr h.blobs]
    exact hL.chunk hp x

/-- **Every statement keeps the accounts.** -/
theorem exec {op : Op H} {ch : Choice H} {r : op.Resp} (ha : Accounts mode s (c + rest))
    (he : Machine.exec op ch s = some (r, s')) (hl : loss op r ≤ c)
    (hf : mode = .exact → Works op ch s) (hp : Proper mode s ch.pick rest op) :
    Accounts mode s' ((ledger H).next op s r c + rest) := by
  by_cases hq : op.Quiet
  · rw [next_quiet hq]
    exact ha.frame (quiet_exec hq he)
  by_cases hmove : Moving op
  · rw [next_moving hmove]
    exact ha.step hl (.exec hmove he)
  have hsame : Accounts mode s (c - 0 + 0 + rest) := by simpa using ha
  cases op with
  | bumpBlob h =>
    rw [next_eq (fun _ => rfl) rfl]
    obtain rfl : mode = .legacy := hp
    refine answer_elim he hsame ?_
    have hb := ha.bumpBlob h
    cases hi : (s.bumpBlob h).1 with
    | true | false => rw [hi] at hb; exact hb
  | selectManifest h =>
    rw [next_eq (fun _ => rfl) rfl]
    rcases answer_cases he with ⟨hfl, rfl, rfl⟩ | ⟨rfl, rfl⟩
    · exact ha.dropped fun hm => by rw [(hf hm rfl).1] at hfl; cases hfl
    · have hs := ha.selectManifest hl
      cases hm : s'.chunkManifests.get h with
      | some m | none => rw [hm] at hs; exact hs
  | removeManifest h cs =>
    rw [next_eq (fun _ => rfl) rfl]
    rcases answer_cases he with ⟨hfl, rfl, rfl⟩ | ⟨rfl, rfl⟩
    · exact ha.dropped fun hm => by rw [(hf hm rfl).1] at hfl; cases hfl
    · exact ha.removeManifest hl hp
  | removeLegacy h =>
    rw [next_eq (fun _ => rfl) rfl]
    rcases answer_cases he with ⟨hfl, rfl, rfl⟩ | ⟨rfl, rfl⟩
    · exact ha.dropped fun hm => by rw [(hf hm rfl).1] at hfl; cases hfl
    · exact ha.step hl (.removeLegacy s h)
  | deleteDerived h =>
    simp only [Machine.exec] at he
    split_ifs at he with ho
    have hc : c.filter (fun t => void (.deleteDerived h) r t = false) = c :=
      Multiset.filter_eq_self.mpr fun _ _ => rfl
    show Accounts mode s' (c.filter (fun t => void (.deleteDerived h) r t = false) -
      Multiset.replicate (spent (.deleteDerived h) r) .slot - loss (.deleteDerived h) r +
      gain (.deleteDerived h) s r + rest)
    rw [hc]
    rcases answer_cases he with ⟨-, rfl, rfl⟩ | ⟨rfl, rfl⟩
    · have h0 : Multiset.replicate (spent (.deleteDerived h) none) (.slot : Token H) = 0 := rfl
      rw [h0, Multiset.sub_zero]
      exact hsame
    · exact ha.deleteDerived ho (fun hm => (hp hm).deleteDerived ho) _
  | reapManifests =>
    simp only [Machine.exec] at he
    split_ifs at he with hb
    rcases answer_cases he with ⟨-, rfl, rfl⟩ | ⟨rfl, rfl⟩
    · rw [next_eq (fun _ => rfl) rfl]
      exact hsame
    · have hr := ha.reapManifests hb.1 hb.2.1 hp
      show Accounts mode _ (c.filter _ - Multiset.replicate 0 .slot - 0 + chunksOfAll _ + rest)
      rw [Multiset.replicate_zero, Multiset.sub_zero]
      exact hr
  | deleteFile id =>
    rw [next_eq (fun _ => rfl) rfl]
    exact answer_elim he hsame (hsame.deleteFile id)
  | copyFiles newFolders l =>
    simp only [Machine.exec] at he
    rw [next_eq (fun _ => rfl) rfl]
    have hadd : Accounts mode { s with folders := s.folders ∪ newFolders.toFinset } (c - 0 + 0 + rest) :=
      hsame.frame ⟨⟨rfl, rfl, rfl, rfl⟩, rfl⟩
    split_ifs at he with hok
    · exact answer_elim he hsame (hadd.copyList hok hp)
    · cases he
      exact hsame
  | rechunk h cs sizes => exact absurd hp id
  | _ => first | exact absurd trivial hmove | exact absurd trivial hq

end Accounts

end OxiCloud.Accounting
