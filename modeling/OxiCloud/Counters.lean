import OxiCloud.Machine

/-! # What the statements do to the counters

Four numbers per hash carry the reference accounting: `references` (rows that name the hash),
`manifestRefs` and `blobRefs` (the two stored counters), and `containing` (manifests that list the
hash as a chunk). This file says once, for every statement, how it changes them; the invariants of the
later files only use these equations. -/

namespace OxiCloud.Schema.Store

open Lib.Tables Table List

variable {H : Type}

variable {s : Store H} {h : H} {m : Manifest H} {id new old : FileId} {keys : List (DerivedKey H)}
  {r : FileRow H}

theorem manifestRefs_of_get
    (hm : s.chunkManifests.get h = some m) : s.manifestRefs h = m.refCount := by
  simp [manifestRefs, hm]

theorem manifestRefs_of_none (hm : s.chunkManifests.get h = none) : s.manifestRefs h = 0 := by
  simp [manifestRefs, hm]

theorem manifestRefs_of_isNone (hm : (s.chunkManifests.get h).isSome = false) :
    s.manifestRefs h = 0 :=
  manifestRefs_of_none (Option.isNone_iff_eq_none.mp (Option.isSome_eq_false_iff.mp hm))

theorem blobRefs_of_get {b : BlobRow} (hb : s.blobs.get h = some b) :
    s.blobRefs h = b.refCount := by
  simp [blobRefs, hb]

theorem blobRefs_of_none (hb : s.blobs.get h = none) : s.blobRefs h = 0 := by
  simp [blobRefs, hb]

theorem exists_manifest_of_pos (hp : 0 < s.manifestRefs h) :
    ∃ m, s.chunkManifests.get h = some m := by
  cases hm : s.chunkManifests.get h with
  | none => rw [manifestRefs_of_none hm] at hp; omega
  | some m => exact ⟨m, rfl⟩

theorem exists_blob_of_pos (hp : 0 < s.blobRefs h) : ∃ b, s.blobs.get h = some b := by
  cases hb : s.blobs.get h with
  | none => rw [blobRefs_of_none hb] at hp; omega
  | some b => exact ⟨b, rfl⟩

variable {s' : Store H}

theorem blobRefs_modify {f : H → BlobRow → BlobRow} (hs : s'.blobs = s.blobs.modify f) (h : H) :
    s'.blobRefs h = (s.blobs.get h).elim 0 fun b => (f h b).refCount := by
  rw [blobRefs, hs, get_modify]
  cases s.blobs.get h <;> rfl

theorem manifestRefs_congr (h : s'.chunkManifests = s.chunkManifests) :
    s'.manifestRefs = s.manifestRefs := by
  funext x
  simp [manifestRefs, h]

theorem blobRefs_congr (h : s'.blobs = s.blobs) : s'.blobRefs = s.blobRefs := by
  funext x
  simp [blobRefs, h]

section

variable (s : Store H)

theorem blobRefs_releaseBy (d : H → ℕ) (h : H) :
    (s.releaseBy d).blobRefs h = s.blobRefs h - d h := by
  rw [blobRefs_modify rfl]
  cases hb : s.blobs.get h with
  | none => simp [blobRefs_of_none hb]
  | some b => by_cases hd : d h = 0 <;> simp [blobRefs_of_get hb, hd, BlobRow.release]

theorem manifestRefs_decrementBlobRef (n : H → ℕ) (h : H) :
    (s.decrementBlobRef n).manifestRefs h = s.manifestRefs h - n h := by
  simp only [manifestRefs, decrementBlobRef, releaseBy, get_modify]
  cases s.chunkManifests.get h <;> simp

theorem blobRefs_decrementBlobRef (n : H → ℕ) (h : H) : (s.decrementBlobRef n).blobRefs h =
      s.blobRefs h - if (s.chunkManifests.get h).isSome then 0 else n h :=
  blobRefs_releaseBy ..

theorem manifestRefs_addBlobReferences (n : H → ℕ) (h : H) :
    (s.addBlobReferences n).manifestRefs h =
      s.manifestRefs h + if (s.chunkManifests.get h).isSome then n h else 0 := by
  simp only [manifestRefs, addBlobReferences, get_modify]
  cases s.chunkManifests.get h <;> simp

theorem blobRefs_addBlobReferences (n : H → ℕ) (h : H) :
    (s.addBlobReferences n).blobRefs h = s.blobRefs h +
      if (s.chunkManifests.get h).isSome then 0 else if (s.blobs.get h).isSome then n h else 0 := by
  rw [blobRefs_modify rfl]
  cases hb : s.blobs.get h with
  | none => simp [blobRefs_of_none hb]
  | some b =>
    by_cases hm : (s.chunkManifests.get h).isSome = true
    · simp [hm, blobRefs_of_get hb]
    · by_cases hn : n h = 0 <;> simp [hm, hn, blobRefs_of_get hb, BlobRow.pin]

theorem isSome_addBlobReferences (n : H → ℕ) (h : H) :
    ((s.addBlobReferences n).chunkManifests.get h).isSome = (s.chunkManifests.get h).isSome ∧
      ((s.addBlobReferences n).blobs.get h).isSome = (s.blobs.get h).isSome := by
  constructor
  · simp [addBlobReferences]
  · simp [addBlobReferences]

theorem insertFile_cases (folder : FolderId) (name : String) (h : H) (id : FileId) :
    (s.insertFile folder name h id).1 = .inserted id ∨
      (((s.insertFile folder name h id).1 = .noParent ∨ (s.insertFile folder name h id).1 = .conflict) ∧
        (s.insertFile folder name h id).2 = s) := by
  unfold insertFile
  split_ifs <;> simp

end

theorem insertAttached_false {k : AttachedKey}
    (hi : (s.insertAttached k h).1 = false) : (s.insertAttached k h).2 = s := by
  unfold insertAttached at hi ⊢
  cases hk : s.fileAttachedBlobs.get k with
  | some old => rfl
  | none => simp [hk] at hi

variable (t : Table AttachedKey H)

theorem get_copyRows (old new : FileId) (k : AttachedKey) :
    (copyRows t old new).get k = t.get (if k.fileId = new then { k with fileId := old } else k) := by
  show (if k ∈ _ then _ else none) = _
  rw [ite_eq_left_iff]
  intro hk
  simp only [Finset.mem_union, Finset.mem_image, not_or, not_exists, not_and] at hk
  by_cases hn : k.fileId = new
  · subst hn
    by_contra hne
    simp only [↓reduceIte] at hne
    refine hk.2 { k with fileId := old } ?_ rfl
    rw [t.mem_keys]
    exact Option.isSome_iff_ne_none.mpr (Ne.symm hne)
  · rw [if_neg hn]
    by_contra hne
    exact hk.1 ((t.mem_keys k).mpr (Option.isSome_iff_ne_none.mpr (Ne.symm hne)))

/-! ### The chunk decrements of the garbage collector -/

/-- A row stamped by the first of two decrements is stamped by the second. -/
theorem release_release (now n n' : ℕ) (b : BlobRow) :
    (b.release now n).release now n' = b.release now (n + n') := by
  by_cases hz : b.refCount - n - n' = 0
  · simp [BlobRow.release, Nat.sub_add_eq, hz]
  · have hn : b.refCount - n ≠ 0 := by omega
    simp [BlobRow.release, Nat.sub_add_eq, hz, hn]

theorem releaseBy_releaseBy (s : Store H) (d e : H → ℕ) :
    (s.releaseBy d).releaseBy e = s.releaseBy fun h => d h + e h := by
  have hrows : ((s.releaseBy d).releaseBy e).blobs = (s.releaseBy fun h => d h + e h).blobs := by
    ext1 h
    simp only [releaseBy, get_modify, Option.map_map]
    congr 1
    funext b
    by_cases hd : d h = 0 <;> by_cases he : e h = 0 <;> simp [hd, he, release_release]
  exact congrArg (fun rows => { s with blobs := rows }) hrows

variable [DecidableEq H]

/-- The `HashMap` `decrements`: one for every manifest with the chunk, however often it lists it. -/
def decrements (batch : List (List H)) : H → ℕ :=
  (batch.flatMap List.dedup).foldl (fun d h => Function.update d h (d h + 1)) fun _ => 0

/-- The chunk decrement of one batch of phase 1. -/
def gcChunkRefs (s : Store H) : List (List H) → Store H
  | [chunks] => s.releaseChunks chunks
  | batch => s.releaseBy (decrements batch)

theorem foldl_count (l : List H) (d : H → ℕ) (h : H) :
    l.foldl (fun d h => Function.update d h (d h + 1)) d h = d h + l.count h := by
  induction l generalizing d with
  | nil => rfl
  | cons x l ih =>
    rw [foldl_cons, ih, count_cons]
    by_cases hx : x = h
    · subst hx
      simp only [Function.update_self, beq_self_eq_true, if_true]
      omega
    · simp [Function.update_of_ne (Ne.symm hx), hx]

theorem decrements_eq (batch : List (List H)) (h : H) :
    decrements batch h = batch.countP fun chunks => h ∈ chunks := by
  rw [decrements, foldl_count, Nat.zero_add]
  induction batch with
  | nil => rfl
  | cons chunks batch ih =>
    rw [flatMap_cons, count_append, ih, countP_cons, count_dedup, Nat.add_comm]
    simp

theorem foldl_releaseChunks (l : List (List H)) (s : Store H) :
    l.foldl releaseChunks s = s.releaseBatch l := by
  induction l generalizing s with
  | nil =>
    refine congrArg (fun rows => { s with blobs := rows }) (Table.ext fun h => ?_)
    simp
  | cons chunks l ih =>
    rw [foldl_cons, ih, releaseBatch, releaseChunks, releaseBy_releaseBy]
    refine congrArg s.releaseBy (funext fun h => ?_)
    rw [countP_cons, Nat.add_comm]
    simp

/-- **The decrement of a batch is that of its manifests one by one, in any order.** -/
theorem gcChunkRefs_eq (s : Store H) {batch l : List (List H)} (hl : l.Perm batch) :
    s.gcChunkRefs batch = l.foldl releaseChunks s := by
  have hbatch : s.releaseBy (decrements batch) = s.releaseBatch batch :=
    congrArg s.releaseBy (funext (decrements_eq batch))
  have hfold : l.foldl releaseChunks s = s.releaseBatch batch := by
    rw [foldl_releaseChunks]
    exact congrArg s.releaseBy (funext fun h => hl.countP_eq _)
  rw [hfold, ← hbatch]
  unfold gcChunkRefs
  split
  · rw [hbatch, ← foldl_releaseChunks]
    rfl
  · rfl

/-- Two manifests share a chunk that the first lists twice and whose counter is too low. -/
theorem gcChunkRefs_eq_shared :
    gcChunkRefs { fresh ∅ with blobs := Table.empty.set 0 ⟨7, 1, none⟩ } [[0, 0], [1, 0]] =
      [[1, 0], [0, 0]].foldl releaseChunks { fresh ∅ with blobs := Table.empty.set 0 ⟨7, 1, none⟩ } :=
  gcChunkRefs_eq _ (.swap ..)

/-! ### Frames -/

section Frames
open Machine

theorem references_congr {s s' : Store H} (h : SameNames s s') : s'.references = s.references := by
  funext x
  simp [references, filesNaming, derivedNaming, attachedNaming, h.files, h.derived, h.attached]

theorem containing_congr {s s' : Store H} (h : s'.chunkManifests = s.chunkManifests) :
    s'.containing = s.containing := by
  funext x
  simp [containing, h]

theorem sameNames_bumpBlob (s : Store H) (h : H) : SameNames s (s.bumpBlob h).2 := by
  unfold bumpBlob
  cases s.blobs.get h <;> exact ⟨rfl, rfl, rfl, rfl⟩

theorem sameNames_removeLegacy (s : Store H) (h : H) : SameNames s (s.removeLegacy h).2 := by
  unfold removeLegacy
  cases s.blobs.get h with
  | none => exact ⟨rfl, rfl, rfl, rfl⟩
  | some b => dsimp only; split_ifs <;> exact ⟨rfl, rfl, rfl, rfl⟩

theorem sameNames_cleanupOrphaned (s : Store H) (h : H) : SameNames s (s.cleanupOrphaned h).2 := by
  unfold cleanupOrphaned
  cases s.blobs.get h with
  | none => exact ⟨rfl, rfl, rfl, rfl⟩
  | some b => dsimp only; split_ifs <;> exact ⟨rfl, rfl, rfl, rfl⟩

end Frames

/-! ### Chunk rows -/

section

variable (s : Store H)

theorem blobRefs_pinExisting (hs : List H) (h : H) : (s.pinExisting hs).2.blobRefs h =
      s.blobRefs h + if h ∈ (s.pinExisting hs).1 then 1 else 0 := by
  rw [blobRefs_modify rfl]
  cases hb : s.blobs.get h with
  | none => simp [blobRefs_of_none hb, pinExisting, hb]
  | some b =>
    by_cases hm : h ∈ hs <;> simp [blobRefs_of_get hb, pinExisting, hb, hm, BlobRow.pin]

theorem blobRefs_pinClaimable (hs entitled : List H) (h : H) :
    (s.pinClaimable hs entitled).2.blobRefs h =
      s.blobRefs h + if h ∈ (s.pinClaimable hs entitled).1 then 1 else 0 := by
  rw [blobRefs_modify rfl]
  cases hb : s.blobs.get h with
  | none => simp [blobRefs_of_none hb, pinClaimable, hb]
  | some b =>
    by_cases hm : h ∈ hs <;> by_cases hc : claimable hs entitled h b = true <;>
      simp_all [blobRefs_of_get hb, pinClaimable, claimable]

theorem blobRefs_releaseChunks (hs : List H) (h : H) :
    (s.releaseChunks hs).blobRefs h = s.blobRefs h - if h ∈ hs then 1 else 0 :=
  blobRefs_releaseBy ..

theorem blobRefs_releaseBatch (batch : List (List H)) (h : H) :
    (s.releaseBatch batch).blobRefs h = s.blobRefs h - batch.countP fun chunks => h ∈ chunks :=
  blobRefs_releaseBy ..

theorem blobRefs_registerChunks (rows : List (H × ℕ)) (h : H) : (s.registerChunks rows).blobRefs h =
      s.blobRefs h + if h ∈ rows.map Prod.fst then 1 else 0 := by
  have hl := lookup_eq_none (l := rows) (k := h)
  simp only [blobRefs, registerChunks, get_upsert]
  cases hr : rows.lookup h with
  | none => simp [hl.mp hr]
  | some n =>
    have hm : h ∈ rows.map Prod.fst := by
      by_contra hn
      rw [hl.mpr hn] at hr
      cases hr
    cases s.blobs.get h <;> simp [hm, BlobRow.pin]

theorem blobRefs_registerOrphans (rows : List (H × ℕ)) (h : H) :
    (s.registerOrphans rows).blobRefs h = s.blobRefs h := by
  simp only [blobRefs, registerOrphans, get_upsert]
  cases rows.lookup h with
  | none => rfl
  | some n => cases s.blobs.get h <;> rfl

theorem blobRefs_bumpBlob (h h' : H) : (s.bumpBlob h).2.blobRefs h' =
      s.blobRefs h' + if (s.bumpBlob h).1 = true ∧ h = h' then 1 else 0 := by
  unfold bumpBlob
  cases hb : s.blobs.get h with
  | none => simp
  | some b =>
    by_cases hh : h' = h
    · subst hh; simp [blobRefs, hb, BlobRow.pin]
    · simp [blobRefs, get_set_ne _ _ hh, Ne.symm hh]

theorem blobRefs_removeLegacy (h h' : H) :
    (s.removeLegacy h).2.blobRefs h' = s.blobRefs h' - if h = h' then 1 else 0 := by
  unfold removeLegacy
  cases hb : s.blobs.get h with
  | none =>
    by_cases hh : h = h'
    · subst hh; simp [blobRefs_of_none hb]
    · simp [hh]
  | some b =>
    by_cases hh : h' = h
    · subst hh
      by_cases h1 : b.refCount - 1 = 0 <;> simp [blobRefs, hb, h1, enqueueDeletions]
    · by_cases h1 : b.refCount - 1 = 0 <;>
        simp [blobRefs, h1, enqueueDeletions, get_set_ne _ _ hh, get_erase_ne _ hh,
          Ne.symm hh]

theorem blobRefs_cleanupOrphaned (h h' : H) :
    (s.cleanupOrphaned h).2.blobRefs h' = s.blobRefs h' := by
  unfold cleanupOrphaned
  cases hb : s.blobs.get h with
  | none => rfl
  | some b =>
    by_cases h1 : b.refCount = 0 ∧ s.containing h = 0
    · by_cases hh : h' = h
      · subst hh; simp [blobRefs, hb, h1, enqueueDeletions]
      · simp [blobRefs, h1, enqueueDeletions, get_erase_ne _ hh]
    · simp [h1]

end

variable {pick : List H}

theorem blobRefs_reapBlobs (hp : ∀ h ∈ pick, s.blobRefs h = 0) (h : H) :
    (s.reapBlobs pick).2.blobRefs h = s.blobRefs h := by
  have hd := hp h
  simp only [blobRefs, reapBlobs, enqueueDeletions, get_filter] at hd ⊢
  cases hb : s.blobs.get h with
  | none => rfl
  | some b => by_cases hm : h ∈ pick <;> simp_all [Option.filter]

/-! ### Manifests -/

theorem manifestRefs_insertManifest (s : Store H) (h : H) (m : Manifest H) (h' : H) :
    (s.insertManifest h m).2.manifestRefs h' =
      s.manifestRefs h' + if (s.insertManifest h m).1 = true ∧ h = h' then m.refCount else 0 := by
  unfold insertManifest
  cases hm : s.chunkManifests.get h with
  | some _ => simp
  | none =>
    by_cases hh : h' = h
    · subst hh; simp [manifestRefs, hm]
    · simp [manifestRefs, get_set_ne _ _ hh, Ne.symm hh]

theorem containing_insertManifest (s : Store H) (h : H) (m : Manifest H) (c : H) :
    (s.insertManifest h m).2.containing c = s.containing c +
      if (s.insertManifest h m).1 = true ∧ c ∈ m.chunkHashes then 1 else 0 := by
  unfold insertManifest
  cases hm : s.chunkManifests.get h with
  | some _ => simp
  | none => simp [containing, count_set_new hm]

theorem insertManifest_false
    (hi : (s.insertManifest h m).1 = false) : (s.insertManifest h m).2 = s := by
  unfold insertManifest at hi ⊢
  cases hm : s.chunkManifests.get h with
  | some _ => rfl
  | none => simp [hm] at hi

theorem manifestRefs_bumpManifest (s : Store H) (h h' : H) : (s.bumpManifest h).2.manifestRefs h' =
      s.manifestRefs h' + if (s.bumpManifest h).1.isSome = true ∧ h = h' then 1 else 0 := by
  unfold bumpManifest
  cases hm : s.chunkManifests.get h with
  | none => simp
  | some m =>
    by_cases hh : h' = h
    · subst hh; simp [manifestRefs, hm]
    · simp [manifestRefs, get_set_ne _ _ hh, Ne.symm hh]

theorem bumpManifest_none (hi : (s.bumpManifest h).1 = none) : (s.bumpManifest h).2 = s := by
  unfold bumpManifest at hi ⊢
  cases hm : s.chunkManifests.get h with
  | none => rfl
  | some m => simp [hm] at hi

theorem containing_bumpManifest (s : Store H) (h c : H) :
    (s.bumpManifest h).2.containing c = s.containing c := by
  unfold bumpManifest
  cases hm : s.chunkManifests.get h with
  | none => rfl
  | some m => exact count_set_same hm rfl

theorem manifestRefs_removeManifest (s : Store H) (h : H) (cs : List H) (h' : H) :
    (s.removeManifest h cs).2.manifestRefs h' = s.manifestRefs h' - if h = h' then 1 else 0 := by
  unfold removeManifest
  cases hm : s.chunkManifests.get h with
  | none =>
    by_cases hh : h = h'
    · subst hh; simp [manifestRefs_of_none hm]
    · simp [hh]
  | some m =>
    by_cases hh : h' = h
    · subst hh
      by_cases h1 : m.refCount ≤ 1 <;> simp [manifestRefs, hm, h1, releaseChunks, releaseBy]
    · by_cases h1 : m.refCount ≤ 1 <;>
        simp [manifestRefs, h1, releaseChunks, releaseBy, get_erase_ne _ hh, get_set_ne _ _ hh, Ne.symm hh]

/-- A release that removes the manifest drops one reference of each chunk it is given and the manifest
from the chunks it lists. If the two lists have the same elements, the chunk level stays balanced. -/
theorem containing_removeManifest (hm : s.chunkManifests.get h = some m) (cs : List H) (c : H) :
    (s.removeManifest h cs).2.containing c +
        (if m.refCount ≤ 1 ∧ c ∈ m.chunkHashes then 1 else 0) = s.containing c := by
  simp only [removeManifest, hm]
  by_cases h1 : m.refCount ≤ 1
  · have := count_erase s.chunkManifests (fun _ m => decide (c ∈ m.chunkHashes)) h
    simpa [h1, containing, releaseChunks, releaseBy, hm] using this
  · have hsame : ({ m with refCount := m.refCount - 1 } : Manifest H).chunkHashes = m.chunkHashes :=
      rfl
    simpa [h1, containing] using
      count_set_same (p := fun _ m => decide (c ∈ m.chunkHashes)) hm (by rw [hsame])

theorem blobRefs_removeManifest (hm : s.chunkManifests.get h = some m) (cs : List H) (c : H) :
    (s.removeManifest h cs).2.blobRefs c =
      s.blobRefs c - if m.refCount ≤ 1 ∧ c ∈ cs then 1 else 0 := by
  simp only [removeManifest, hm]
  by_cases h1 : m.refCount ≤ 1
  · simp only [h1, ↓reduceIte, blobRefs_releaseChunks, true_and]
    rfl
  · simp only [h1, ↓reduceIte, false_and, Nat.sub_zero]
    rfl

theorem manifestRefs_reapManifests (s : Store H) (pick : List H) (h : H) :
    (s.reapManifests pick).2.manifestRefs h = if h ∈ pick then 0 else s.manifestRefs h := by
  simp only [manifestRefs, reapManifests, get_filter]
  cases s.chunkManifests.get h with
  | none => simp
  | some m => by_cases hp : h ∈ pick <;> simp [hp, Option.filter]

/-- The chunk lists of the manifests a batch returns. -/
def reapedChunks (batch : List (H × List H × ℕ)) : List (List H) := batch.map fun x => x.2.1

theorem count_eq_countP {K V : Type} [DecidableEq K] (t : Table K V) (p : K → V → Bool) {keys : List K}
    (hn : keys.Nodup) :
    t.count (fun k v => decide (k ∈ keys) && p k v) = keys.countP fun k => (t.get k).any (p k) := by
  have hs : t.sat (fun k v => decide (k ∈ keys) && p k v) =
      (keys.filter fun k => (t.get k).any (p k)).toFinset := by
    ext k
    simp only [mem_sat, mem_toFinset, mem_filter]
    cases t.get k <;> simp
  rw [Table.count, hs, toFinset_card_of_nodup (hn.filter _), countP_eq_length_filter]

theorem count_reaped (s : Store H) (hn : pick.Nodup) (c : H) :
    s.chunkManifests.count (fun h m => decide (h ∈ pick) && decide (c ∈ m.chunkHashes)) =
      (reapedChunks (s.reapManifests pick).1).countP fun chunks => decide (c ∈ chunks) := by
  refine (count_eq_countP s.chunkManifests (fun _ m => decide (c ∈ m.chunkHashes)) hn).trans ?_
  clear hn
  rw [reapedChunks, countP_map]
  induction pick with
  | nil => rfl
  | cons h pick ih =>
    rw [countP_cons, ih]
    simp only [reapManifests, filterMap_cons]
    rcases s.chunkManifests.get h with _ | m
    · simp
    · simp [countP_cons]

theorem containing_reapManifests (s : Store H) (hn : pick.Nodup) (c : H) :
    (s.reapManifests pick).2.containing c +
      (reapedChunks (s.reapManifests pick).1).countP (fun chunks => decide (c ∈ chunks)) =
        s.containing c := by
  rw [← count_reaped s hn]
  have := count_filter s.chunkManifests (fun _ m => decide (c ∈ m.chunkHashes))
    (fun h _ => decide (h ∉ pick))
  simpa [containing, reapManifests, Bool.and_comm] using this

/-! ### Rows that hold references -/

theorem references_insertFile (hid : s.files.get id = none)
    (folder : FolderId) (name : String) (h h' : H) :
    (s.insertFile folder name h id).2.references h' = s.references h' +
      if (s.insertFile folder name h id).1 = .inserted id ∧ h = h' then 1 else 0 := by
  unfold insertFile
  by_cases h1 : folder ∈ s.folders
  · by_cases h2 : s.nameTaken folder name = true
    · simp [h1, h2]
    · simp only [h1, h2, not_true_eq_false, Bool.false_eq_true, ↓reduceIte, references, filesNaming,
        derivedNaming, attachedNaming, count_set_new hid, decide_eq_true_eq, true_and]
      omega
  · simp [h1]

/-- A successful swap moves one reference from the old hash to the new one. -/
theorem references_swapBlobHash {old : H} {expected : Option H}
    (hs : s.swapBlobHash id h expected = (some (old, true), s')) (h' : H) :
    s'.references h' + (if old = h' then 1 else 0) =
      s.references h' + if h = h' then 1 else 0 := by
  unfold swapBlobHash at hs
  cases hr : s.files.get id with
  | none => simp [hr] at hs
  | some r =>
    simp only [hr] at hs
    split_ifs at hs with he
    · obtain ⟨rfl, rfl⟩ := hs
      have := count_set s.files (fun _ r => decide (r.blobHash = h')) id
        { r with blobHash := h }
      simp only [hr, Option.any_some, decide_eq_true_eq] at this
      simp only [references, filesNaming, derivedNaming, attachedNaming]
      omega
    · simp at hs

theorem swapBlobHash_unchanged {expected : Option H} {r : Option (H × Bool)}
    (hs : s.swapBlobHash id h expected = (r, s')) (hr : ∀ old, r ≠ some (old, true)) : s' = s := by
  unfold swapBlobHash at hs
  cases hf : s.files.get id with
  | none => simp only [hf, Prod.mk.injEq] at hs; exact hs.2.symm
  | some row =>
    simp only [hf] at hs
    split_ifs at hs with he
    · simp only [Prod.mk.injEq] at hs; exact absurd hs.1.symm (hr _)
    · simp only [Prod.mk.injEq] at hs; exact hs.2.symm

theorem references_insertDerived (s : Store H) (k : DerivedKey H) (h h' : H) :
    (s.insertDerived k h).2.references h' = s.references h' +
      if (s.insertDerived k h).1 = true ∧ h = h' then 1 else 0 := by
  unfold insertDerived
  by_cases h1 : (((s.chunkManifests.get k.sourceHash).isSome ||
      (s.blobs.get k.sourceHash).isSome) && (s.contentDerivedBlobs.get k).isNone) = true
  · have hk : s.contentDerivedBlobs.get k = none := by
      rw [Bool.and_eq_true, Option.isNone_iff_eq_none] at h1
      exact h1.2
    simp only [h1, ↓reduceIte, references, filesNaming, derivedNaming, attachedNaming,
      count_set_new hk, decide_eq_true_eq, Option.some.injEq, true_and]
    omega
  · simp [h1]

theorem insertDerived_false {k : DerivedKey H}
    (hi : (s.insertDerived k h).1 = false) : (s.insertDerived k h).2 = s := by
  unfold insertDerived at hi ⊢
  split_ifs at hi ⊢
  rfl

/-- The upsert moves one reference from the superseded hash, if any, to the new one. -/
theorem references_upsertAttached (s : Store H) (k : AttachedKey) (h h' : H) :
    (s.upsertAttached k h).references h' +
        (if s.fileAttachedBlobs.get k = some h' then 1 else 0) =
      s.references h' + if h = h' then 1 else 0 := by
  have := count_set s.fileAttachedBlobs (fun _ r => decide (r = h')) k h
  simp only [references, upsertAttached, attachedNaming, filesNaming, derivedNaming]
  cases hk : s.fileAttachedBlobs.get k with
  | none => simp_all; omega
  | some old => simp_all; omega

theorem references_insertAttached (s : Store H) (k : AttachedKey) (h h' : H) :
    (s.insertAttached k h).2.references h' = s.references h' +
      if (s.insertAttached k h).1 = true ∧ h = h' then 1 else 0 := by
  unfold insertAttached
  cases hk : s.fileAttachedBlobs.get k with
  | some old => simp
  | none =>
    simp only [references, attachedNaming, filesNaming, derivedNaming, count_set_new hk,
      decide_eq_true_eq, true_and]
    omega

/-- No derived row is negative. -/
def NoNegative (s : Store H) : Prop := ∀ k r, s.contentDerivedBlobs.get k = some r → r ≠ none

theorem NoNegative.deleteDerived (hs : s.NoNegative) (ho : s.DerivedOrder h keys) :
    none ∉ (s.deleteDerived h keys).1 := by
  intro hn
  obtain ⟨k, hk, hj⟩ := mem_map.mp hn
  rw [← mem_toFinset, ho.2, mem_sat] at hk
  obtain ⟨v, hv, -⟩ := hk
  rw [hv] at hj
  exact hs k v hv hj

theorem count_derivedOrder (ho : s.DerivedOrder h keys) (p : DerivedKey H → Option H → Bool) :
    s.contentDerivedBlobs.count (fun k r => p k r && !decide (k.sourceHash ≠ h)) =
      keys.countP fun k => (s.contentDerivedBlobs.get k).any (p k) := by
  refine (count_congr fun k => ?_).trans (count_eq_countP _ p ho.1)
  rcases hk : s.contentDerivedBlobs.get k with _ | r
  · rfl
  · have hmem : k ∈ keys ↔ k.sourceHash = h := by
      rw [← mem_toFinset, ho.2, mem_sat]
      simp [hk]
    by_cases h1 : k.sourceHash = h <;> simp [hmem, h1]

/-- The rows a purge deletes, as the references it has to release. -/
theorem references_deleteDerived (ho : s.DerivedOrder h keys) (h' : H) :
    (s.deleteDerived h keys).2.references h' + (s.deleteDerived h keys).1.count (some h') =
      s.references h' := by
  have hf := count_filter s.contentDerivedBlobs (fun _ r => decide (r = some h'))
    (fun k _ => decide (k.sourceHash ≠ h))
  have hl : (s.deleteDerived h keys).1.count (some h') =
      keys.countP fun k => (s.contentDerivedBlobs.get k).any fun r => decide (r = some h') := by
    simp only [deleteDerived, List.count, countP_map]
    refine countP_congr fun k _ => ?_
    simp only [Function.comp_apply, beq_iff_eq]
    cases hk : s.contentDerivedBlobs.get k <;> simp
  rw [count_derivedOrder ho fun _ r => decide (r = some h'), ← hl] at hf
  simp only [references, derivedNaming, filesNaming, attachedNaming]
  simp only [deleteDerived] at hf ⊢
  omega

/-- The number of rows of `contentDerivedBlobs`. -/
def derivedRows (s : Store H) : ℕ := s.contentDerivedBlobs.count fun _ _ => true

theorem derivedRows_deleteDerived (ho : s.DerivedOrder h keys) :
    (s.deleteDerived h keys).2.derivedRows + (s.deleteDerived h keys).1.length = s.derivedRows := by
  have hf := count_filter s.contentDerivedBlobs (fun _ _ => true)
    (fun k _ => decide (k.sourceHash ≠ h))
  have hall : keys.countP (fun k => (s.contentDerivedBlobs.get k).any fun _ => true) =
      keys.length := by
    rw [countP_eq_length]
    intro k hk
    rw [← mem_toFinset, ho.2, mem_sat] at hk
    obtain ⟨v, hv, -⟩ := hk
    simp [hv]
  rw [count_derivedOrder ho fun _ _ => true, hall] at hf
  simpa [derivedRows, deleteDerived] using hf

theorem derivedRows_insertDerived {k : DerivedKey H}
    (hi : (s.insertDerived k h).1 = true) : (s.insertDerived k h).2.derivedRows = s.derivedRows + 1 := by
  unfold insertDerived at hi ⊢
  split_ifs at hi ⊢ with h1
  rw [Bool.and_eq_true, Option.isNone_iff_eq_none] at h1
  simp only [derivedRows, count_set_new h1.2, if_true]

/-! ### Deleting and copying files -/

/-- The rows naming `h` that hang on the file `id`, whose row is `r`: the file row itself and its
attached rows. -/
def rowsOf (s : Store H) (id : FileId) (r : FileRow H) (h : H) : ℕ :=
  (if r.blobHash = h then 1 else 0) + s.fileAttachedBlobs.count fun k r => k.fileId = id && r = h

theorem containing_decrementBlobRef (s : Store H) (n : H → ℕ) (c : H) :
    (s.decrementBlobRef n).containing c = s.containing c :=
  count_modify fun _ _ _ => rfl

theorem containing_addBlobReferences (s : Store H) (n : H → ℕ) (c : H) :
    (s.addBlobReferences n).containing c = s.containing c :=
  count_modify fun _ _ _ => rfl

theorem references_deleteFile (hr : s.files.get id = some r) (h : H) :
    (s.deleteFile id).2.references h + s.rowsOf id r h = s.references h := by
  have hf := count_erase s.files (fun _ r => decide (r.blobHash = h)) id
  have ha := count_filter s.fileAttachedBlobs (fun _ r => decide (r = h))
    (fun k _ => decide (k.fileId ≠ id))
  have he : s.fileAttachedBlobs.count (fun k r => decide (r = h) && !decide (k.fileId ≠ id)) =
      s.fileAttachedBlobs.count fun k r => decide (k.fileId = id) && decide (r = h) := by
    simp [Bool.and_comm]
  simp only [hr, Option.any_some, decide_eq_true_eq] at hf
  simp only [deleteFile, hr, decrementBlobRef, releaseBy, references, filesNaming, derivedNaming,
    attachedNaming, rowsOf]
  omega

theorem manifestRefs_deleteFile (hr : s.files.get id = some r) (h : H) :
    (s.deleteFile id).2.manifestRefs h = s.manifestRefs h - s.rowsOf id r h := by
  simp only [deleteFile, hr, manifestRefs_decrementBlobRef]
  rfl

theorem blobRefs_deleteFile (hr : s.files.get id = some r) (h : H) :
    (s.deleteFile id).2.blobRefs h =
      s.blobRefs h - if (s.chunkManifests.get h).isSome then 0 else s.rowsOf id r h := by
  simp only [deleteFile, hr, blobRefs_decrementBlobRef]
  rfl

theorem containing_deleteFile (s : Store H) (id : FileId) (c : H) :
    (s.deleteFile id).2.containing c = s.containing c := by
  unfold deleteFile
  cases s.files.get id with
  | none => rfl
  | some r => exact containing_decrementBlobRef ..

/-- The copied rows, counted as the rows of the original. -/
theorem count_copied (old new : FileId) (h : H) :
    (copyRows t old new).count (fun k r => decide (r = h) && decide (k.fileId = new)) =
      t.count fun k r => decide (k.fileId = old) && decide (r = h) := by
  refine Finset.card_bij (fun k _ => { k with fileId := old }) ?_ ?_ ?_
  · intro k hk
    simp only [mem_sat, get_copyRows, Bool.and_eq_true, decide_eq_true_eq] at hk ⊢
    obtain ⟨v, hv, rfl, hn⟩ := hk
    exact ⟨v, by simpa [hn] using hv, trivial, rfl⟩
  · intro k₁ h₁ k₂ h₂ he
    simp only [mem_sat, Bool.and_eq_true, decide_eq_true_eq] at h₁ h₂
    obtain ⟨-, -, -, hn₁⟩ := h₁
    obtain ⟨-, -, -, hn₂⟩ := h₂
    cases k₁; cases k₂
    simp_all
  · intro k hk
    simp only [mem_sat, Bool.and_eq_true, decide_eq_true_eq] at hk
    obtain ⟨v, hv, rfl, rfl⟩ := hk
    refine ⟨{ k with fileId := new }, ?_, rfl⟩
    simp only [mem_sat, get_copyRows, Bool.and_eq_true, decide_eq_true_eq]
    exact ⟨v, by simpa using hv, rfl, trivial⟩

theorem count_copyRows (old new : FileId) (h : H) :
    (copyRows t old new).count (fun _ r => decide (r = h)) +
        t.count (fun k r => decide (k.fileId = new) && decide (r = h)) =
      t.count (fun _ r => decide (r = h)) +
        t.count fun k r => decide (k.fileId = old) && decide (r = h) := by
  have h1 := count_filter (copyRows t old new) (fun _ r => decide (r = h))
    (fun k _ => !decide (k.fileId = new))
  have h2 := count_filter t (fun _ r => decide (r = h)) (fun k _ => !decide (k.fileId = new))
  have hkeep : ((copyRows t old new).filter fun k _ => !decide (k.fileId = new)).count
        (fun _ r => decide (r = h)) =
      (t.filter fun k _ => !decide (k.fileId = new)).count fun _ r => decide (r = h) := by
    refine count_congr fun k => ?_
    simp only [get_filter, get_copyRows]
    by_cases hn : k.fileId = new <;> simp [hn]
  have hcopied := count_copied t old new h
  simp only [Bool.not_not, Bool.and_comm] at h1 h2 hcopied ⊢
  rw [hkeep, hcopied] at h1
  omega

section

variable (hr : s.files.get old = some r)
include hr

/-- A copy has one new row for each row of the original; rows that already hang on the new identifier
are replaced. -/
theorem references_copyOne (hn : s.files.get new = none) (folder : FolderId) (name : String)
    (h : H) : (s.copyOne old new folder name).references h +
        s.fileAttachedBlobs.count (fun k r => decide (k.fileId = new) && decide (r = h)) =
      s.references h + s.rowsOf old r h := by
  have ha := count_copyRows s.fileAttachedBlobs old new h
  simp only [copyOne, hr, addBlobReferences, copyAttached, references, filesNaming, derivedNaming,
    attachedNaming, rowsOf, count_set_new hn, decide_eq_true_eq]
  omega

theorem manifestRefs_copyOne (new : FileId) (folder : FolderId) (name : String) (h : H) :
    (s.copyOne old new folder name).manifestRefs h =
      s.manifestRefs h + if (s.chunkManifests.get h).isSome then s.rowsOf old r h else 0 := by
  simp only [copyOne, hr]
  rw [manifestRefs_addBlobReferences]
  simp only [copyAttached, isSome_addBlobReferences]
  have h1 := manifestRefs_addBlobReferences
    { s with files := s.files.set new ⟨folder, name, r.blobHash, false⟩ }
    (fun h => if r.blobHash = h then 1 else 0) h
  simp only [manifestRefs, rowsOf] at h1 ⊢
  rw [h1]
  split_ifs <;> omega

theorem blobRefs_copyOne (new : FileId) (folder : FolderId) (name : String) (h : H) :
    (s.copyOne old new folder name).blobRefs h = s.blobRefs h +
      if (s.chunkManifests.get h).isSome then 0
      else if (s.blobs.get h).isSome then s.rowsOf old r h else 0 := by
  simp only [copyOne, hr]
  rw [blobRefs_addBlobReferences]
  simp only [copyAttached, isSome_addBlobReferences]
  have h1 := blobRefs_addBlobReferences
    { s with files := s.files.set new ⟨folder, name, r.blobHash, false⟩ }
    (fun h => if r.blobHash = h then 1 else 0) h
  simp only [blobRefs, rowsOf] at h1 ⊢
  rw [h1]
  split_ifs <;> omega

end

theorem containing_copyOne (s : Store H) (old new : FileId) (folder : FolderId) (name : String)
    (c : H) : (s.copyOne old new folder name).containing c = s.containing c := by
  unfold copyOne
  cases hr : s.files.get old with
  | none => rfl
  | some r =>
    rw [containing_addBlobReferences]
    exact containing_addBlobReferences ..

theorem rowsOf_le_references
    (hr : s.files.get id = some r) (h : H) : s.rowsOf id r h ≤ s.references h := by
  have := references_deleteFile hr h
  omega

/-- The foreign key of `file_attached_blobs`. -/
def AttachedFk (s : Store H) : Prop :=
  ∀ k h, s.fileAttachedBlobs.get k = some h → (s.files.get k.fileId).isSome

theorem AttachedFk.count_new (hs : s.AttachedFk) (hn : s.files.get new = none) (h : H) :
    s.fileAttachedBlobs.count (fun k r => decide (k.fileId = new) && decide (r = h)) = 0 := by
  rw [count_eq_zero]
  intro k v hk
  have := hs k v hk
  by_cases he : k.fileId = new
  · rw [he, hn] at this
    cases this
  · simp [he]

theorem files_copyOne
    (hr : s.files.get old = some r) (folder : FolderId) (name : String) (id : FileId) :
    (s.copyOne old new folder name).files.get id =
      if id = new then some ⟨folder, name, r.blobHash, false⟩ else s.files.get id := by
  simp [copyOne, hr, addBlobReferences, copyAttached, get_set]

theorem AttachedFk.copyOne (hs : s.AttachedFk)
    (hr : s.files.get old = some r) {folder : FolderId} {name : String} :
    (s.copyOne old new folder name).AttachedFk := by
  intro k h hk
  rw [files_copyOne hr]
  split_ifs with hn
  · rfl
  · have hg : (s.copyOne old new folder name).fileAttachedBlobs =
        copyRows s.fileAttachedBlobs old new := by
      simp [Store.copyOne, hr, addBlobReferences, copyAttached]
    rw [hg, get_copyRows, if_neg hn] at hk
    exact hs k h hk

end OxiCloud.Schema.Store

namespace OxiCloud.Machine

open Schema List

variable {H : Type} [DecidableEq H]

variable {s : Store H}

theorem CopyOk.tail {x : CopySpec} {l : List CopySpec} {r : FileRow H} (hok : CopyOk s (x :: l))
    (hr : s.files.get x.old = some r) : CopyOk (s.copyOne x.old x.new x.folder x.name) l := by
  obtain ⟨hnd, hall⟩ := hok
  rw [map_cons, nodup_cons] at hnd
  refine ⟨hnd.2, fun c hc => ?_⟩
  have hne : c.new ≠ x.new := fun he => hnd.1 (he ▸ mem_map_of_mem hc)
  rw [Store.files_copyOne hr, Store.files_copyOne hr, if_neg hne]
  refine ⟨(hall c (mem_cons_of_mem _ hc)).1, ?_⟩
  split_ifs with he
  · simp
  · exact (hall c (mem_cons_of_mem _ hc)).2

/-- The statements that may change `storage.chunk_manifests`. -/
def Op.TouchesManifests : Op H → Prop
  | .insertManifest .. | .bumpManifest _ | .removeManifest .. | .reapManifests | .deleteFile _
  | .copyFiles .. | .rechunk .. => True
  | _ => False

variable {op : Op H} {ch : Choice H} {r : op.Resp}

theorem chunkManifests_exec (hop : ¬ op.TouchesManifests) {s' : Store H}
    (he : exec op ch s = some (r, s')) : s'.chunkManifests = s.chunkManifests := by
  obtain ⟨t, rfl | rfl⟩ := exec_frame he
  · rfl
  · cases op <;> first | rfl | exact absurd trivial hop

/-- The statements that may change the rows naming contents. -/
def Op.TouchesRows : Op H → Prop
  | .deleteDerived _ | .deleteFile _ | .insertFile .. | .swapBlobHash .. | .copyFiles ..
  | .insertDerived .. | .upsertAttached .. | .insertAttached .. => True
  | _ => False

theorem rows_exec (hop : ¬ op.TouchesRows) {s' : Store H} (he : exec op ch s = some (r, s')) :
    s'.files = s.files ∧ s'.contentDerivedBlobs = s.contentDerivedBlobs ∧
      s'.fileAttachedBlobs = s.fileAttachedBlobs := by
  obtain ⟨t, rfl | rfl⟩ := exec_frame he
  · exact ⟨rfl, rfl, rfl⟩
  · cases op <;> first | exact ⟨rfl, rfl, rfl⟩ | exact absurd trivial hop

/-- The statements that may change `storage.content_derived_blobs`. -/
def Op.TouchesDerived : Op H → Prop
  | .deleteDerived _ | .insertDerived .. => True
  | _ => False

theorem derived_exec (hop : ¬ op.TouchesDerived) {s' : Store H} (he : exec op ch s = some (r, s')) :
    s'.contentDerivedBlobs = s.contentDerivedBlobs := by
  obtain ⟨t, rfl | rfl⟩ := exec_frame he
  · rfl
  · cases op <;> first | rfl | exact absurd trivial hop

theorem AttachedFk.copyList : ∀ {l : List CopySpec} {s : Store H}, s.AttachedFk → CopyOk s l →
    (l.foldl (fun s c => s.copyOne c.old c.new c.folder c.name) s).AttachedFk
  | [], _, hs, _ => hs
  | x :: l, s, hs, hok => by
    obtain ⟨r, hr, -⟩ := (Option.any_eq_true ..).mp (hok.2 x (by simp)).2
    have hrest := AttachedFk.copyList (l := l) (hs.copyOne hr) (hok.tail hr)
    exact hrest

end OxiCloud.Machine
