import OxiCloud.OperationSpecs

/-! # The accounts of a store under conversion

While the legacy blobs of a store are converted one by one, a content is counted either at its manifest
or, as long as it has none, at its blob row. `Split` says that both counts are exact: a credit `L` holds
the references counted at blob rows, and a content with a manifest has no credit. `Mixed` adds what a
release needs. It is a discipline for the uploads and deletions, provided that a manifest is only
inserted for a content without rows; the re-chunk transaction turns the credit of its content into the
counter of a manifest. -/

namespace OxiCloud.LegacyAccounts

open Lib.Tables Lib.Programs Lib.Pools Schema OxiCloud.Machine Tokens Accounting Balance Schema.Store
open BalanceSpecs Effects

variable {H : Type} [DecidableEq H]

/-! ### Exact counts at two places -/

/-- The accounts, exact on both levels; the credit `L` is what is counted at the blob rows. -/
structure Split (s : Store H) (a : Multiset (Token H)) (L : H → ℕ) : Prop where
  file : ∀ h, s.references h + fileTokens a h = s.manifestRefs h + L h
  chunk : ∀ c, L c + s.containing c + chunkTokens a c = s.blobRefs c
  converted : ∀ h, (s.chunkManifests.get h).isSome = true → L h = 0

/-- The accounts hold for a credit that is nowhere larger than `L`. -/
def Splits (s : Store H) (a : Multiset (Token H)) (L : H → ℕ) : Prop :=
  ∃ L', Split s a L' ∧ ∀ h, L' h ≤ L h

variable {s s' : Store H} {a c l g rest : Multiset (Token H)} {L : H → ℕ}

theorem Split.splits (ha : Split s a L) : Splits s a L := ⟨L, ha, fun _ => le_rfl⟩

namespace Split

theorem file_pos (ha : Split s a L) {h : H} (hn : s.chunkManifests.get h = none)
    (hpos : 0 < s.references h + fileTokens a h) : 0 < L h := by
  have h1 := ha.file h
  rw [manifestRefs_of_none hn] at h1
  omega

theorem step (ha : Split s (c + rest) L) (hl : l ≤ c) (hm : Moves s s' l g)
    (hk : ∀ h, (s'.chunkManifests.get h).isSome = true → L h = 0) : Split s' (c - l + g + rest) L where
  file h := by
    have h1 := ha.file h
    have h2 := fileTokens_next hl g rest h
    have h3 := hm.file h
    omega
  chunk x := by
    have h1 := ha.chunk x
    have h2 := chunkTokens_next hl g rest x
    have h3 := chunkTokens_mono (hl.trans (Multiset.le_add_right c rest)) x
    have h4 := hm.chunk x (by omega)
    omega
  converted := hk

theorem kept (ha : Split s a L) (hk : Kept s s') (h : H) (hs : (s'.chunkManifests.get h).isSome = true) :
    L h = 0 := ha.converted h (hk.isSome hs)

/-- Statements that leave the five tables of the accounts alone. -/
theorem frame (ha : Split s a L) (h : SameRows s s') : Split s' a L where
  file x := by
    rw [references_congr h.toSameNames, manifestRefs_congr h.manifests]
    exact ha.file x
  chunk x := by
    rw [containing_congr h.manifests, blobRefs_congr h.blobs]
    exact ha.chunk x
  converted x hx := by
    rw [h.manifests] at hx
    exact ha.converted x hx

section

variable (ha : Split s (c + rest) L)
include ha

theorem insertManifest {h : H} {m : Manifest H} (hn : s.chunkManifests.get h = none)
    (hfree : s.references h + fileTokens (c + rest) h = 0) (hl : chunksOf m.chunkHashes ≤ c) :
    Split (s.insertManifest h m).2
      (c - chunksOf m.chunkHashes + Multiset.replicate m.refCount (.file h) + rest) L := by
  have hi : (s.insertManifest h m).1 = true := by simp [Store.insertManifest, hn]
  have hm := Moves.insertManifest (s := s) hi
  have hz : L h = 0 := by
    have h1 := ha.file h
    omega
  refine ha.step hl hm fun x hx => ?_
  by_cases hxh : x = h
  · rw [hxh]
    exact hz
  · have hget : (s.insertManifest h m).2.chunkManifests = s.chunkManifests.set h m := by
      simp [Store.insertManifest, hn]
    rw [hget, Table.get_set_ne _ _ hxh] at hx
    exact ha.converted x hx

/-- The read that prepares a release: a reference on legacy content turns into one on its blob row. -/
theorem selectManifest {h : H} (hl : {.file h} ≤ c) :
    Splits s (c - {.file h} + ((s.chunkManifests.get h).elim {.chunk h}
      fun m => {.release h m.chunkHashes}) + rest) L := by
  cases hm : s.chunkManifests.get h with
  | some m => exact (ha.step hl (.selectManifest s h m.chunkHashes) ha.converted).splits
  | none =>
    have htok := fileTokens_pos rest hl (h := h) (by simp [Token.names])
    have hpos : 0 < L h := ha.file_pos hm (by omega)
    refine ⟨fun x => L x - if h = x then 1 else 0, ⟨fun x => ?_, fun x => ?_, fun x hx => ?_⟩,
      fun x => Nat.sub_le _ _⟩
    · have h1 := ha.file x
      have h2 := fileTokens_next hl {.chunk h} rest x
      simp only [fileTokens_singleton, Token.names, decide_eq_true_eq, Bool.false_eq_true, if_false] at h2
      dsimp only [Option.elim]
      split_ifs at h2 ⊢ with hh
      · subst hh
        omega
      · omega
    · have h1 := ha.chunk x
      have h2 := chunkTokens_next hl {.chunk h} rest x
      simp only [chunkTokens_singleton, reduceCtorEq, if_false, Token.chunk.injEq] at h2
      dsimp only [Option.elim]
      split_ifs at h2 ⊢ with hh
      · subst hh
        omega
      · omega
    · rw [ha.converted x hx, Nat.zero_sub]

/-- A release of a manifest whose chunk list has been read. -/
theorem removeManifest {h : H} {m : Manifest H} (hm : s.chunkManifests.get h = some m)
    (hl : {.release h m.chunkHashes} ≤ c) (hk : Kept s (s.removeManifest h m.chunkHashes).2) :
    Split (s.removeManifest h m.chunkHashes).2 (c - {.release h m.chunkHashes} + 0 + rest) L := by
  have htok := fileTokens_pos rest hl (h := h) (by simp [Token.names])
  have hz := ha.converted h (by rw [hm]; rfl)
  have hpos : 1 ≤ s.manifestRefs h := by
    have := ha.file h
    omega
  have href : (s.removeManifest h m.chunkHashes).2.references = s.references := by
    funext x
    simp only [Store.removeManifest, hm]
    split_ifs <;> rfl
  refine ha.step hl ⟨fun x => ?_, fun x _ => ?_⟩ (ha.kept hk)
  · have h1 := manifestRefs_removeManifest s h m.chunkHashes x
    rw [href, h1]
    simp only [fileTokens_zero, fileTokens_singleton, Token.names, decide_eq_true_eq]
    by_cases hx : h = x
    · subst hx
      rw [if_pos rfl]
      omega
    · rw [if_neg hx]
      omega
  · have h1 := ha.chunk x
    have h2 := containing_removeManifest hm m.chunkHashes x
    have h3 := blobRefs_removeManifest hm m.chunkHashes x
    simp only [chunkTokens_zero, chunkTokens_singleton, reduceCtorEq, if_false]
    by_cases hx : m.refCount ≤ 1 ∧ x ∈ m.chunkHashes
    · omega
    · omega

end

/-- The delete trigger takes the reference from where it is counted. -/
theorem deleteFile (ha : Split s a L) {id : FileId} {row : FileRow H}
    (hrow : s.files.get id = some row) (hk : Kept s (s.deleteFile id).2) :
    Splits (s.deleteFile id).2 a L := by
  refine ⟨fun h => L h - if (s.chunkManifests.get h).isSome then 0 else s.rowsOf id row h,
    ⟨fun h => ?_, fun x => ?_, fun x hx => ?_⟩, fun h => Nat.sub_le _ _⟩
  · have h1 := ha.file h
    have h2 := manifestRefs_deleteFile hrow h
    have h3 := references_deleteFile hrow h
    cases hm : s.chunkManifests.get h with
    | some m =>
      have h4 := ha.converted h (by rw [hm]; rfl)
      omega
    | none =>
      have h4 := manifestRefs_of_none hm
      rw [Option.isSome_none, if_neg (by decide)]
      omega
  · have h1 := ha.chunk x
    have h2 := blobRefs_deleteFile hrow x
    have h3 := containing_deleteFile s id x
    have h4 := ha.file x
    have h5 := references_deleteFile hrow x
    cases hm : s.chunkManifests.get x with
    | some m =>
      rw [hm, Option.isSome_some, if_pos rfl] at h2
      rw [Option.isSome_some, if_pos rfl]
      omega
    | none =>
      have h6 := manifestRefs_of_none hm
      rw [hm, Option.isSome_none, if_neg (by decide)] at h2
      rw [Option.isSome_none, if_neg (by decide)]
      omega
  · rw [ha.converted x (hk.isSome hx), Nat.zero_sub]

end Split

/-! ### The re-chunk transaction -/

theorem references_rechunk (s : Store H) (h : H) (cs : List H) (sizes : List ℕ) :
    (s.rechunk h cs sizes).2.references = s.references := by
  funext x
  unfold Store.rechunk
  cases s.chunkManifests.get h with
  | some m => rfl
  | none =>
    cases s.blobs.get h with
    | none => rfl
    | some b => dsimp only; split_ifs <;> rfl

variable {h : H} {op : Op H} {ch : Choice H}

theorem chunkManifests_rechunk (hn : s.chunkManifests.get h = none) (cs : List H)
    (sizes : List ℕ) : (s.rechunk h cs sizes).2.chunkManifests =
      s.chunkManifests.set h ⟨cs, sizes, sizes.sum, s.filesNaming h⟩ := by
  simp only [Store.rechunk, hn]
  cases s.blobs.get h with
  | none => rfl
  | some b => dsimp only; split_ifs <;> rfl

theorem blobRefs_rechunk (hn : s.chunkManifests.get h = none) (cs : List H) (sizes : List ℕ)
    (x : H) : (s.rechunk h cs sizes).2.blobRefs x =
      s.blobRefs x - if x = h then s.filesNaming h else 0 := by
  simp only [Store.rechunk, hn]
  cases hb : s.blobs.get h with
  | none =>
    by_cases hx : x = h
    · subst hx
      simp [Store.blobRefs, hb]
    · simp [Store.blobRefs, hx]
  | some b =>
    dsimp only
    split_ifs with hz hx hx
    · subst hx
      simp [Store.blobRefs, hb, hz]
    · simp [Store.blobRefs, Table.get_erase_ne _ hx]
    · subst hx
      simp [Store.blobRefs, hb]
    · simp [Store.blobRefs, Table.get_set_ne _ _ hx]

variable {cs : List H}

/-- **A conversion** moves the credit of its content to the counter of the new manifest. -/
theorem Split.rechunk (ha : Split s (c + rest) L) (hn : s.chunkManifests.get h = none)
    (sizes : List ℕ) (hl : chunksOf cs ≤ c) (htok : fileTokens (c + rest) h = 0)
    (hrows : s.references h = s.filesNaming h) :
    Splits (s.rechunk h cs sizes).2 (c - chunksOf cs + 0 + rest) L := by
  have hman := chunkManifests_rechunk hn cs sizes
  have hcredit : L h = s.filesNaming h := by
    have h1 := ha.file h
    rw [manifestRefs_of_none hn] at h1
    omega
  have hrefs : ∀ x, (s.rechunk h cs sizes).2.manifestRefs x =
      if x = h then s.filesNaming h else s.manifestRefs x := by
    intro x
    simp only [Store.manifestRefs, hman, Table.get_set]
    split_ifs <;> rfl
  have hcont : ∀ x, (s.rechunk h cs sizes).2.containing x =
      s.containing x + if x ∈ cs then 1 else 0 := by
    intro x
    simp [Store.containing, hman, Table.count_set_new hn]
  refine ⟨fun x => if x = h then 0 else L x, ⟨fun x => ?_, fun x => ?_, fun x hx => ?_⟩, fun x => ?_⟩
  · have h1 := ha.file x
    have h2 := fileTokens_next hl 0 rest x
    rw [fileTokens_chunksOf, fileTokens_zero] at h2
    rw [references_rechunk, hrefs x]
    split_ifs with hx
    · subst hx
      omega
    · omega
  · have h1 := ha.chunk x
    have h2 := chunkTokens_next hl 0 rest x
    rw [chunkTokens_chunksOf, chunkTokens_zero] at h2
    rw [hcont x, blobRefs_rechunk hn]
    by_cases hx : x = h
    · subst hx
      simp only [if_true]
      omega
    · simp only [if_neg hx]
      omega
  · split_ifs with hxh
    · rfl
    · rw [hman, Table.get_set_ne _ _ hxh] at hx
      exact ha.converted x hx
  · dsimp only
    split_ifs
    · exact Nat.zero_le _
    · exact le_rfl

/-! ### The discipline -/

theorem references_eq (hd : ∀ k, s.contentDerivedBlobs.get k = none)
    (ha : ∀ k, s.fileAttachedBlobs.get k = none) (h : H) : s.references h = s.filesNaming h := by
  have h1 : s.derivedNaming h = 0 := Table.count_eq_zero.mpr fun k v hv => by
    rw [hd k] at hv
    cases hv
  have h2 : s.attachedNaming h = 0 := Table.count_eq_zero.mpr fun k v hv => by
    rw [ha k] at hv
    cases hv
  rw [Store.references, h1, h2, Nat.add_zero]

/-- The accounts of a store in which only file rows name contents, and the releases that have read a
manifest find it. -/
structure Mixed (s : Store H) (a : Multiset (Token H)) : Prop where
  accounts : ∃ L, Split s a L
  known : ∀ h cs, .release h cs ∈ a → ∃ m, s.chunkManifests.get h = some m ∧ m.chunkHashes = cs
  derived : ∀ k, s.contentDerivedBlobs.get k = none
  attached : ∀ k, s.fileAttachedBlobs.get k = none

namespace Mixed

theorem references_eq (hm : Mixed s a) (h : H) : s.references h = s.filesNaming h :=
  LegacyAccounts.references_eq hm.derived hm.attached h

theorem derivedRows_eq (hm : Mixed s a) : s.derivedRows = 0 :=
  Table.count_eq_zero.mpr fun k v hv => by
    rw [hm.derived k] at hv
    cases hv

/-- The rows a purge finds: none. -/
theorem deleteDerived_eq (hm : Mixed s a) {h : H} {keys : List (DerivedKey H)}
    (ho : s.DerivedOrder h keys) : (s.deleteDerived h keys).1 = [] := by
  have h1 := derivedRows_deleteDerived ho
  rw [hm.derivedRows_eq] at h1
  exact List.length_eq_zero_iff.mp (by omega)

end Mixed

variable {r : op.Resp}

/-- The credit of the accounts after a statement. -/
theorem Split.exec (ha : Split s (c + rest) L) (hs : Mixed s (c + rest)) (hop : Common op)
    (hf : settles op = true → ch.fault = false) (he : Machine.exec op ch s = some (r, s'))
    (hl : loss op r ≤ c) : Splits s' ((ledger H).next op s r c + rest) L := by
  have hkept : Kept s s' := by
    rcases manifest_exec he with hk | ⟨h, m, rfl, -, -⟩ | ⟨h, cs, sizes, rfl, -, -⟩
    · exact hk
    · exact hop.elim
    · exact hop.elim
  by_cases hq : op.Quiet
  · rw [next_quiet hq]
    exact (ha.frame (quiet_exec hq he)).splits
  have hstep : ∀ {l g : Multiset (Token H)}, l ≤ c → Moves s s' l g →
      Splits s' (c - l + g + rest) L := fun hl hm => (ha.step hl hm (ha.kept hkept)).splits
  have hsame : s' = s → Splits s' (c - 0 + 0 + rest) L := by
    rintro rfl
    exact hstep (Multiset.zero_le c) (.refl _)
  by_cases hmove : Moving op
  · rw [next_moving hmove]
    exact hstep hl (.exec hmove he)
  cases op with
  | selectManifest h =>
    obtain ⟨rfl, rfl⟩ := answer_ok (hf rfl) he
    rw [next_eq (fun _ => rfl) rfl]
    have hsel := ha.selectManifest hl
    cases hm : s'.chunkManifests.get h with
    | some m => rw [hm] at hsel; exact hsel
    | none => rw [hm] at hsel; exact hsel
  | removeManifest h cs =>
    obtain ⟨rfl, rfl⟩ := answer_ok (hf rfl) he
    rw [next_eq (fun _ => rfl) rfl]
    have hmem : .release h cs ∈ c + rest :=
      Multiset.mem_add.mpr (.inl (Multiset.singleton_le.mp hl))
    obtain ⟨m, hm, rfl⟩ := hs.known h cs hmem
    exact (ha.removeManifest hm hl hkept).splits
  | removeLegacy h =>
    obtain ⟨rfl, rfl⟩ := answer_ok (hf rfl) he
    rw [next_eq (fun _ => rfl) rfl]
    exact hstep hl (.removeLegacy s h)
  | deleteDerived h =>
    simp only [Machine.exec] at he
    split_ifs at he with ho
    rcases answer_cases he with ⟨-, rfl, rfl⟩ | ⟨rfl, rfl⟩
    · rw [next_eq (fun _ => rfl) rfl]
      exact hsame rfl
    have hrows := hs.deleteDerived_eq ho
    have hnext : (ledger H).next (.deleteDerived h) s (some (s.deleteDerived h ch.order).1) c =
        c - 0 + 0 := by
      rw [hrows]
      exact next_eq (fun _ => rfl) rfl
    rw [hnext]
    refine hstep (Multiset.zero_le c) ⟨fun x => ?_, fun x _ => rfl⟩
    have h1 := references_deleteDerived ho x
    rw [hrows, List.count_nil] at h1
    rw [fileTokens_zero, ← h1]
    rfl
  | deleteFile id =>
    rw [next_eq (fun _ => rfl) rfl]
    rcases answer_cases he with ⟨-, rfl, rfl⟩ | ⟨rfl, rfl⟩
    · exact hsame rfl
    cases hrow : s.files.get id with
    | none => exact hsame (by simp [Store.deleteFile, hrow])
    | some row =>
      have hz : c - loss (.deleteFile id) (some (s.deleteFile id).1) +
          gain (.deleteFile id) s (some (s.deleteFile id).1) + rest = c + rest := by
        simp [loss, gain]
      rw [hz]
      exact ha.deleteFile hrow hkept
  | _ => exact absurd hop (by simp_all [Common, Op.Quiet, Moving])

/-- The statements that insert derived or attached rows. -/
def AddsRows : Op H → Prop
  | .insertDerived .. | .upsertAttached .. | .insertAttached .. | .copyFiles .. => True
  | _ => False

theorem derived_none (hop : ¬ AddsRows op) (he : Machine.exec op ch s = some (r, s'))
    (hs : ∀ k, s.contentDerivedBlobs.get k = none) (k : DerivedKey H) :
    s'.contentDerivedBlobs.get k = none := by
  cases op with
  | deleteDerived h =>
    obtain rfl | ⟨-, rfl⟩ := exec_store he
    · exact hs k
    · simp [Op.effect, Store.deleteDerived, hs k]
  | insertDerived k h => exact absurd trivial hop
  | _ => obtain ⟨t, rfl | rfl⟩ := exec_frame he <;> exact hs k

theorem attached_none (hop : ¬ AddsRows op) (he : Machine.exec op ch s = some (r, s'))
    (hs : ∀ k, s.fileAttachedBlobs.get k = none) (k : AttachedKey) : s'.fileAttachedBlobs.get k = none := by
  cases op with
  | deleteFile id =>
    obtain rfl | ⟨-, rfl⟩ := exec_store he
    · exact hs k
    · dsimp only [Op.effect, Store.deleteFile]
      cases s.files.get id with
      | none => exact hs k
      | some row => simp [Store.decrementBlobRef, Store.releaseBy, hs k]
  | copyFiles | insertDerived | upsertAttached | insertAttached => exact absurd trivial hop
  | _ => obtain ⟨t, rfl | rfl⟩ := exec_frame he <;> exact hs k

/-- What is left to see once the counts of the next store are known. -/
theorem Mixed.next (hs : Mixed s (c + rest)) (ha : Split s (c + rest) L) (hop : ¬ AddsRows op)
    (he : Machine.exec op ch s = some (r, s'))
    (hsp : Splits s' ((ledger H).next op s r c + rest) L) :
    Mixed s' ((ledger H).next op s r c + rest) := by
  obtain ⟨L', hL', hle⟩ := hsp
  refine ⟨⟨L', hL'⟩, fun h cs hmem => ?_, derived_none hop he hs.derived,
    attached_none hop he hs.attached⟩
  have hpos : L' h = 0 → 0 < s'.manifestRefs h := by
    intro hz
    have h1 := hL'.file h
    have h2 := one_le_fileTokens hmem (h := h) (by simp [Token.names])
    omega
  -- the token was there before the statement, or the statement was the read that gave it
  have hold : .release h cs ∈ c + rest ∨ .release h cs ∈ gain op s r := by
    rcases Multiset.mem_add.mp hmem with hm | hm
    · exact (mem_ledger hm).imp_left fun hc => Multiset.mem_add.mpr (.inl hc)
    · exact .inl (Multiset.mem_add.mpr (.inr hm))
  rcases hold with hm | hm
  · obtain ⟨m, hget, hcs⟩ := hs.known h cs hm
    have hz := ha.converted h (by rw [hget]; rfl)
    have hz' := hle h
    exact known_exec he (hpos (by omega)) ⟨m, hget, hcs⟩
  · exact known_of_gain he hm

/-- The condition on one statement: those that settle a reference and the re-chunk transaction do not
fail, and a manifest is inserted only for a content that no file row names. The object of a converted
blob is deleted only if no blob row names it. -/
def Careful (op : Op H) (ch : Choice H) (s : Store H) : Prop :=
  (settles op = true → ch.fault = false) ∧
    match op with
    | .insertManifest h _ => s.chunkManifests.get h = none → s.filesNaming h = 0
    | .rechunk .. => ch.fault = false
    | .deleteObject h => s.blobs.get h = none
    | _ => True

instance (op : Op H) (ch : Choice H) (s : Store H) : Decidable (Careful op ch s) := by
  apply Op.casesOn (motive := fun op => Decidable (Careful op ch s)) op
  all_goals intros; exact inferInstanceAs (Decidable (_ ∧ _))

/-- Careful statements beside programs that hold no reference on a content. -/
def Undisturbed (op : Op H) (ch : Choice H) (s : Store H) (rest : Multiset (Token H)) : Prop :=
  Careful op ch s ∧ ∀ h, fileTokens rest h = 0

theorem Mixed.insertManifest {m : Manifest H} {r : Option Bool}
    (hs : Mixed s (c + rest)) (hfree : fileTokens c h = 0)
    (ha : Undisturbed (.insertManifest h m) ch s rest)
    (he : Machine.exec (.insertManifest h m) ch s = some (r, s'))
    (hl : loss (.insertManifest h m) r ≤ c) :
    Mixed s' ((ledger H).next (.insertManifest h m) s r c + rest) := by
  obtain ⟨L, hL⟩ := hs.accounts
  refine hs.next hL id he ?_
  rw [next_eq (fun _ => rfl) rfl]
  obtain ⟨rfl, rfl⟩ := answer_ok (ha.1.1 rfl) he
  cases hn : s.chunkManifests.get h with
  | some m₀ =>
    have hi : (s.insertManifest h m).1 = false := by simp [Store.insertManifest, hn]
    rw [hi, s.insertManifest_false hi]
    simpa [loss, gain] using hL.splits
  | none =>
    have hi : (s.insertManifest h m).1 = true := by simp [Store.insertManifest, hn]
    have hrefs : s.references h + fileTokens (c + rest) h = 0 := by
      rw [hs.references_eq, ha.1.2 hn, fileTokens_add, hfree, ha.2 h]
    rw [hi] at hl ⊢
    exact (hL.insertManifest hn hrefs hl).splits

/-- **The accounts of a store under conversion are a discipline.** -/
def conversion (H : Type) [DecidableEq H] : Discipline H where
  allow := Undisturbed
  inv := Mixed
  strict := True
  fresh c h := fileTokens c h = 0
  exec {op} _ _ _ _ _ _ hop hs ha he hl := by
    obtain ⟨L, hL⟩ := hs.accounts
    have hrows : ¬ AddsRows op := by cases op <;> first | exact id | exact hop.elim
    exact hs.next hL hrows he (hL.exec hs hop ha.1.1 he hl)
  insert hfree hs ha he hl := hs.insertManifest hfree ha he hl
  works _ ha hop := ha.1.1 hop
  slots _ hs _ := by
    rw [hs.derivedRows_eq]
    exact Nat.zero_le _

/-- A re-chunk transaction, undisturbed. -/
theorem Mixed.rechunk {sizes : List ℕ} {r : Option (Option Bool)} (hs : Mixed s (c + rest))
    (hfree : fileTokens c h = 0) (ha : Undisturbed (.rechunk h cs sizes) ch s rest)
    (he : Machine.exec (.rechunk h cs sizes) ch s = some (r, s'))
    (hl : loss (.rechunk h cs sizes) r ≤ c) :
    Mixed s' ((ledger H).next (.rechunk h cs sizes) s r c + rest) := by
  obtain ⟨L, hL⟩ := hs.accounts
  refine hs.next hL id he ?_
  rw [next_eq (fun _ => rfl) rfl]
  obtain ⟨rfl, rfl⟩ := answer_ok ha.1.2 he
  cases hn : s.chunkManifests.get h with
  | some m =>
    have hsame : s.rechunk h cs sizes = (none, s) := by simp [Store.rechunk, hn]
    rw [hsame]
    simpa [loss, gain] using hL.splits
  | none =>
    have htok : fileTokens (c + rest) h = 0 := by rw [fileTokens_add, hfree, ha.2 h]
    obtain ⟨deleted, hd⟩ : ∃ deleted, (s.rechunk h cs sizes).1 = some deleted := by
      simp only [Store.rechunk, hn]
      cases s.blobs.get h with
      | none => exact ⟨false, rfl⟩
      | some b => dsimp only; split_ifs <;> exact ⟨_, rfl⟩
    rw [hd] at hl ⊢
    exact hL.rechunk hn sizes hl htok (hs.references_eq h)

theorem Triple.rechunk {α : Type} {sizes : List ℕ} {k : Option (Option Bool) → Db H α}
    {Q : α → Multiset (Token H) → Prop} (hfree : fileTokens c h = 0) (hl : chunksOf cs ≤ c)
    (hk : ∀ s ch r s' rest, Undisturbed (.rechunk h cs sizes) ch s rest →
      Machine.exec (.rechunk h cs sizes) ch s = some (r, s') →
        Triple (conversion H) (k r) ((ledger H).next (.rechunk h cs sizes) s r c) Q) :
    Triple (conversion H) (Machine.issue (.rechunk h cs sizes) >>= k) c Q := by
  refine safe_call fun ch s r s' rest hs ha he =>
    ⟨hs.rechunk hfree ha he ?_, hk s ch r s' rest ha he⟩
  rcases r with _ | _ | _
  · exact Multiset.zero_le c
  · exact Multiset.zero_le c
  · exact hl

end OxiCloud.LegacyAccounts
