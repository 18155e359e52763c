import OxiCloud.Accounting
import OxiCloud.Effects

/-! # Balanced stores

`Balanced` adds to the accounts what exact accounts also need of the store: the chunk lists read by
pending releases are those of the manifests, every derived row has its slot, attached rows have their
file, and no derived row is negative. `Allow` is the condition on a single statement of a run under
which balance is kept, and `Spec` the triple of interleaved programs for it. -/

namespace OxiCloud.Balance

open Lib.Tables Lib.Programs Lib.Pools Schema OxiCloud.Machine Tokens Accounting Effects

variable {H : Type} [DecidableEq H]

/-! ### Tidy stores -/

/-- What exact accounts need of the store and the tokens. -/
structure Tidy (s : Store H) (a : Multiset (Token H)) : Prop where
  known : ∀ h cs, .release h cs ∈ a → ∃ m, s.chunkManifests.get h = some m ∧ m.chunkHashes = cs
  slots : s.derivedRows ≤ slots a
  attached : s.AttachedFk
  positive : s.NoNegative

variable {s s' : Store H} {c : Multiset (Token H)}

variable {op : Op H} {ch : Choice H}

variable {r : op.Resp}

/-- A release is gained by the read of its manifest. -/
theorem known_of_gain {h : H} {cs : List H} (he : Machine.exec op ch s = some (r, s'))
    (hg : .release h cs ∈ gain op s r) :
    ∃ m, s'.chunkManifests.get h = some m ∧ m.chunkHashes = cs := by
  cases op with
  | selectManifest x =>
    rcases answer_cases he with ⟨-, rfl, rfl⟩ | ⟨rfl, rfl⟩
    · simp [gain] at hg
    · cases hx : s'.chunkManifests.get x with
      | none => simp [gain, hx] at hg
      | some m =>
        simp only [gain, hx, Multiset.mem_singleton, Token.release.injEq] at hg
        obtain ⟨rfl, rfl⟩ := hg
        exact ⟨m, hx, rfl⟩
  | _ => exact absurd hg (release_notMem_gain (by simp) s r h cs)

/-- A pending release keeps its manifest, if its reference is counted there. -/
theorem known_exec {h : H} {cs : List H} (he : Machine.exec op ch s = some (r, s'))
    (hpos : 0 < s'.manifestRefs h)
    (hm : ∃ m, s.chunkManifests.get h = some m ∧ m.chunkHashes = cs) :
    ∃ m, s'.chunkManifests.get h = some m ∧ m.chunkHashes = cs := by
  obtain ⟨m', hm'⟩ := Store.exists_manifest_of_pos hpos
  obtain ⟨m, h1, rfl⟩ := hm
  exact ⟨m', hm', chunkHashes_exec he h1 hm'⟩

theorem Tidy.known_exec (ht : Tidy s c) (he : Machine.exec op ch s = some (r, s'))
    (ha : Accounts .exact s' ((ledger H).next op s r c)) (h : H) (cs : List H)
    (hm : .release h cs ∈ (ledger H).next op s r c) :
    ∃ m, s'.chunkManifests.get h = some m ∧ m.chunkHashes = cs := by
  have hpos : 0 < s'.manifestRefs h := by
    have h1 := ha.file_le (by decide) h
    have h2 := one_le_fileTokens hm (h := h) (by simp [Token.names])
    omega
  rcases mem_ledger hm with hc | hg
  · exact Balance.known_exec he hpos (ht.known h cs hc)
  · exact known_of_gain he hg

/-- Each derived row has its slot. -/
theorem slots_exec (hd : s.derivedRows ≤ slots c) (he : Machine.exec op ch s = some (r, s')) :
    s'.derivedRows ≤ slots ((ledger H).next op s r c) := by
  rw [slots_ledger]
  have hsame : s'.contentDerivedBlobs = s.contentDerivedBlobs → spent op r = 0 →
      s'.derivedRows ≤ slots c - spent op r + slots (gain op s r) := by
    intro h1 h2
    rw [h2, Store.derivedRows, h1]
    exact Nat.le_add_right_of_le hd
  by_cases hop : op.TouchesDerived
  swap
  · refine hsame (derived_exec hop he) ?_
    cases op <;> first | rfl | exact absurd trivial hop
  cases op with
  | deleteDerived h =>
    simp only [Machine.exec] at he
    split_ifs at he with ho
    rcases answer_cases he with ⟨-, rfl, rfl⟩ | ⟨rfl, rfl⟩
    · exact hsame rfl rfl
    · have h1 := Store.derivedRows_deleteDerived ho
      simp only [spent]
      omega
  | insertDerived k h =>
    rcases answer_cases he with ⟨-, rfl, rfl⟩ | ⟨rfl, rfl⟩
    · exact hsame rfl rfl
    · cases hi : (s.insertDerived k h).1 with
      | false =>
        have h1 := hsame (by rw [s.insertDerived_false hi]) rfl
        rwa [hi] at h1
      | true =>
        have h1 := s.derivedRows_insertDerived hi
        simp only [spent, gain, slots_singleton, if_true]
        omega
  | _ => exact absurd hop id

theorem positive_exec (hn : s.NoNegative) (he : Machine.exec op ch s = some (r, s')) : s'.NoNegative := by
  have hsame : s'.contentDerivedBlobs = s.contentDerivedBlobs → s'.NoNegative := by
    intro h k x hk
    rw [h] at hk
    exact hn k x hk
  by_cases hop : op.TouchesDerived
  swap
  · exact hsame (derived_exec hop he)
  obtain rfl | ⟨-, rfl⟩ := exec_store he
  · exact hn
  cases op
  case deleteDerived h =>
    intro k x hk
    simp only [Op.effect, Store.deleteDerived, Table.get_filter, Option.filter_eq_some_iff] at hk
    exact hn k x hk.1
  case insertDerived k h =>
    dsimp only [Op.effect, Store.insertDerived]
    split_ifs
    · intro k' x hk
      rcases Table.get_set_cases hk with ⟨-, rfl⟩ | ⟨-, hk⟩
      · simp
      · exact hn k' x hk
    · exact hn
  all_goals exact absurd hop id

theorem attached_exec (ha : s.AttachedFk) (he : Machine.exec op ch s = some (r, s')) : s'.AttachedFk := by
  by_cases hop : op.TouchesRows
  swap
  · intro k h hk
    rw [(rows_exec hop he).1]
    rw [(rows_exec hop he).2.2] at hk
    exact ha k h hk
  obtain rfl | ⟨henabled, rfl⟩ := exec_store he
  · exact ha
  cases op
  case deleteDerived => exact ha
  case insertDerived k h =>
    dsimp only [Op.effect, Store.insertDerived]
    split_ifs <;> exact ha
  case deleteFile id =>
    dsimp only [Op.effect, Store.deleteFile]
    cases hr : s.files.get id with
    | none => exact ha
    | some row =>
      intro k h hk
      simp only [Store.decrementBlobRef, Store.releaseBy, Table.get_filter,
        Option.filter_eq_some_iff, decide_eq_true_eq] at hk
      simp only [Store.decrementBlobRef, Store.releaseBy, Table.get_erase_ne _ hk.2]
      exact ha k h hk.1
  case insertFile folder name h =>
    dsimp only [Op.effect, Store.insertFile]
    split_ifs
    · exact ha
    · intro k x hk
      simp only [Table.get_set]
      split_ifs
      · rfl
      · exact ha k x hk
    · exact ha
  case swapBlobHash id h expected =>
    dsimp only [Op.effect, Store.swapBlobHash]
    cases s.files.get id with
    | none => exact ha
    | some row =>
      dsimp only
      split_ifs
      · intro k x hk
        simp only [Table.get_set]
        split_ifs
        · rfl
        · exact ha k x hk
      · exact ha
  case copyFiles newFolders l =>
    exact AttachedFk.copyList (s := { s with folders := s.folders ∪ newFolders.toFinset }) ha henabled
  case upsertAttached k h previous =>
    intro k' x hk
    rcases Table.get_set_cases hk with ⟨rfl, -⟩ | ⟨-, hk⟩
    · exact henabled
    · exact ha k' x hk
  case insertAttached k h =>
    dsimp only [Op.effect, Store.insertAttached]
    cases s.fileAttachedBlobs.get k with
    | some old => exact ha
    | none =>
      intro k' x hk
      rcases Table.get_set_cases hk with ⟨rfl, -⟩ | ⟨-, hk⟩
      · exact henabled
      · exact ha k' x hk
  all_goals exact absurd hop id

/-- **Tidiness is kept** by statements that keep the accounts exact. -/
theorem Tidy.exec (ht : Tidy s c) (he : Machine.exec op ch s = some (r, s'))
    (ha : Accounts .exact s' ((ledger H).next op s r c)) : Tidy s' ((ledger H).next op s r c) where
  known := ht.known_exec he ha
  slots := slots_exec ht.slots he
  attached := attached_exec ht.attached he
  positive := positive_exec ht.positive he

/-! ### Balance -/

/-- The accounts hold; exact accounts are those of a tidy store. -/
structure Balanced (mode : Mode) (s : Store H) (a : Multiset (Token H)) : Prop where
  accounts : Accounts mode s a
  tidy : mode = .exact → Tidy s a

/-- The condition on one statement of a run. Exact accounts are for undisturbed programs whose
reference-settling statements do not fail. In general a manifest is only reaped if no other program holds a reference on
it, an attached row is only overwritten if it is still the one its writer read, and where there may be
legacy content a manifest is only released if it still has the chunks its releaser read. -/
def Allow (mode : Mode) (op : Op H) (ch : Choice H) (s : Store H) (rest : Multiset (Token H)) : Prop :=
  (mode = .exact → Works op ch s ∧ rest = 0) ∧
    match op with
    | .reapManifests => ∀ h ∈ ch.pick, fileTokens rest h = 0
    | .upsertAttached k _ previous => mode ≠ .exact → s.fileAttachedBlobs.get k = previous
    | .removeManifest h cs =>
      mode = .legacy → ∀ m, s.chunkManifests.get h = some m → m.chunkHashes = cs
    | _ => True

instance (mode : Mode) (op : Op H) (ch : Choice H) (s : Store H) (rest : Multiset (Token H)) :
    Decidable (Allow mode op ch s rest) := by
  apply Op.casesOn (motive := fun op => Decidable (Allow mode op ch s rest)) op
  all_goals intros; exact inferInstanceAs (Decidable (_ ∧ _))

/-- The statements the accounts of this strength cover. -/
def Covered (mode : Mode) : Op H → Prop
  | .bumpBlob _ => mode = .legacy
  | .rechunk .. => False
  | _ => True

/-- **Every allowed statement keeps the balance**, if its program holds the tokens it takes. -/
theorem Balanced.exec {mode : Mode} {rest : Multiset (Token H)} (hb : Balanced mode s (c + rest))
    (ha : Allow mode op ch s rest) (he : Machine.exec op ch s = some (r, s')) (hl : loss op r ≤ c)
    (hop : Covered mode op) : Balanced mode s' ((ledger H).next op s r c + rest) := by
  have htidy : mode = .exact → Tidy s c := by
    intro hm
    have := hb.tidy hm
    rwa [(ha.1 hm).2, add_zero] at this
  have hproper : Proper mode s ch.pick rest op := by
    cases op with
    | reapManifests => exact ha.2
    | removeManifest h cs =>
      intro hm m hget x
      cases mode with
      | plain => exact absurd rfl hm
      | legacy => rw [ha.2 rfl m hget]
      | exact =>
        obtain ⟨m', h1, rfl⟩ := (htidy rfl).known h cs (Multiset.singleton_le.mp hl)
        rw [hget] at h1
        cases h1
        rfl
    | bumpBlob h => exact hop
    | rechunk h cs sizes => exact hop
    | copyFiles fs l => exact fun hm => (htidy hm).attached
    | deleteDerived h => exact fun hm => (htidy hm).positive
    | _ => trivial
  have hacc := hb.accounts.exec he hl (fun hm => (ha.1 hm).1) hproper
  refine ⟨hacc, fun hm => ?_⟩
  have hrest := (ha.1 hm).2
  subst hm hrest
  rw [add_zero] at hacc ⊢
  exact (htidy rfl).exec he hacc

end OxiCloud.Balance
