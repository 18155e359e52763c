import OxiCloud.LegacyAccounts
import OxiCloud.Manifests

/-! # The conversion of legacy blobs

Uploads and deletions are served one after the other while a conversion (`rechunk_one_legacy_blob`) goes
on, statement by statement, in between. `conversion_keeps_files` says what holds at every point: each
file row can be read and gives the content its hash names, each manifest counts the file rows that name
it, and beside it the blob row counts nothing but chunk references. It needs of every step that a
manifest is inserted only for a content that no file row names yet, and that the object of a converted
blob is deleted only while no blob row names it. The code enforces neither: `identical_upload_undercounts`
is the upload of a content that exists as a legacy blob, `late_deletion_loses_chunk` an upload that
stores it as a chunk. -/

namespace OxiCloud.LegacyConversion

open Lib.Tables Lib.Programs Lib.Pools Schema OxiCloud.Machine Tokens Accounting Balance BlobHandler Table
open FileRepository BalanceSpecs IngestSpecs OperationSpecs Requests LegacyAccounts Manifests
open Effects Footprint Ingests Multiset Prog

variable {H : Type} [DecidableEq H] {blake3 : Bytes → H} {fuel : ℕ}

/-! ### Every blob row has its object -/

/-- The objects a program has written and not registered yet. -/
def written : (op : Op H) → op.Resp → Multiset H → Multiset H
  | .putUnsynced _ h _, some _, c => h ::ₘ c
  | .putReplace h _, some _, c => h ::ₘ c
  | .registerChunks _, some _, _ => 0
  | _, _, c => c

/-- The ledger of written objects. -/
def stock (H : Type) : Ledger (sql H) (Store H) H := ⟨fun op _ r c => written op r c⟩

/-- Blob rows and written chunks have their object. -/
structure Stocked (s : Store H) (a : Multiset H) : Prop where
  rows : ∀ h b, s.blobs.get h = some b → (s.objects.get h).isSome = true
  written : ∀ h ∈ a, (s.objects.get h).isSome = true

/-- The condition on one statement: no other program has written the object it deletes. -/
def Spares (op : Op H) (ch : Choice H) (s : Store H) (rest : Multiset H) : Prop :=
  Careful op ch s ∧ ∀ h, op = .deleteObject h → h ∉ rest

/-- What a program must have written, or must not, when it issues a statement. -/
def Supplied (c : Multiset H) : Op H → Prop
  | .registerChunks rows | .registerOrphans rows => ∀ x ∈ rows.map Prod.fst, x ∈ c
  | .deleteObject h => h ∉ c
  | _ => True

variable {s s' : Store H} {c rest : Multiset H}

theorem mem_of_lookup {l : List (H × ℕ)} {h : H} {n : ℕ} (hl : l.lookup h = some n) :
    h ∈ l.map Prod.fst := by
  by_contra hn
  rw [lookup_eq_none.mpr hn] at hl
  cases hl

theorem Stocked.register {rows : List (H × ℕ)} {ins : ℕ → BlobRow} {upd : BlobRow → BlobRow}
    {a : Multiset H} (hs : Stocked s a) (ho : s'.objects = s.objects)
    (hb : s'.blobs = s.blobs.upsert rows ins upd) (hr : ∀ x ∈ rows.map Prod.fst, x ∈ a) :
    Stocked s' a := by
  refine ⟨fun h b hget => ?_, fun h hmem => ?_⟩
  · rw [ho]
    rw [hb, get_upsert] at hget
    cases hl : rows.lookup h with
    | some n => exact hs.written h (hr h (mem_of_lookup hl))
    | none =>
      rw [hl] at hget
      exact hs.rows h b hget
  · rw [ho]
    exact hs.written h hmem

omit [DecidableEq H] in
/-- Objects are added, rows are not. -/
theorem Stocked.grow {a a' : Multiset H} (hs : Stocked s a) (hb : s'.blobs = s.blobs)
    (ho : ∀ h, (s.objects.get h).isSome = true → (s'.objects.get h).isSome = true)
    (ha : ∀ h ∈ a', h ∈ a ∨ (s'.objects.get h).isSome = true) : Stocked s' a' := by
  refine ⟨fun h b hget => ho h (hs.rows h b (by rwa [hb] at hget)), fun h hmem => ?_⟩
  rcases ha h hmem with hold | hnew
  · exact ho h (hs.written h hold)
  · exact hnew

theorem isSome_putUnsynced (s : Store H) (h : H) (data : Bytes) (x : H) :
    ((s.putUnsynced h data).objects.get x).isSome = ((s.objects.get x).isSome || decide (x = h)) := by
  unfold Store.putUnsynced
  cases ho : s.objects.get h with
  | some old =>
    by_cases hx : x = h
    · subst hx
      simp [ho]
    · simp [hx]
  | none =>
    simp only [get_set]
    by_cases hx : x = h <;> simp [hx]

theorem isSome_putReplace (s : Store H) (h : H) (data : Bytes) (x : H) :
    ((s.putReplace h data).objects.get x).isSome = ((s.objects.get x).isSome || decide (x = h)) := by
  simp only [Store.putReplace, get_set]
  by_cases hx : x = h <;> simp [hx]

variable {ch : Choice H}

/-- A backend write: also a failed one may have added the object, and removes none. -/
theorem Stocked.put {h : H} {s₁ : Store H} {r : Option Unit} (hs : Stocked s (c + rest))
    (hb : s₁.blobs = s.blobs)
    (ho : ∀ x, (s₁.objects.get x).isSome = ((s.objects.get x).isSome || decide (x = h)))
    (he : backendAnswer ch s s₁ = some (r, s')) :
    Stocked s' ((if r.isSome then h ::ₘ c else c) + rest) := by
  have hgrow : ∀ x, (s.objects.get x).isSome = true → (s₁.objects.get x).isSome = true := by
    intro x hx
    rw [ho x, hx]
    rfl
  unfold backendAnswer at he
  split_ifs at he with hf ha
  · cases he
    exact hs.grow hb hgrow fun x hx => .inl hx
  · cases he
    exact hs
  · cases he
    refine hs.grow hb hgrow fun x hx => ?_
    rw [Option.isSome_some, if_pos rfl, cons_add, mem_cons] at hx
    rcases hx with rfl | hx
    · exact .inr (by rw [ho x]; simp)
    · exact .inl hx

variable {op : Op H} {r : op.Resp}

/-- **Every supplied statement keeps the stock.** -/
theorem Stocked.exec (hs : Stocked s (c + rest)) (ha : Spares op ch s rest)
    (he : Machine.exec op ch s = some (r, s')) (hop : Supplied c op) :
    Stocked s' ((stock H).next op s r c + rest) := by
  cases op with
  | putUnsynced w h data =>
    have hb : (s.putUnsynced h data).blobs = s.blobs := by
      unfold Store.putUnsynced
      cases s.objects.get h <;> rfl
    have hput := hs.put hb (isSome_putUnsynced s h data) he
    cases r <;> exact hput
  | putReplace h data =>
    have hb : (s.putReplace h data).blobs = s.blobs := rfl
    have hput := hs.put hb (isSome_putReplace s h data) he
    cases r <;> exact hput
  | deleteObject h =>
    have hnew : h ∉ c + rest := by
      rw [mem_add]
      exact fun hm => hm.elim hop (ha.2 h rfl)
    rcases backendAnswer_cases he with rfl | rfl
    · exact hs
    · refine ⟨fun x b hb => ?_, fun x hx => ?_⟩
      · have hx : x ≠ h := by
          rintro rfl
          have hget : s.blobs.get x = some b := hb
          rw [show s.blobs.get x = none from ha.1.2] at hget
          cases hget
        simp only [Store.deleteObject, get_erase_ne _ hx]
        exact hs.rows x b hb
      · have hxh : x ≠ h := by
          rintro rfl
          exact hnew hx
        simp only [Store.deleteObject, get_erase_ne _ hxh]
        exact hs.written x hx
  | registerChunks rows =>
    refine answer_elim he hs ?_
    have hreg : Stocked (s.registerChunks rows) (c + rest) :=
      hs.register rfl rfl fun x hx => mem_add.mpr (.inl (hop x hx))
    exact ⟨hreg.rows, fun x hx => hreg.written x (mem_add.mpr (.inr (by rwa [← zero_add rest])))⟩
  | registerOrphans rows =>
    exact answer_elim he hs (hs.register rfl rfl fun x hx => mem_add.mpr (.inl (hop x hx)))
  | _ =>
    have ho := objects_exec id he
    have hr := rowsAged_exec id he
    refine ⟨fun x b' hb' => ?_, fun x hx => ?_⟩
    · obtain ⟨b, hb, -⟩ := hr x b' hb'
      rw [ho]
      exact hs.rows x b hb
    · rw [ho]
      exact hs.written x hx

/-- The triple of programs that supply what they register. -/
abbrev Supplies {α : Type} (p : Db H α) (c : Multiset H) (Q : α → Multiset H → Prop) : Prop :=
  Safe (machine H) (stock H) Spares Stocked p c Q

theorem Supplies.issue {α : Type} {k : op.Resp → Db H α} {Q : α → Multiset H → Prop}
    (hop : Supplied c op) (hk : ∀ r, Supplies (k r) (written op r c) Q) :
    Supplies (Machine.issue op >>= k) c Q :=
  safe_call fun _ _ r _ _ hs ha he => ⟨hs.exec ha he hop, hk r⟩

/-- The statements that neither write objects nor rely on written ones. -/
def Inert (op : Op H) : Prop := (∀ c, Supplied c op) ∧ ∀ r c, written op r c = c

omit [DecidableEq H] in
theorem Inert.of_bookkeeping (op : Op H) (h : Bookkeeping op) : Inert op := by
  cases op <;> first | exact absurd h id | exact ⟨fun _ => trivial, fun _ _ => rfl⟩

theorem steady_supplies {α : Type} {p : Db H α} (h : p.Only fun op => Supplied c op ∧ ∀ r, written op r c = c) :
    Supplies p c fun _ c' => c' = c := by
  refine Safe.of_only h fun op hop ch s r s' rest hs ha he => ?_
  have hnext : (stock H).next op s r c = c := hop.2 r
  have hs' := hs.exec ha he hop.1
  rw [hnext] at hs'
  exact ⟨hs', hnext⟩

theorem inert_supplies {α : Type} {p : Db H α} (h : p.Only Inert) : Supplies p c fun _ c' => c' = c :=
  steady_supplies (h.mono fun _ hop => ⟨hop.1 c, fun r => hop.2 r c⟩)

/-! ### Ingest sessions -/

/-- The objects a session has written. -/
def objectsOf (st : IngestState H) : Multiset H := (st.written.map Prod.fst : List H)

theorem writeChunks_supplies (contested : List H) : ∀ (l : List (H × Bytes)) (st : IngestState H),
    Supplies (writeChunks contested l st) (objectsOf st) fun r c => c = objectsOf r.2
  | [], st => safe_ret rfl
  | (h, data) :: rest, st => by
    have hcons : h ::ₘ objectsOf st =
        objectsOf { st with written := st.written ++ [(h, data.length)] } := by
      simp only [objectsOf, List.map_append, List.map_cons, List.map_nil, ← coe_add, coe_singleton]
      rw [add_comm, singleton_add]
    have hok : Supplies (writeChunks contested rest
        { st with written := st.written ++ [(h, data.length)] }) (h ::ₘ objectsOf st)
          fun r c => c = objectsOf r.2 := by
      rw [hcons]
      exact writeChunks_supplies contested rest _
    have herr : Supplies (writeChunks contested rest st >>= fun r =>
        ret ((.error (internalError "Blob") : Except DomainError Unit), r.2)) (objectsOf st)
          fun r c => c = objectsOf r.2 :=
      Safe.bind (writeChunks_supplies contested rest st) fun r c hc => safe_ret hc
    rw [writeChunks]
    split_ifs
    all_goals
      refine Supplies.issue trivial fun r => ?_
      cases r with
      | some _ => exact hok
      | none => exact herr

theorem settleBatch_supplies (batch : List (H × Bytes)) (st : IngestState H) :
    Supplies (settleBatch batch st) (objectsOf st) fun r c => c = objectsOf r.2 := by
  unfold settleBatch
  split_ifs
  · exact safe_ret rfl
  · refine Supplies.issue trivial fun r => ?_
    cases r with
    | none => exact safe_ret rfl
    | some pinned =>
      dsimp only
      split_ifs
      · exact safe_ret rfl
      · refine Supplies.issue trivial fun r => ?_
        cases r with
        | none => exact safe_ret rfl
        | some contested => exact writeChunks_supplies contested _ _

omit [DecidableEq H] in
theorem mem_objectsOf {st : IngestState H} {x : H} (hx : x ∈ st.written.map Prod.fst) :
    x ∈ objectsOf st := mem_coe.mpr hx

theorem runRollback_supplies (st : IngestState H) :
    Supplies (runRollback st) (objectsOf st) fun _ c => c = objectsOf st :=
  steady_supplies (runRollback_only st (fun _ => ⟨trivial, fun _ => rfl⟩) (fun _ => ⟨trivial, fun _ => rfl⟩)
    ⟨fun x hx => mem_objectsOf hx, fun _ => rfl⟩)

theorem supplies_session (blake3 : Bytes → H) :
    Session blake3 (stock H) Spares Stocked (fun _ st c => c = objectsOf st) (fun st c => c = objectsOf st)
      fun r c => ∀ o, r = .ok o → c = 0 where
  seen ha _ := ha
  new ha _ := ha
  settle ha := ha ▸ (settleBatch_supplies _ _).mono fun _ _ hr => ⟨hr, fun _ => hr⟩
  stop ha := ha
  rollback _ hb := hb ▸ (runRollback_supplies _).mono fun _ _ _ => nofun
  done ha hw _ _ := by
    rw [ha, objectsOf, hw]
    rfl
  sync ha := Supplies.issue (k := ret) trivial fun _ => safe_ret ha
  register ha := by
    subst ha
    refine Supplies.issue (k := ret) (fun x hx => mem_objectsOf hx) fun r => safe_ret ⟨?_, ?_⟩
    · rintro rfl
      rfl
    · rintro rfl _ _
      rfl

/-- An ingest that succeeds has registered all it has written. -/
theorem ingestChunksFromStream_supplies (blake3 : Bytes → H) (source : Source) :
    Supplies (ingestChunksFromStream blake3 source) 0 fun r c => ∀ o, r = .ok o → c = 0 :=
  (supplies_session blake3).ingest source rfl

theorem upload_supplies (blake3 : Bytes → H) (fuel : ℕ) (source : Source) (target : Registration H) :
    Supplies (upload blake3 fuel source target) 0 fun _ _ => True := by
  have hstore : Supplies (storeFromStream blake3 source) 0 fun _ _ => True := by
    refine Safe.bind (ingestChunksFromStream_supplies blake3 source) fun r c hr => ?_
    cases r with
    | error e => exact safe_ret trivial
    | ok o =>
      have hrelease := (releaseChunkRefs_only o.distinctHashes).mono Inert.of_bookkeeping
      exact (inert_supplies (attachLoop_only ⟨fun _ => trivial, fun _ _ => rfl⟩
        ⟨fun _ => trivial, fun _ _ => rfl⟩ hrelease 3)).mono fun _ _ _ => trivial
  refine Safe.bind hstore fun r c _ => ?_
  cases r with
  | error e => exact safe_ret trivial
  | ok stored =>
    exact (inert_supplies ((register_only fuel _ _).mono Inert.of_bookkeeping)).mono
      fun _ _ _ => trivial

/-! ### The conversion -/

/-- The statements of a conversion. -/
def Converting : Op H → Prop
  | .loadManifest _ | .readObject _ | .rechunk .. | .deleteObject _ | .enqueueDeletion _ => True
  | op => Ingest op

omit [DecidableEq H] in
theorem Converting.of_ingest (op : Op H) (h : Ingest op) : Converting op := by
  cases op <;> trivial

theorem rechunkOneLegacyBlob_only (blake3 : Bytes → H) (cut : Bytes → Source) (h : H) :
    (rechunkOneLegacyBlob blake3 cut h).Only Converting := by
  have hrelease : ∀ hs : List H, (releaseChunkRefs hs).Only Converting :=
    fun hs => releaseChunkRefs_stmt trivial
  have hread : (readBlobStream h).Only Converting :=
    readBlobStream_only (fun _ => trivial) (fun _ => trivial) h
  have hingest : (ingestLegacyBlob blake3 cut h).Only Converting := by
    refine hread.bind fun r => ?_
    cases r with
    | error e => exact only_ret _
    | ok data =>
      refine ((ingestChunksFromStream_only blake3 (cut data)).mono Converting.of_ingest).bind
        fun r => ?_
      cases r with
      | error e => exact only_ret _
      | ok o =>
        dsimp only
        split_ifs
        · exact only_ret _
        · exact (hrelease _).bind fun _ => only_ret _
  refine hingest.bind fun r => ?_
  cases r with
  | error e => exact only_ret _
  | ok o =>
    refine only_stmt trivial fun r => ?_
    rcases r with _ | _ | deleted
    · exact only_ret _
    · exact (hrelease _).bind fun _ => only_ret _
    · dsimp only
      split_ifs
      · exact (only_op trivial).ask (only_stmt trivial fun _ => only_ret _) fun _ => only_ret _
      · exact only_ret _

variable {a : Multiset (Token H)}

/-- A conversion holds references on chunks only. -/
theorem fileTokens_converting (hop : Converting op) (ha : ∀ h, fileTokens a h = 0) (h : H) :
    fileTokens ((ledger H).next op s r a) h = 0 := by
  have hgain : fileTokens (gain op s r) h = 0 := by
    cases op with
    | pinExisting hs => cases r <;> simp [gain]
    | registerChunks rows => cases r <;> simp [gain]
    | _ => first | rfl | exact absurd hop id
  have hle : (ledger H).next op s r a ≤ a + gain op s r := by
    refine add_le_add ?_ le_rfl
    exact (Multiset.sub_le_self _ _).trans ((Multiset.sub_le_self _ _).trans (filter_le _ a))
  have h1 := fileTokens_mono hle h
  rw [fileTokens_add, ha h, hgain] at h1
  omega

theorem keeps_zero (hk : Keeps True 0 a) : a = 0 := by
  obtain ⟨h1, h2⟩ := hk.eq trivial
  refine eq_zero_of_forall_notMem fun t ht => ?_
  have hpos := count_pos.mpr ht
  by_cases hslot : t = .slot
  · subst hslot
    rw [slots_zero, slots] at h2
    omega
  · have := h1 t hslot
    rw [count_zero] at this
    omega

/-- **A conversion** keeps the accounts, and holds nothing at its end. -/
theorem rechunkOneLegacyBlob_spec (blake3 : Bytes → H) (cut : Bytes → Source) (h : H) :
    Triple (conversion H) (rechunkOneLegacyBlob blake3 cut h) 0 fun _ a => a = 0 := by
  have hread : Triple (conversion H) (readBlobStream h) 0 fun _ a => a = 0 := by
    refine Safe.of_only (P := Op.Quiet)
      (readBlobStream_only (fun _ => trivial) (fun _ => trivial) h)
      fun op hq ch s r s' rest hs ha he => ?_
    have hnext : (ledger H).next op s r 0 = 0 := next_quiet hq
    have hcommon : Common op := by cases op <;> trivial
    have hl : loss op r ≤ 0 := by
      cases op <;> first | exact le_rfl | exact absurd hq id
    have hs' := (conversion H).exec hcommon hs ha he hl
    rw [hnext] at hs'
    exact ⟨hs', hnext⟩
  have hingest : Triple (conversion H) (ingestLegacyBlob blake3 cut h) 0 fun r a =>
      a = r.toOption.elim 0 fun o => chunksOf o.chunkHashes := by
    refine Safe.bind hread fun r a ha => ?_
    subst ha
    cases r with
    | error e => exact safe_ret rfl
    | ok data =>
      refine Safe.bind (ingestChunksFromStream_spec blake3 (cut data)) fun r a hr => ?_
      cases r with
      | error e => exact safe_ret (keeps_zero hr)
      | ok o =>
        dsimp only at hr ⊢
        split_ifs
        · rw [add_zero] at hr
          exact safe_ret hr
        · rw [hr]
          exact Safe.bind (releaseChunkRefs_spec fun _ => List.mem_dedup) fun _ _ hk =>
            safe_ret (keeps_zero hk)
  refine Safe.bind hingest fun r a ha => ?_
  cases r with
  | error e => exact safe_ret ha
  | ok o =>
    obtain rfl : a = chunksOf o.chunkHashes := ha
    refine Triple.rechunk (by simp) le_rfl fun s ch r s' rest ha he => ?_
    rw [next_eq (fun _ => rfl) rfl]
    rcases r with _ | _ | deleted
    · cases (answer_ok (r := none) ha.1.2 he).1
    · exact Safe.bind (releaseChunkRefs_spec fun _ => Iff.rfl) fun _ _ hk =>
        safe_ret (keeps_zero hk)
    · have hz : chunksOf o.chunkHashes -
          loss (.rechunk h o.chunkHashes o.chunkSizes) (some (some deleted)) +
          gain (.rechunk h o.chunkHashes o.chunkSizes) s (some (some deleted)) = 0 := by
        simp only [loss, gain, add_zero]
        exact le_zero.mp (Multiset.sub_le_iff_le_add.mpr (by rw [zero_add]))
      rw [hz]
      dsimp only
      split_ifs
      · refine Triple.ask trivial fun _ _ r _ _ _ _ _ => ?_
        cases r with
        | some _ => exact safe_ret rfl
        | none => exact Triple.ask trivial fun _ _ _ _ _ _ _ _ => safe_ret rfl
      · exact safe_ret rfl

theorem rechunkOneLegacyBlob_supplies (blake3 : Bytes → H) (cut : Bytes → Source) (h : H) :
    Supplies (rechunkOneLegacyBlob blake3 cut h) 0 fun _ _ => True := by
  have hrelease : ∀ hs : List H, Supplies (releaseChunkRefs hs) 0 fun _ c => c = 0 :=
    fun hs => inert_supplies ((releaseChunkRefs_only hs).mono Inert.of_bookkeeping)
  have hread : Supplies (readBlobStream h) 0 fun _ c => c = 0 :=
    inert_supplies (readBlobStream_only (fun _ => ⟨fun _ => trivial, fun _ _ => rfl⟩)
      (fun _ => ⟨fun _ => trivial, fun _ _ => rfl⟩) h)
  have hingest : Supplies (ingestLegacyBlob blake3 cut h) 0 fun r c => ∀ o, r = .ok o → c = 0 := by
    refine Safe.bind hread fun r c hc => ?_
    subst hc
    cases r with
    | error e => exact safe_ret fun _ hok => by cases hok
    | ok data =>
      refine Safe.bind (ingestChunksFromStream_supplies blake3 (cut data)) fun r c hr => ?_
      cases r with
      | error e => exact safe_ret fun _ hok => by cases hok
      | ok o =>
        rw [hr o rfl]
        dsimp only
        split_ifs
        · exact safe_ret fun _ _ => rfl
        · exact Safe.bind (hrelease _) fun _ _ hc => safe_ret fun _ _ => hc
  refine Safe.bind hingest fun r c hr => ?_
  cases r with
  | error e => exact safe_ret trivial
  | ok o =>
    rw [hr o rfl]
    refine Supplies.issue trivial fun r => ?_
    rcases r with _ | _ | deleted
    · exact safe_ret trivial
    · exact Safe.bind (hrelease _) fun _ _ _ => safe_ret trivial
    · dsimp only
      split_ifs
      · refine Supplies.issue (notMem_zero h) fun r => ?_
        cases r with
        | some _ => exact safe_ret trivial
        | none => exact Supplies.issue trivial fun _ => safe_ret trivial
      · exact safe_ret trivial

/-! ### The system -/

/-- The requests served beside a conversion: uploads that reach the repository, and deletions. -/
def Served : Request H → Prop
  | .upload _ target => target ≠ .abandon
  | .delete _ | .deletePermanently _ => True
  | _ => False

/-- The store, the rest of the conversion that is going on (a program that has returned if there is none)
and the references that conversion holds. -/
structure Site (H : Type) where
  store : Store H
  conversion : Db H (Except DomainError ℕ)
  held : Multiset (Token H)

/-- One step: a request is served, a conversion starts or issues its next statement. Every statement is
issued under a choice that meets `guard`. -/
inductive Step (blake3 : Bytes → H) (fuel : ℕ) (guard : Op H → Choice H → Store H → Prop) :
    Site H → Site H → Prop where
  | serve {s s' : Store H} {p : Db H (Except DomainError ℕ)} {a : Multiset (Token H)}
      {tr : List (Op H)} {r : Bool} (q : Request H) (hq : Served q)
      (hr : Run (machine H) guard (q.prog blake3 fuel) s tr r s') :
      Step blake3 fuel guard ⟨s, p, a⟩ ⟨s', p, a⟩
  | convert {s : Store H} {x : Except DomainError ℕ} {a : Multiset (Token H)} (cut : Bytes → Source)
      (h : H) : Step blake3 fuel guard ⟨s, .ret x, a⟩ ⟨s, rechunkOneLegacyBlob blake3 cut h, 0⟩
  | advance {s s' : Store H} {op : Op H} {k : op.Resp → Db H (Except DomainError ℕ)} {r : op.Resp}
      {a : Multiset (Token H)} (ch : Choice H) (hg : guard op ch s)
      (he : Machine.exec op ch s = some (r, s')) :
      Step blake3 fuel guard ⟨s, .call op k, a⟩ ⟨s', k r, (ledger H).next op s r a⟩

/-- Any number of steps. -/
def Steps (blake3 : Bytes → H) (fuel : ℕ) (guard : Op H → Choice H → Store H → Prop) :
    Site H → Site H → Prop :=
  Relation.ReflTransGen (Step blake3 fuel guard)

/-- The site before anything has happened. -/
def Site.start (s : Store H) : Site H := ⟨s, .ret (.ok 0), 0⟩

/-- No conversion is going on. -/
def Site.Idle (σ : Site H) : Prop := ∃ x, σ.conversion = .ret x

/-- What holds at every point of the site, with the objects `c` the conversion has written. -/
structure SiteOK (blake3 : Bytes → H) (σ : Site H) (c : Multiset H) : Prop where
  accounts : Mixed σ.store σ.held
  chunks : ∀ h, fileTokens σ.held h = 0
  stock : Stocked σ.store c
  sound : Sound blake3 σ.store
  only : σ.conversion.Only Converting
  spec : Triple (conversion H) σ.conversion σ.held fun _ a => a = 0
  supplies : Supplies σ.conversion c fun _ _ => True
  writes : Writes blake3 σ.conversion fun _ => True

variable {q : Request H}

theorem request_spec (hq : Served q) (hf : 0 < fuel) :
    Triple (conversion H) (q.prog blake3 fuel) 0 fun _ a => a = 0 := by
  have hfresh : ∀ (hs : List H) (h : H), (conversion H).fresh (chunksOf hs + 0) h := by
    intro hs h
    show fileTokens (chunksOf hs + 0) h = 0
    rw [add_zero, fileTokens_chunksOf]
  have hslots : (conversion H).strict → slots (0 : Multiset (Token H)) < fuel := by
    exact fun _ => hf
  cases q with
  | upload source target =>
    exact Safe.bind (upload_spec blake3 source hfresh (fun _ => hq) hslots) fun _ _ hk =>
      safe_ret (keeps_zero hk)
  | delete id => exact Safe.bind (deleteFile_spec id) fun _ _ hc => safe_ret hc
  | deletePermanently id =>
    exact Safe.bind (deleteFilePermanently_spec id fun hs => (hslots hs).le) fun _ _ hk =>
      safe_ret (keeps_zero hk)
  | _ => exact absurd hq id

theorem request_supplies (hq : Served q) : Supplies (q.prog blake3 fuel) 0 fun _ _ => True := by
  cases q with
  | upload source target =>
    exact Safe.bind (upload_supplies blake3 fuel source target) fun _ _ _ => safe_ret trivial
  | delete id =>
    exact Safe.bind (inert_supplies ((deleteFile_only id).mono Inert.of_bookkeeping))
      fun _ _ _ => safe_ret trivial
  | deletePermanently id =>
    exact Safe.bind (inert_supplies ((deleteFilePermanently_only fuel id).mono Inert.of_bookkeeping))
      fun _ _ _ => safe_ret trivial
  | _ => exact absurd hq id

/-- No request deletes an object. -/
theorem request_only (hq : Served q) :
    (q.prog blake3 fuel).Only fun op : Op H => ∀ h, op ≠ .deleteObject h := by
  have hbooks : ∀ op : Op H, Bookkeeping op → ∀ h, op ≠ .deleteObject h := by
    rintro op hop h rfl
    exact hop
  have hingest : ∀ op : Op H, Ingest op → ∀ h, op ≠ .deleteObject h := by
    rintro op hop h rfl
    exact hop
  cases q with
  | upload source target =>
    have hstore : (storeFromStream blake3 source).Only fun op : Op H => ∀ h, op ≠ .deleteObject h := by
      refine ((ingestChunksFromStream_only blake3 source).mono hingest).bind fun r => ?_
      cases r with
      | error e => exact only_ret _
      | ok o =>
        exact attachLoop_only (fun _ => by simp) (fun _ => by simp)
          ((releaseChunkRefs_only _).mono hbooks) 3
    refine Only.bind (hstore.bind fun r => ?_) fun _ => only_ret _
    cases r with
    | error e => exact only_ret _
    | ok stored => exact (register_only fuel _ target).mono hbooks
  | delete id => exact ((deleteFile_only id).mono hbooks).bind fun _ => only_ret _
  | deletePermanently id =>
    exact ((deleteFilePermanently_only fuel id).mono hbooks).bind fun _ => only_ret _
  | _ => exact absurd hq id

variable {σ : Site H}

theorem SiteOK.serve (hk : SiteOK blake3 σ c) (hf : 0 < fuel) (hq : Served q) {tr : List (Op H)}
    {r : Bool} (hr : Run (machine H) Careful (q.prog blake3 fuel) σ.store tr r s') :
    SiteOK blake3 ⟨s', σ.conversion, σ.held⟩ c := by
  have hrecv : q.Receivable := by cases q <;> trivial
  have hm : Mixed σ.store (0 + σ.held) := by
    rw [zero_add]
    exact hk.accounts
  have hst : Stocked σ.store (0 + c) := by
    rw [zero_add]
    exact hk.stock
  obtain ⟨a, hm', rfl⟩ := (request_spec hq hf).run_beside hm (fun _ _ _ hg => ⟨hg, hk.chunks⟩) hr
  have hsup : Supplies (q.prog blake3 fuel) 0 fun _ _ => True := request_supplies hq
  obtain ⟨c', hst', -⟩ := hsup.run_beside hst
    (fun op ch s hg => ⟨hg.1, fun h hop => absurd hop (hg.2 h)⟩) (hr.with_only (request_only hq))
  obtain ⟨_, hsound, -⟩ := (request_writes fuel hrecv 0).run hk.sound (fun _ _ _ _ => trivial) hr
  rw [zero_add] at hm'
  exact ⟨hm', hk.chunks, ⟨hst'.rows, fun h hh => hst'.written h (mem_add.mpr (.inr hh))⟩, hsound,
    hk.only, hk.spec, hk.supplies, hk.writes⟩

theorem SiteOK.advance {k : op.Resp → Db H (Except DomainError ℕ)}
    (hk : SiteOK blake3 ⟨s, .call op k, a⟩ c) (hg : Careful op ch s)
    (he : Machine.exec op ch s = some (r, s')) :
    SiteOK blake3 ⟨s', k r, (ledger H).next op s r a⟩ (written op r c) := by
  obtain ⟨hm, hspec⟩ := hk.spec ch s r s' 0 (by rw [add_zero]; exact hk.accounts)
    ⟨hg, fun h => fileTokens_zero h⟩ he
  obtain ⟨hst, hsup⟩ := hk.supplies ch s r s' 0 (by rw [add_zero]; exact hk.stock)
    ⟨hg, fun h _ => notMem_zero h⟩ he
  have hw : ∀ b : Multiset Unit, Sound blake3 s' ∧ Safe (machine H) .idle (fun _ _ _ _ => True)
      (fun s _ => Sound blake3 s) (k r) b fun _ _ => True :=
    fun b => hk.writes b ch s r s' 0 hk.sound trivial he
  rw [add_zero] at hm hst
  exact ⟨hm, fileTokens_converting hk.only.1 hk.chunks, hst, (hw 0).1, hk.only.2 r, hspec, hsup,
    fun b => (hw b).2⟩

/-- **One step keeps the site.** -/
theorem Step.ok {σ' : Site H} (h : Step blake3 fuel Careful σ σ') (hf : 0 < fuel)
    (hk : ∃ c, SiteOK blake3 σ c) : ∃ c, SiteOK blake3 σ' c := by
  obtain ⟨c, hk⟩ := hk
  cases h with
  | serve q hq hr => exact ⟨c, hk.serve hf hq hr⟩
  | @convert s x a cut h =>
    obtain rfl : a = 0 := hk.spec
    have hst : Stocked s 0 := ⟨hk.stock.rows, fun h hh => absurd hh (notMem_zero h)⟩
    exact ⟨0, hk.accounts, hk.chunks, hst, hk.sound, rechunkOneLegacyBlob_only blake3 cut h,
      rechunkOneLegacyBlob_spec blake3 cut h, rechunkOneLegacyBlob_supplies blake3 cut h,
      rechunkOneLegacyBlob_writes cut h⟩
  | advance ch hg he => exact ⟨_, hk.advance hg he⟩

theorem Steps.ok {σ' : Site H} (h : Steps blake3 fuel Careful σ σ') (hf : 0 < fuel)
    (hk : ∃ c, SiteOK blake3 σ c) : ∃ c, SiteOK blake3 σ' c := by
  induction h with
  | refl => exact hk
  | tail _ hstep ih => exact hstep.ok hf ih

/-! ### Reading -/

/-- No statement fails. -/
def NoFault (_ : Op H) (ch : Choice H) (_ : Store H) : Prop := ch.fault = false

instance (op : Op H) (ch : Choice H) (s : Store H) : Decidable (NoFault op ch s) :=
  inferInstanceAs (Decidable (_ = _))

/-- `read_blob_stream` returns a content with the hash `h` if none of its statements fails. -/
def Readable (blake3 : Bytes → H) (s : Store H) (h : H) : Prop :=
  ∃ data tr, blake3 data = h ∧ Run (machine H) NoFault (readBlobStream h) s tr (.ok data) s

theorem readChunks_run : ∀ (contents : List Bytes) (content : Bytes),
    (∀ x ∈ contents, s.objects.get (blake3 x) = some x) → ∃ tr, Run (machine H) NoFault
      (readChunks (contents.map blake3) content) s tr (.ok (content ++ contents.flatten)) s
  | [], content, _ => by
    refine ⟨[], ?_⟩
    rw [List.flatten_nil, List.append_nil]
    exact .ret _ s
  | x :: contents, content, hx => by
    obtain ⟨tr, hr⟩ := readChunks_run contents (content ++ x) fun y hy => hx y (by simp [hy])
    rw [List.append_assoc] at hr
    have he : Machine.exec (.readObject (blake3 x)) (.ok : Choice H) s = some (some x, s) := by
      simp [Machine.exec, Choice.ok, hx x (by simp)]
    exact ⟨.readObject (blake3 x) :: tr, .call .ok rfl he hr⟩

omit [DecidableEq H] in
/-- A stored object is the content its hash names, if no two contents have one hash. -/
theorem Stocked.get {a : Multiset H} (hs : Stocked s a) (hsound : Sound blake3 s)
    (hinj : Function.Injective blake3) {x : Bytes} {b : BlobRow}
    (hrow : s.blobs.get (blake3 x) = some b) : s.objects.get (blake3 x) = some x := by
  obtain ⟨data, hd⟩ := Option.isSome_iff_exists.mp (hs.rows _ b hrow)
  rw [hd, hinj (hsound.objects _ data hd)]

/-- **What is referenced can be read.** -/
theorem SiteOK.readable (hk : SiteOK blake3 σ c) (hinj : Function.Injective blake3) {h : H}
    (hpos : 0 < σ.store.filesNaming h) : Readable blake3 σ.store h := by
  obtain ⟨L, hL⟩ := hk.accounts.accounts
  cases hm : σ.store.chunkManifests.get h with
  | some m =>
    obtain ⟨⟨contents, hcs, -, hh⟩, -⟩ := hk.sound.manifests h m hm
    have hobj : ∀ x ∈ contents, σ.store.objects.get (blake3 x) = some x := by
      intro x hx
      have hcont : 0 < σ.store.containing (blake3 x) :=
        count_pos hm (decide_eq_true (hcs ▸ List.mem_map.mpr ⟨x, hx, rfl⟩))
      have h1 := hL.chunk (blake3 x)
      obtain ⟨b, hb⟩ := Store.exists_blob_of_pos (s := σ.store) (h := blake3 x) (by omega)
      exact hk.stock.get hk.sound hinj hb
    obtain ⟨tr, hr⟩ := readChunks_run contents [] hobj
    have he : Machine.exec (.loadManifest h) (.ok : Choice H) σ.store =
        some (some (some m), σ.store) := by
      simp [Machine.exec, answer, Choice.ok, hm]
    rw [← hcs] at hr
    exact ⟨_, _, hh.symm, .call .ok rfl he hr⟩
  | none =>
    have hcredit : 0 < L h := hL.file_pos hm (by rw [hk.accounts.references_eq]; omega)
    have h1 := hL.chunk h
    obtain ⟨b, hb⟩ := Store.exists_blob_of_pos (s := σ.store) (h := h) (by omega)
    obtain ⟨data, hd⟩ := Option.isSome_iff_exists.mp (hk.stock.rows h b hb)
    have hdata := hk.sound.objects h data hd
    have hobj : ∀ x ∈ [data], σ.store.objects.get (blake3 x) = some x := by
      intro x hx
      rw [List.mem_singleton.mp hx, hdata]
      exact hd
    obtain ⟨tr, hr⟩ := readChunks_run [data] [] hobj
    have he : Machine.exec (.loadManifest h) (.ok : Choice H) σ.store =
        some (some none, σ.store) := by
      simp [Machine.exec, answer, Choice.ok, hm]
    rw [List.map_singleton, hdata] at hr
    refine ⟨_, _, ?_, .call .ok rfl he hr⟩
    simpa using hdata

/-! ### Files keep their content -/

/-- A store that may hold legacy blobs, with exact counters: a manifest counts the file rows naming it, a
blob row the manifests containing it and, while there is no manifest, the file rows naming it. -/
structure LegacyStore (blake3 : Bytes → H) (s : Store H) : Prop where
  manifests : ∀ h m, s.chunkManifests.get h = some m → m.refCount = s.filesNaming h
  blobs : ∀ h, s.blobRefs h = s.containing h +
    if (s.chunkManifests.get h).isSome then 0 else s.filesNaming h
  objects : ∀ h b, s.blobs.get h = some b → (s.objects.get h).isSome = true
  sound : Sound blake3 s
  derived : ∀ k, s.contentDerivedBlobs.get k = none
  attached : ∀ k, s.fileAttachedBlobs.get k = none

theorem LegacyStore.ok (hs : LegacyStore blake3 s) : SiteOK blake3 (Site.start s) 0 := by
  have hsplit : Split s 0 fun h =>
      if (s.chunkManifests.get h).isSome then 0 else s.filesNaming h := by
    have hrefs := references_eq hs.derived hs.attached
    refine ⟨fun h => ?_, fun x => ?_, fun h hh => if_pos hh⟩
    · rw [hrefs h, fileTokens_zero, Nat.add_zero]
      cases hm : s.chunkManifests.get h with
      | some m =>
        rw [Store.manifestRefs_of_get hm, hs.manifests h m hm]
        rfl
      | none =>
        rw [Store.manifestRefs_of_none hm, Nat.zero_add]
        rfl
    · rw [hs.blobs x, chunkTokens_zero]
      omega
  refine ⟨⟨⟨_, hsplit⟩, fun h cs hmem => absurd hmem (notMem_zero _), hs.derived, hs.attached⟩,
    fun h => fileTokens_zero h, ⟨hs.objects, fun h hh => absurd hh (notMem_zero h)⟩, hs.sound,
    only_ret _, safe_ret rfl, safe_ret trivial, .ret trivial⟩

/-- **Files keep their content through the conversion.** In every run of uploads and deletions with
conversions in between, from a store with exact counters, if a manifest is only inserted for a content no
file row names yet and an object only deleted while no blob row names it (and the statements that settle a
reference do not fail): at every point each file row can be read, each manifest counts the file rows
naming it, and the blob row of its hash counts only the manifests containing it and the chunk references
of the conversion that is going on. -/
theorem conversion_keeps_files (hinj : Function.Injective blake3) (hf : 0 < fuel)
    (hs : LegacyStore blake3 s) {σ : Site H} (hr : Steps blake3 fuel Careful (Site.start s) σ) :
    (∀ id row, σ.store.files.get id = some row → Readable blake3 σ.store row.blobHash) ∧
      (∀ h m, σ.store.chunkManifests.get h = some m → m.refCount = σ.store.filesNaming h ∧
        σ.store.blobRefs h = σ.store.containing h + chunkTokens σ.held h) ∧
      (σ.Idle → σ.held = 0) := by
  obtain ⟨c, hk⟩ := hr.ok hf ⟨0, hs.ok⟩
  obtain ⟨L, hL⟩ := hk.accounts.accounts
  refine ⟨fun id row hrow => ?_, fun h m hm => ?_, fun hidle => ?_⟩
  · exact hk.readable hinj (count_pos hrow (decide_eq_true rfl))
  · have hz := hL.converted h (by rw [hm]; rfl)
    have hfile := hL.file h
    have hchunk := hL.chunk h
    rw [hk.accounts.references_eq, hk.chunks, Store.manifestRefs_of_get hm] at hfile
    exact ⟨by omega, by omega⟩
  · obtain ⟨x, hx⟩ := hidle
    have hspec := hk.spec
    rw [hx] at hspec
    exact hspec

/-! ### Runs on a small store -/

/-- Let the conversion issue its next statements. -/
def advances (guard : Op H → Choice H → Store H → Prop) [∀ op ch s, Decidable (guard op ch s)] :
    List (Choice H) → Site H → Option (Site H)
  | [], σ => some σ
  | ch :: l, ⟨s, .call op k, a⟩ =>
    if guard op ch s then (Machine.exec op ch s).bind fun x =>
      advances guard l ⟨x.2, k x.1, (ledger H).next op s x.1 a⟩ else none
  | _ :: _, ⟨_, .ret _, _⟩ => none

theorem advances_steps {guard : Op H → Choice H → Store H → Prop}
    [∀ op ch s, Decidable (guard op ch s)] : ∀ {l : List (Choice H)} {σ σ' : Site H},
      advances guard l σ = some σ' → Steps blake3 fuel guard σ σ'
  | [], _, _, h => by cases h; exact .refl
  | _ :: _, ⟨_, .ret _, _⟩, _, h => by cases h
  | ch :: l, ⟨s, .call op k, a⟩, σ', h => by
    rw [advances] at h
    split_ifs at h with hg
    obtain ⟨⟨r, s'⟩, he, h⟩ := Option.bind_eq_some_iff.mp h
    exact .head (.advance ch hg he) (advances_steps h)

/-- The file `1` with the content `1, 2`, stored as a legacy blob. -/
def oneLegacyFile : Store Bytes :=
  { (Store.fresh {0} : Store Bytes) with
    files := .set .empty 1 ⟨0, "a", [1, 2], false⟩
    blobs := .set .empty [1, 2] ⟨2, 1, none⟩
    objects := .set .empty [1, 2] [1, 2] }

theorem oneLegacyFile_ok : LegacyStore id oneLegacyFile where
  manifests h m hm := by cases hm
  blobs h := by
    have hfiles : oneLegacyFile.filesNaming h = if h = [1, 2] then 1 else 0 := by
      have h1 := count_set_new (t := (.empty : Table FileId (FileRow Bytes))) (k := 1) rfl
        (fun _ r => decide (r.blobHash = h)) ⟨0, "a", [1, 2], false⟩
      simpa [Store.filesNaming, oneLegacyFile, eq_comm] using h1
    have hrefs : oneLegacyFile.blobRefs h = if h = [1, 2] then 1 else 0 := by
      simp only [Store.blobRefs, oneLegacyFile, get_set]
      split_ifs <;> rfl
    have hcont : oneLegacyFile.containing h = 0 := rfl
    rw [hrefs, hcont, Nat.zero_add, ← hfiles]
    rfl
  objects h b hb := by
    simp only [oneLegacyFile, get_set] at hb ⊢
    split_ifs at hb ⊢ with hh
    · rfl
    · cases hb
  sound := by
    refine ⟨fun h m hm => ?_, fun h data hd => ?_⟩
    · cases hm
    · simp only [oneLegacyFile, get_set] at hd
      split_ifs at hd with hh
      · cases hd
        exact hh.symm
      · cases hd
  derived _ := rfl
  attached _ := rfl

/-- The chunker of the runs below: one byte a chunk. -/
def bytewise (data : Bytes) : Source := ⟨data.map fun b => [b], false⟩

/-- The conversion of the file's content. -/
abbrev converting : Site Bytes := ⟨oneLegacyFile, rechunkOneLegacyBlob id bytewise [1, 2], 0⟩

theorem converting_steps {guard : Op Bytes → Choice Bytes → Store Bytes → Prop} :
    Steps id 1 guard (Site.start oneLegacyFile) converting :=
  .single (.convert bytewise [1, 2])

theorem conversion_keeps_files_oneLegacyFile :
    ∃ σ, Steps id 1 Careful (Site.start oneLegacyFile) σ ∧ σ.store.manifestRefs [1, 2] = 1 ∧
      σ.store.objects.get [1, 2] = none ∧ Readable id σ.store [1, 2] := by
  have hrun : ((advances Careful (List.replicate 10 .ok) converting).any fun σ =>
      decide (σ.store.manifestRefs [1, 2] = 1 ∧ σ.store.objects.get [1, 2] = none ∧
        σ.store.files.get 1 = some ⟨0, "a", [1, 2], false⟩)) = true := by
    decide +kernel
  obtain ⟨σ, h1, h2⟩ := (Option.any_eq_true _ _).mp hrun
  obtain ⟨hman, hobj, hrow⟩ := of_decide_eq_true h2
  have hsteps : Steps id 1 Careful (Site.start oneLegacyFile) σ :=
    converting_steps.trans (advances_steps h1)
  exact ⟨σ, hsteps, hman, hobj,
    (conversion_keeps_files Function.injective_id Nat.one_pos oneLegacyFile_ok hsteps).1 1 _ hrow⟩

/-- **An upload of the same content** inserts a manifest that counts the new row only. The legacy row
keeps its reference on behalf of the old one, and a later conversion finds the manifest and does nothing. -/
theorem identical_upload_undercounts :
    ∃ σ, Steps id 1 NoFault (Site.start oneLegacyFile) σ ∧ σ.Idle ∧
      σ.store.manifestRefs [1, 2] = 1 ∧ σ.store.filesNaming [1, 2] = 2 ∧
      σ.store.blobRefs [1, 2] = 1 ∧ σ.store.containing [1, 2] = 0 := by
  let q : Request Bytes := .upload ⟨[[1], [2]], false⟩ (.create (some 0) "b")
  have hrun : ((replay (machine Bytes) NoFault (List.replicate 7 .ok ++ [{ newId := 2 }])
      (q.prog id 1) oneLegacyFile).any fun x => decide (x.2.manifestRefs [1, 2] = 1 ∧
        x.2.filesNaming [1, 2] = 2 ∧ x.2.blobRefs [1, 2] = 1 ∧ x.2.containing [1, 2] = 0)) = true := by
    decide +kernel
  obtain ⟨r, s', tr, hr, h⟩ := exists_run hrun
  have hq : Served q := by intro h; cases h
  exact ⟨⟨s', .ret (.ok 0), 0⟩, .single (.serve q hq hr), ⟨_, rfl⟩, of_decide_eq_true h⟩

/-- **An upload that stores the converted content as a chunk**, between the transaction and the deletion
of the object, finds the object in place and registers its row; the deletion then leaves the new file
unreadable. -/
theorem late_deletion_loses_chunk : ∃ σ, Steps id 1 NoFault (Site.start oneLegacyFile) σ ∧
      σ.store.files.get 2 = some ⟨0, "b", [1, 2, 3], false⟩ ∧
      (σ.store.chunkManifests.get [1, 2, 3]).map Manifest.chunkHashes = some [[1, 2], [3]] ∧
      σ.store.objects.get [1, 2] = none := by
  let q : Request Bytes := .upload ⟨[[1, 2], [3]], false⟩ (.create (some 0) "b")
  have hfirst : ((advances NoFault (List.replicate 9 .ok) converting).any fun σ =>
      (replay (machine Bytes) NoFault (List.replicate 7 .ok ++ [{ newId := 2 }]) (q.prog id 1)
        σ.store).any fun x => (advances NoFault [.ok] ⟨x.2, σ.conversion, σ.held⟩).any fun σ =>
          decide (σ.store.files.get 2 = some ⟨0, "b", [1, 2, 3], false⟩ ∧
            (σ.store.chunkManifests.get [1, 2, 3]).map Manifest.chunkHashes =
              some [[1, 2], [3]] ∧ σ.store.objects.get [1, 2] = none)) = true := by
    decide +kernel
  obtain ⟨σ₁, h1, hrest⟩ := (Option.any_eq_true _ _).mp hfirst
  obtain ⟨r, s', tr, hr, hrest⟩ := exists_run hrest
  obtain ⟨σ, h2, h⟩ := (Option.any_eq_true _ _).mp hrest
  have hq : Served q := by intro h; cases h
  refine ⟨σ, ?_, of_decide_eq_true h⟩
  exact ((converting_steps.trans (advances_steps h1)).tail (.serve q hq hr)).trans (advances_steps h2)

end OxiCloud.LegacyConversion
