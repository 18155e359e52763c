import OxiCloud.Deletions
import OxiCloud.Ingests

/-! # Every blob row has its object

The programs hold what their statements rely on: an ingest session has written every chunk it
registers, `store_loose_chunks` too, and a drain deletes an object under the lock on its queue row.
`rows_have_objects` says that in every run whose statements are calm each blob row has its object, and
`reclaim_before_register` is a run that is not: a drain executes a deletion that was queued before
`store_loose_chunks` found the object in place. -/

namespace OxiCloud.Backing

open Lib.Tables Lib.Programs Lib.Pools Schema OxiCloud.Machine BlobHandler FileRepository Requests
open Footprint Ingests Deletions Multiset Prog

variable {H : Type} [DecidableEq H] {c : Multiset (Hold H)}

/-! ### The triple -/

/-- The triple for calm runs. -/
abbrev Calmly {α : Type} (p : Db H α) (c : Multiset (Hold H)) (Q : α → Multiset (Hold H) → Prop) :
    Prop :=
  Safe (machine H) (holds H) Calm Backed p c Q

variable {α : Type} {st : IngestState H} {h : H}

theorem Calmly.issue {op : Op H} {k : op.Resp → Db H α}
    {Q : α → Multiset (Hold H) → Prop} (hop : Entitled c op)
    (hk : ∀ s r, Calmly (k r) ((holds H).next op s r c) Q) : Calmly (Machine.issue op >>= k) c Q :=
  safe_call fun _ s r _ _ hb ha he => ⟨hb.exec ha he hop, hk s r⟩

/-- A statement that relies on no hold and brings none. -/
def Careless (op : Op H) : Prop := Entitled 0 op ∧ ∀ s r, (holds H).next op s r 0 = 0

theorem Careless.of_bookkeeping (op : Op H) (h : Bookkeeping op) : Careless op := by
  cases op <;> first | exact absurd h id | exact ⟨trivial, fun _ _ => rfl⟩ | exact ⟨rfl, fun _ _ => rfl⟩

theorem careless_safe {p : Db H α} (h : p.Only Careless) : Calmly p 0 fun _ c => c = 0 := by
  refine Safe.of_only h fun op hop ch s r s' rest hb ha he => ?_
  have hnext := hop.2 s r
  refine ⟨?_, hnext⟩
  have hb' := hb.exec ha he hop.1
  rwa [hnext] at hb'

theorem books_safe {p : Db H α} (h : KeepsBooks p) : Calmly p 0 fun _ c => c = 0 :=
  careless_safe (h.mono Careless.of_bookkeeping)

/-! ### Ingest sessions -/

/-- The session holds every chunk it has written and has claimed those it is about to write. -/
structure Held (todo : List H) (st : IngestState H) (c : Multiset (Hold H)) : Prop where
  written : ∀ x ∈ st.written, ∃ t, .written x.1 t ∈ c
  todo : ∀ h ∈ todo, ∃ t, .mine h t ∈ c ∨ .written h t ∈ c

/-- The session holds nothing else. -/
def Tight (todo : List H) (st : IngestState H) (c : Multiset (Hold H)) : Prop :=
  ∀ x ∈ c, (∃ h t, x = .written h t ∧ h ∈ st.written.map Prod.fst) ∨ ∃ h t, x = .mine h t ∧ h ∈ todo

omit [DecidableEq H] in
theorem Tight.eq_zero (h : Tight [] st c) (hw : st.written = []) : c = 0 := by
  refine eq_zero_of_forall_notMem fun x hx => ?_
  rcases h x hx with ⟨_, _, -, hmem⟩ | ⟨_, _, -, hmem⟩
  · rw [hw] at hmem
    cases hmem
  · cases hmem

variable {t : ℕ}

theorem mem_map_write {h' : H} (hx : .written h t ∈ c) :
    .written h t ∈ c.map (Hold.write h') := mem_map.mpr ⟨_, hx, rfl⟩

/-- A successful write moves the chunk from the claimed to the written ones. -/
theorem Held.write {n : ℕ} {rest : List H} (hh : Held (h :: rest) st c) :
    Held rest { st with written := st.written ++ [(h, n)] } (c.map (.write h)) := by
  have hclaimed : ∀ x t, .mine x t ∈ c → (if x = h then Hold.written x t else .mine x t) ∈
      c.map (.write h) := fun x t hx => mem_map.mpr ⟨_, hx, rfl⟩
  refine ⟨fun x hx => ?_, fun x hx => ?_⟩
  · rcases List.mem_append.mp hx with hx | hx
    · obtain ⟨t, ht⟩ := hh.written x hx
      exact ⟨t, mem_map_write ht⟩
    · rw [List.mem_singleton.mp hx]
      obtain ⟨t, ht | ht⟩ := hh.todo h (by simp)
      · have hw := hclaimed h t ht
        rw [if_pos rfl] at hw
        exact ⟨t, hw⟩
      · exact ⟨t, mem_map_write ht⟩
  · obtain ⟨t, ht | ht⟩ := hh.todo x (List.mem_cons_of_mem _ hx)
    · have hw := hclaimed x t ht
      split_ifs at hw
      · exact ⟨t, .inr hw⟩
      · exact ⟨t, .inl hw⟩
    · exact ⟨t, .inr (mem_map_write ht)⟩

theorem Tight.write {n : ℕ} {rest : List H} (hc : Tight (h :: rest) st c) :
    Tight rest { st with written := st.written ++ [(h, n)] } (c.map (.write h)) := by
  intro y hy
  obtain ⟨x, hx, rfl⟩ := mem_map.mp hy
  rcases hc x hx with ⟨h', t, rfl, hmem⟩ | ⟨h', t, rfl, hmem⟩
  · exact .inl ⟨h', t, rfl, by simp [List.mem_map.mp hmem]⟩
  · by_cases hh : h' = h
    · exact .inl ⟨h', t, by simp [Hold.write, hh], by simp [hh]⟩
    · exact .inr ⟨h', t, by simp [Hold.write, hh], (List.mem_cons.mp hmem).resolve_left hh⟩

variable {hs : List H}

/-- The chunks a session found no row for, once their queued deletions are cancelled. -/
theorem Held.claim {st' : IngestState H} (hh : Held [] st c) (hst : st'.written = st.written) :
    Held hs st' ((c + (hs.map (.seen · t) : List (Hold H))).map (.claim hs)) := by
  refine ⟨fun x hx => ?_, fun h hmem => ⟨t, .inl ?_⟩⟩
  · rw [hst] at hx
    obtain ⟨t', ht⟩ := hh.written x hx
    exact ⟨t', mem_map.mpr ⟨_, mem_add.mpr (.inl ht), rfl⟩⟩
  · refine mem_map.mpr ⟨.seen h t, mem_add.mpr (.inr ?_), by simp [Hold.claim, hmem]⟩
    exact mem_coe.mpr (List.mem_map.mpr ⟨h, hmem, rfl⟩)

theorem Tight.claim {st' : IngestState H} (hc : Tight [] st c) (hst : st'.written = st.written) :
    Tight hs st' ((c + (hs.map (.seen · t) : List (Hold H))).map (.claim hs)) := by
  intro y hy
  obtain ⟨x, hx, rfl⟩ := mem_map.mp hy
  rcases mem_add.mp hx with hx | hx
  · rcases hc x hx with ⟨h, t', rfl, hmem⟩ | ⟨_, _, -, hmem⟩
    · exact .inl ⟨h, t', rfl, by rwa [hst]⟩
    · cases hmem
  · obtain ⟨h, hmem, rfl⟩ := List.mem_map.mp (mem_coe.mp hx)
    exact .inr ⟨h, t, by simp [Hold.claim, hmem], hmem⟩

/-- What a session holds after some writes: without an error, nothing it has not recorded. -/
structure Wrote (r : Except DomainError Unit × IngestState H) (c : Multiset (Hold H)) : Prop where
  held : Held [] r.2 c
  tight : r.1 = .ok () → Tight [] r.2 c

theorem writeChunks_safe (contested : List H) : ∀ (l : List (H × Bytes)) (st : IngestState H)
    (c : Multiset (Hold H)), Held (l.map Prod.fst) st c →
      Calmly (writeChunks contested l st) c fun r c' =>
        Held [] r.2 c' ∧ (Tight (l.map Prod.fst) st c → r.1 = .ok () → Tight [] r.2 c')
  | [], st, c, hh => safe_ret ⟨hh, fun hc _ => hc⟩
  | (h, data) :: rest, st, c, hh => by
    have hok : Calmly (writeChunks contested rest
        { st with written := st.written ++ [(h, data.length)] }) (c.map (.write h)) fun r c' =>
          Held [] r.2 c' ∧ (Tight (h :: rest.map Prod.fst) st c → r.1 = .ok () → Tight [] r.2 c') :=
      (writeChunks_safe contested rest _ _ hh.write).mono fun r c' hr =>
        ⟨hr.1, fun hc => hr.2 hc.write⟩
    have herr : Calmly (writeChunks contested rest st >>= fun r =>
        ret ((.error (internalError "Blob") : Except DomainError Unit), r.2)) c fun r c' =>
          Held [] r.2 c' ∧ (Tight (h :: rest.map Prod.fst) st c → r.1 = .ok () → Tight [] r.2 c') :=
      Safe.bind (writeChunks_safe contested rest st c
          ⟨hh.written, fun x hx => hh.todo x (List.mem_cons_of_mem _ hx)⟩) fun r c' hr =>
        safe_ret ⟨hr.1, fun _ hok => by cases hok⟩
    rw [writeChunks]
    split_ifs
    all_goals
      refine Calmly.issue trivial fun s r => ?_
      cases r with
      | some _ => exact hok
      | none => exact herr

theorem settleBatch_safe {batch : List (H × Bytes)} (hh : Held [] st c)
    (hc : Tight [] st c) : Calmly (settleBatch batch st) c Wrote := by
  unfold settleBatch
  split_ifs
  · exact safe_ret ⟨hh, fun _ => hc⟩
  · refine Calmly.issue trivial fun s r => ?_
    cases r with
    | none => exact safe_ret ⟨hh, fun hok => by cases hok⟩
    | some pinned =>
      have hnext : (holds H).next (.pinExisting (batch.map Prod.fst)) s (some pinned) c =
          c + (((batch.filter fun c => c.1 ∉ pinned).map Prod.fst).map (.seen · s.now) :
            List (Hold H)) := by
        have hsame : (batch.filter fun c => c.1 ∉ pinned).map Prod.fst =
            (batch.map Prod.fst).filter (· ∉ pinned) := by
          rw [List.filter_map]
          rfl
        rw [hsame]
        rfl
      rw [hnext]
      have hheld : ∀ a, Held [] { st with
          pinned := st.pinned ++ (batch.map Prod.fst).filter (· ∈ pinned) } (c + a) := fun a =>
        ⟨fun x hx => (hh.written x hx).imp fun _ ht => mem_add.mpr (.inl ht), fun _ h => by cases h⟩
      dsimp only
      split_ifs with hw
      · refine safe_ret ⟨hheld _, fun _ => ?_⟩
        rw [List.isEmpty_iff.mp hw, List.map_nil, List.map_nil, coe_nil, add_zero]
        exact hc
      · refine Calmly.issue trivial fun s' r => ?_
        cases r with
        | none => exact safe_ret ⟨hheld _, fun hok => by cases hok⟩
        | some contested =>
          refine Safe.mono (writeChunks_safe contested _ _ _ ?_) fun r c' hr => ⟨hr.1, hr.2 ?_⟩
          · exact hh.claim rfl
          · exact hc.claim rfl

theorem runRollback_safe (hh : Held [] st c) : Calmly (runRollback st) c fun _ _ => True := by
  have hwritten : Calmly (rollbackWrites st) c fun _ _ => True := by
    unfold rollbackWrites
    split_ifs
    · exact safe_ret trivial
    · refine Calmly.issue trivial fun s r => ?_
      cases r with
      | none => exact safe_ret trivial
      | some _ =>
        exact Calmly.issue (fun x hx => .inl (hh.written x hx)) fun s r => safe_ret trivial
  unfold runRollback
  cases hp : st.pinned with
  | nil => exact hwritten
  | cons x l => exact Calmly.issue trivial fun s r => hwritten

/-- A program that succeeds holds nothing. -/
def Clear {α : Type} (r : Except DomainError α) (c : Multiset (Hold H)) : Prop :=
  ∀ a, r = .ok a → c = 0

variable (blake3 : Bytes → H)

theorem ingest_session :
    Session blake3 (holds H) Calm Backed (fun _ st c => Held [] st c ∧ Tight [] st c) (Held []) Clear where
  seen ha _ := ha
  new ha _ := ha
  settle ha := (settleBatch_safe ha.1 ha.2).mono fun _ _ hr => ⟨hr.held, fun hok => ⟨hr.held, hr.tight hok⟩⟩
  stop ha := ha.1
  rollback _ hb := (runRollback_safe hb).mono fun _ _ _ => nofun
  done ha hw _ _ := ha.2.eq_zero hw
  sync ha := Calmly.issue (k := ret) trivial fun _ _ => safe_ret ha
  register ha := by
    refine Calmly.issue (k := ret) (fun x hx => .inl (ha.1.written x hx)) fun s r => safe_ret ⟨?_, ?_⟩
    · rintro rfl
      exact ha.1
    · rintro rfl _ _
      rfl

theorem ingestChunksFromStream_safe (source : Source) :
    Calmly (ingestChunksFromStream blake3 source) 0 Clear :=
  (ingest_session blake3).ingest source ⟨⟨by simp, by simp⟩, by simp [Tight]⟩

/-! ### Content -/

theorem attachManifest_careless {held : List H} {sizes : List ℕ} {total : ℕ} :
    (attachManifest h hs sizes total held).Only Careless :=
  attachLoop_only ⟨trivial, fun _ _ => rfl⟩ ⟨trivial, fun _ _ => rfl⟩
    ((releaseChunkRefs_only held).mono Careless.of_bookkeeping) 3

theorem storeFromStream_safe (source : Source) :
    Calmly (storeFromStream blake3 source) 0 Clear := by
  refine Safe.bind (ingestChunksFromStream_safe blake3 source) fun r c hr => ?_
  cases r with
  | error e => exact safe_ret fun _ hok => by cases hok
  | ok o =>
    rw [hr o rfl]
    exact (careless_safe attachManifest_careless).mono fun _ _ hc _ _ => hc

theorem stores_safe {blake3 : Bytes → H} {p : Db H α} (h : Stores blake3 p) : Calmly p 0 fun _ _ => True := by
  obtain ⟨source, k, rfl, herr, hok⟩ := h
  refine Safe.bind (storeFromStream_safe blake3 source) fun r c hr => ?_
  cases r with
  | error e =>
    obtain ⟨a, ha⟩ := herr e
    rw [ha]
    exact safe_ret trivial
  | ok stored =>
    rw [hr stored rfl]
    exact (books_safe (hok stored)).mono fun _ _ _ => trivial

/-! ### Delta commits -/

theorem registered_careless (fuel : ℕ) (h : H) (target : Registration H) :
    (do match ← register fuel h target with
        | .error e => ret (.error e)
        | .ok _ => ret (.ok .done) : Db H (Except DomainError (DeltaOutcome H))).Only Careless := by
  refine ((register_only fuel h target).mono Careless.of_bookkeeping).bind fun r => ?_
  cases r <;> exact only_ret _

theorem commitPinned_careless (fuel total : ℕ) (req : DeltaCommit H) (held : List H) :
    (commitPinned blake3 fuel total req held).Only Careless := by
  have hrelease : ∀ e, (releaseChunkRefs held >>= fun _ =>
      ret (.error e : Except DomainError (DeltaOutcome H))).Only Careless := fun e =>
    ((releaseChunkRefs_only held).mono Careless.of_bookkeeping).bind fun _ => only_ret _
  refine (hashChunkSequence_only blake3 (fun _ => ⟨trivial, fun _ _ => rfl⟩) _ _).bind fun r => ?_
  cases r with
  | error e => exact hrelease e
  | ok computed =>
    dsimp only
    split_ifs
    · exact hrelease _
    · refine attachManifest_careless.bind fun r => ?_
      cases r with
      | error e => exact only_ret _
      | ok _ => exact registered_careless fuel req.fileHash req.target

theorem commitWithPerms_careless (maxTotalSize fuel : ℕ) (owned : Bool) (req : DeltaCommit H) :
    (commitWithPerms blake3 maxTotalSize fuel owned req).Only Careless := by
  unfold commitWithPerms
  cases validateChunkList maxTotalSize req.chunks with
  | error e => exact only_ret _
  | ok total =>
    cases owned with
    | true =>
      refine ((addReference_only _).mono Careless.of_bookkeeping).bind fun r => ?_
      cases r with
      | error e => exact only_ret _
      | ok _ => exact registered_careless fuel req.fileHash req.target
    | false =>
      refine Only.ask (p := if (req.chunks.map Prod.fst).dedup.isEmpty then ret (some []) else
        issue (.pinClaimable (req.chunks.map Prod.fst).dedup)) ?_ (only_ret _) fun pinned => ?_
      · split_ifs
        · exact only_ret _
        · exact only_op ⟨trivial, fun _ _ => rfl⟩
      · dsimp only
        split_ifs
        · exact ((releaseChunkRefs_only _).mono Careless.of_bookkeeping).bind fun _ => only_ret _
        · exact commitPinned_careless blake3 fuel total req _

/-! ### Loose chunks and drains -/

theorem looseLoop_safe : ∀ (frames : Frames) (received newRows : List (H × ℕ))
    (c : Multiset (Hold H)), (∀ x ∈ newRows, .loose x.1 ∈ c) →
      Calmly (looseLoop blake3 frames received newRows) c fun r c' =>
        ∀ l, r = .ok l → ∀ x ∈ l.2, .loose x.1 ∈ c'
  | [], received, newRows, c, hc => safe_ret fun l hl => by cases hl; exact hc
  | none :: _, _, _, _, _ => safe_ret fun l hl => by cases hl
  | some data :: rest, received, newRows, c, hc => by
    rw [looseLoop]
    dsimp only
    split_ifs
    · exact safe_ret fun l hl => by cases hl
    · exact looseLoop_safe rest _ newRows c hc
    · refine Calmly.issue trivial fun s r => ?_
      cases r with
      | none => exact safe_ret fun l hl => by cases hl
      | some _ =>
        refine looseLoop_safe rest _ _ _ fun x hx => ?_
        rcases List.mem_append.mp hx with hx | hx
        · exact mem_cons_of_mem (hc x hx)
        · rw [List.mem_singleton.mp hx]
          exact mem_cons_self _ _

theorem storeLooseChunks_safe (frames : Frames) :
    Calmly (storeLooseChunks blake3 frames) 0 fun _ _ => True := by
  refine Safe.bind (looseLoop_safe blake3 frames [] [] 0 (by simp)) fun r c hr => ?_
  rcases r with e | ⟨received, newRows⟩
  · exact safe_ret trivial
  · dsimp only
    split_ifs
    · exact safe_ret trivial
    · refine Calmly.issue trivial fun s r => ?_
      cases r with
      | none => exact safe_ret trivial
      | some _ =>
        refine Calmly.issue (fun x hx => .inr (hr _ rfl x hx)) fun s r => ?_
        cases r <;> exact safe_ret trivial

theorem settleOne_safe (transient : Bool) (h : H) :
    Calmly (settleOne transient h) 0 fun _ _ => True := by
  have hlock : (.lock h : Hold H) ∈ (.lock h ::ₘ 0 : Multiset (Hold H)) := mem_cons_self _ _
  have habandon : Calmly (abandonDrain h) (.lock h ::ₘ 0) fun _ _ => True :=
    Calmly.issue hlock fun _ _ => safe_ret trivial
  refine Calmly.issue trivial fun s r => ?_
  rcases r with _ | _ | attempts
  · exact safe_ret trivial
  · exact safe_ret trivial
  · refine Calmly.issue trivial fun s r => ?_
    rcases r with _ | _ | _
    · exact habandon
    · refine Calmly.issue hlock fun s r => ?_
      cases r with
      | none => exact habandon
      | some _ => exact safe_ret trivial
    · refine Calmly.issue hlock fun s r => ?_
      cases r with
      | none | some _ =>
        refine Calmly.issue hlock fun s r => ?_
        cases r with
        | none => exact habandon
        | some _ => exact safe_ret trivial

/-! ### Runs -/

variable {p : Db H (Except DomainError α)}

theorem succeeds_safe (h : Calmly p 0 fun _ _ => True) : Calmly (succeeds p) 0 fun _ _ => True :=
  Safe.bind h fun _ _ _ => safe_ret trivial

theorem succeeds_careless (h : p.Only Careless) : Calmly (succeeds p) 0 fun _ _ => True :=
  succeeds_safe ((careless_safe h).mono fun _ _ _ => trivial)

theorem succeeds_books (h : KeepsBooks p) : Calmly (succeeds p) 0 fun _ _ => True :=
  succeeds_careless (h.mono Careless.of_bookkeeping)

/-- **Every request but a legacy re-chunk** keeps the rows backed in a calm run. -/
theorem request_safe (fuel : ℕ) (q : Request H) (hq : ∀ cut h, q ≠ .rechunk cut h) :
    Calmly (q.prog blake3 fuel) 0 fun _ _ => True := by
  cases q with
  | upload source target => exact succeeds_safe (stores_safe (upload_stores blake3 fuel source target))
  | deltaCommit n owned req => exact succeeds_careless (commitWithPerms_careless blake3 n fuel owned req)
  | storeLoose frames => exact succeeds_safe (storeLooseChunks_safe blake3 frames)
  | delete id => exact succeeds_books (deleteFile_only id)
  | deletePermanently id => exact succeeds_books (deleteFilePermanently_only fuel id)
  | copy newFolders l => exact succeeds_books (copyFiles_only newFolders l)
  | storeAttached k source => exact succeeds_safe (stores_safe (storeAttachedBlob_stores blake3 fuel source k))
  | storeAttachedIfAbsent k source =>
    exact succeeds_safe (stores_safe (storeAttachedBlobIfAbsent_stores blake3 fuel source k))
  | storeDerived k source => exact succeeds_safe (stores_safe (storeDerivedBlob_stores blake3 fuel source k))
  | collectGarbage rounds grace => exact succeeds_books (garbageCollectWithGrace_only fuel rounds grace)
  | reclaim transient h => exact Safe.bind (settleOne_safe transient h) fun _ _ _ => safe_ret trivial
  | rechunk cut h => exact absurd rfl (hq cut h)
  | clock secs => exact Calmly.issue trivial fun _ _ => safe_ret trivial

/-- **Every blob row has its object**, and no deletion of an object is queued while a writer relies on
it: at every point of every calm run of any requests but legacy re-chunks, from a store in which rows
have objects and no deletion of a hash with a row is queued. -/
theorem rows_have_objects (blake3 : Bytes → H) (fuel : ℕ) {s : Store H} (hs : Backed s 0)
    {l : List (Request H)} (hl : ∀ q ∈ l, ∀ cut h, q ≠ .rechunk cut h)
    {P : Pool (sql H) (Store H) (Hold H) Bool}
    (hr : Runs (machine H) (holds H) Calm (Pool.start s (l.map (Request.prog blake3 fuel))) P) (h : H) :
    ((P.store.blobs.get h).isSome → (P.store.objects.get h).isSome) ∧
      ∀ x ∈ tokens P.threads, x.guards h = true → P.store.pendingActions.get h = none := by
  have hdrop : Droppable Backed fun (_ : Bool) (_ : Multiset (Hold H)) => True :=
    fun _ _ _ _ _ hb => hb.drop (Multiset.le_add_left _ _)
  have hend : Backed P.store (tokens P.threads) := by
    refine hr.start_safe hdrop hs fun p hp => ?_
    obtain ⟨q, hq, rfl⟩ := List.mem_map.mp hp
    exact request_safe blake3 fuel q (hl q hq)
  exact ⟨hend.rows h, fun x hx hg => hend.no_deletion hx hg⟩

/-- A loose chunk is stored and collected after the grace window; it is stored again beside the drain of
the deletion queue. -/
def storeAgain : List (Request Bytes) :=
  [.storeLoose [some [1]], .clock 3700, .collectGarbage 1 3600, .storeLoose [some [1]],
    .reclaim false [1]]

/-- The chunk is stored, and its deletion queued. -/
def collected : Schedule Bytes :=
  List.replicate 3 (0, .ok) ++ [(1, .ok), (2, .ok), (2, { pick := [[1]] }), (2, .ok)]

/-- The drain comes first. -/
def drainFirst : Schedule Bytes :=
  collected ++ List.replicate 4 (4, .ok) ++ List.replicate 3 (3, .ok)

/-- The second store finds the object in place, then the drain comes. -/
def drainBetween : Schedule Bytes :=
  collected ++ [(3, .ok)] ++ List.replicate 4 (4, .ok) ++ List.replicate 2 (3, .ok)

theorem rows_have_objects_drainFirst :
    ∃ P, Runs (machine Bytes) (holds Bytes) Calm
        (Pool.start (Store.fresh {0}) (storeAgain.map (Request.prog id 3))) P ∧
      (P.store.blobs.get [1]).isSome ∧
      (((P.store.blobs.get [1]).isSome → (P.store.objects.get [1]).isSome) ∧
        ∀ x ∈ tokens P.threads, x.guards [1] = true → P.store.pendingActions.get [1] = none) :=
  exists_run_with drainFirst (fun _ hr _ => rows_have_objects id 3 (Backed.fresh _)
    (by simp [storeAgain]) hr [1]) (by decide +kernel)

/-- **A drain deletes the object of a row.** The second store of the chunk finds its object and does not
cancel the queued deletion; the drain finds no row and deletes the object; then the row is registered.
No ingest session and no failing call is involved. -/
theorem reclaim_before_register :
    ∃ P, Runs (machine Bytes) (holds Bytes) (fun _ _ _ _ => True)
        (Pool.start (Store.fresh {0}) (storeAgain.map (Request.prog id 3))) P ∧
      (∀ t ∈ P.threads, t.prog.result = some true) ∧
      (P.store.blobs.get [1]).isSome ∧ P.store.objects.get [1] = none :=
  exists_run drainBetween (by decide +kernel)

end OxiCloud.Backing
