import OxiCloud.Effects
import OxiCloud.Ingests

/-! # Manifests describe their content

However a manifest row is created, by a streamed ingest, by a delta commit of declared chunks or by the
re-chunking of a legacy blob, its chunk hashes are the hashes of some chunks, its sizes their lengths,
its total their sum, and its key the hash of their concatenation. The evidence differs: an ingest has
cut and hashed the bytes itself, a delta commit has read every declared chunk back and hashed the
sequence. `Sound` is the invariant, `Writes` the triple of programs for it. -/

namespace OxiCloud.Manifests

open Lib.Tables Lib.Programs Lib.Pools Schema OxiCloud.Machine BlobHandler FileRepository Requests
open Effects Footprint Ingests Prog

variable {H : Type} {blake3 : Bytes → H}

/-! ### The invariant -/

/-- The chunks `cs` of the sizes `sizes` are those of a content with the hash `h`. -/
def Describes (blake3 : Bytes → H) (h : H) (cs : List H) (sizes : List ℕ) : Prop :=
  ∃ contents : List Bytes, cs = contents.map blake3 ∧ sizes = contents.map List.length ∧
    h = blake3 contents.flatten

/-- Manifests describe their content and objects are stored under their hash. -/
structure Sound (blake3 : Bytes → H) (s : Store H) : Prop where
  manifests : ∀ h m, s.chunkManifests.get h = some m →
    Describes blake3 h m.chunkHashes m.chunkSizes ∧ m.totalSize = m.chunkSizes.sum
  objects : ∀ h data, s.objects.get h = some data → blake3 data = h

/-- The statements that keep the invariant. -/
def WellFormed (blake3 : Bytes → H) : Op H → Prop
  | .insertManifest h m =>
    Describes blake3 h m.chunkHashes m.chunkSizes ∧ m.totalSize = m.chunkSizes.sum
  | .rechunk h cs sizes => Describes blake3 h cs sizes
  | .putUnsynced _ h data | .putReplace h data => blake3 data = h
  | _ => True

/-! ### Chunk lists -/

/-- What the loop has consumed. -/
structure Consumed (blake3 : Bytes → H) (v : IngestVars H) : Prop where
  contents : ∃ contents : List Bytes, v.content = contents.flatten ∧
    v.chunkHashes = contents.map blake3 ∧ v.chunkSizes = contents.map List.length
  totalSize : v.totalSize = v.chunkSizes.sum
  pending : ∀ x ∈ v.pending, blake3 x.2 = x.1

variable {v : IngestVars H}

theorem Consumed.push (hv : Consumed blake3 v) (data : Bytes) :
    Consumed blake3 (v.push blake3 data) := by
  obtain ⟨contents, h1, h2, h3⟩ := hv.contents
  refine ⟨⟨contents ++ [data], ?_, ?_, ?_⟩, ?_, hv.pending⟩
  · simp [IngestVars.push, h1]
  · simp [IngestVars.push, h2]
  · simp [IngestVars.push, h3]
  · simp [IngestVars.push, hv.totalSize]

theorem Consumed.noted (hv : Consumed blake3 v) (data : Bytes) :
    Consumed blake3 (noted blake3 v data) := by
  refine ⟨(hv.push data).contents, (hv.push data).totalSize, fun x hx => ?_⟩
  rcases List.mem_append.mp hx with hx | hx
  · exact hv.pending x hx
  · rw [List.mem_singleton.mp hx]

/-- The outcome of an ingest describes its content. -/
def Ingested (blake3 : Bytes → H) (o : IngestOutcome H) : Prop :=
  Describes blake3 o.fileHash o.chunkHashes o.chunkSizes ∧ o.totalSize = o.chunkSizes.sum

theorem Consumed.outcome (hv : Consumed blake3 (flushed v)) (st : IngestState H) :
    Ingested blake3 (outcome blake3 v st) := by
  obtain ⟨contents, h1, h2, h3⟩ := hv.contents
  exact ⟨⟨contents, h2, h3, congrArg blake3 h1⟩, hv.totalSize⟩

theorem foldl_saturating : ∀ (chunks : List (H × ℕ)) (t : ℕ),
    t + (chunks.map Prod.snd).sum ≤ u64Max →
      chunks.foldl (fun t c => min u64Max (t + c.2)) t = t + (chunks.map Prod.snd).sum
  | [], t, _ => by simp
  | c :: chunks, t, h => by
    rw [List.map_cons, List.sum_cons] at h ⊢
    have hmin : min u64Max (t + c.2) = t + c.2 := by omega
    rw [List.foldl_cons, hmin, foldl_saturating chunks (t + c.2) (by omega)]
    omega

theorem sum_le_length_mul {B : ℕ} (chunks : List (H × ℕ)) (h : ∀ c ∈ chunks, c.2 ≤ B) :
    (chunks.map Prod.snd).sum ≤ chunks.length * B := by
  have hsum := List.sum_le_card_nsmul (chunks.map Prod.snd) B (List.forall_mem_map.mpr h)
  simpa using hsum

variable {total : ℕ}

/-- The declared total does not saturate: a request body holds too few chunks for that. -/
theorem validateChunkList_total {n : ℕ} {chunks : List (H × ℕ)}
    (hlen : 64 * chunks.length ≤ fileBodyLimit) (h : validateChunkList n chunks = .ok total) :
    total = (chunks.map Prod.snd).sum := by
  unfold validateChunkList at h
  dsimp only at h
  split_ifs at h with h1 h2 h3
  cases h
  have hsizes : ∀ c ∈ chunks, c.2 ≤ cdcMaxChunk := by
    intro c hc
    by_contra hlt
    exact h2 ⟨c, hc, .inr (not_le.mp hlt)⟩
  have hsum := sum_le_length_mul chunks hsizes
  have hbound : (chunks.map Prod.snd).sum ≤ u64Max := by
    simp only [cdcMaxChunk, fileBodyLimit, u64Max] at *
    omega
  rw [foldl_saturating chunks 0 (by omega), Nat.zero_add]

variable [DecidableEq H]

/-! ### Writes -/

/-- **A well-formed statement keeps the invariant.** -/
theorem Sound.exec {op : Op H} {ch : Choice H} {s s' : Store H} {r : op.Resp} (hs : Sound blake3 s)
    (hw : WellFormed blake3 op) (he : Machine.exec op ch s = some (r, s')) : Sound blake3 s' := by
  refine ⟨fun h m' hm' => ?_, fun h data hd => ?_⟩
  · have hnew : ∀ {x : H} {mx : Manifest H}, s'.chunkManifests = s.chunkManifests.set x mx →
        Describes blake3 x mx.chunkHashes mx.chunkSizes ∧ mx.totalSize = mx.chunkSizes.sum →
        Describes blake3 h m'.chunkHashes m'.chunkSizes ∧ m'.totalSize = m'.chunkSizes.sum := by
      intro x mx hset hx
      rcases Table.get_set_cases (hset ▸ hm') with ⟨rfl, rfl⟩ | ⟨-, hm'⟩
      · exact hx
      · exact hs.manifests h m' hm'
    rcases manifest_exec he with hk | ⟨x, mx, rfl, -, hset⟩ | ⟨x, cs, sizes, rfl, -, hset⟩
    · obtain ⟨m, hm, hc⟩ := hk h m' hm'
      rw [hc.chunkHashes, hc.chunkSizes, hc.totalSize]
      exact hs.manifests h m hm
    · exact hnew hset hw
    · exact hnew hset ⟨hw, rfl⟩
  · rcases object_exec he hd with hold | ⟨w, rfl⟩ | rfl
    · exact hs.objects h data hold
    · exact hw
    · exact hw

/-! ### The triple -/

/-- The program keeps the invariant, whatever runs beside it, and returns what `Q` says. -/
def Writes {α : Type} (blake3 : Bytes → H) (p : Db H α) (Q : α → Prop) : Prop :=
  ∀ c : Multiset Unit, Safe (machine H) .idle (fun _ _ _ _ => True) (fun s _ => Sound blake3 s) p c
    fun a _ => Q a

namespace Writes

variable {α β : Type} {Q : α → Prop} {R : β → Prop}

theorem ret {a : α} (h : Q a) : Writes blake3 (.ret a) Q := fun _ => safe_ret h

variable {p : Db H α}

theorem mono {Q' : α → Prop} (h : Writes blake3 p Q) (hQ : ∀ a, Q a → Q' a) :
    Writes blake3 p Q' := fun c => (h c).mono fun a _ => hQ a

theorem bind {f : α → Db H β} (h : Writes blake3 p Q) (hf : ∀ a, Q a → Writes blake3 (f a) R) :
    Writes blake3 (p >>= f) R :=
  fun c => Safe.bind (h c) fun a c' ha => hf a ha c'

theorem issue {op : Op H} {k : op.Resp → Db H α} (hw : WellFormed blake3 op)
    (hk : ∀ s ch r s', Sound blake3 s → Machine.exec op ch s = some (r, s') →
      Writes blake3 (k r) Q) : Writes blake3 (Machine.issue op >>= k) Q :=
  fun c => safe_call fun ch s r s' _ hs _ he => ⟨hs.exec hw he, hk s ch r s' hs he c⟩

/-- The rule for a statement whose answer does not matter. -/
theorem step {op : Op H} {k : op.Resp → Db H α} (hw : WellFormed blake3 op)
    (hk : ∀ r, Writes blake3 (k r) Q) : Writes blake3 (Machine.issue op >>= k) Q :=
  issue hw fun _ _ r _ _ _ => hk r

/-- Programs whose statements are all well-formed. -/
theorem of_only (h : p.Only (WellFormed blake3)) : Writes blake3 p fun _ => True :=
  fun c => (Safe.of_only h fun op hop ch s r s' rest hs _ he => ⟨hs.exec hop he, rfl⟩).mono
    fun _ _ _ => trivial

theorem books (h : KeepsBooks p) : Writes blake3 p fun _ => True := by
  refine of_only (h.mono fun op hop => ?_)
  cases op <;> trivial

end Writes

/-! ### Ingest sessions -/

theorem settleBatch_writes {batch : List (H × Bytes)} (hb : ∀ x ∈ batch, blake3 x.2 = x.1)
    (st : IngestState H) : Writes blake3 (settleBatch batch st) fun _ => True :=
  .of_only (settleBatch_only st (fun _ => trivial) (fun _ => trivial) fun x hx => ⟨hb x hx, hb x hx⟩)

theorem runRollback_writes (st : IngestState H) : Writes blake3 (runRollback st) fun _ => True :=
  .of_only (runRollback_only st (fun _ => trivial) (fun _ => trivial) trivial)

theorem writes_session :
    Session blake3 .idle (fun _ _ _ _ => True) (fun s (_ : Multiset Unit) => Sound blake3 s)
    (fun v _ _ => Consumed blake3 v) (fun _ _ => True) fun r _ => ∀ o, r = .ok o → Ingested blake3 o where
  seen ha _ := ha.push _
  new ha _ := ha.noted _
  settle ha := (settleBatch_writes ha.pending _ _).mono fun _ _ _ =>
    ⟨trivial, fun _ => ⟨ha.contents, ha.totalSize, by simp [flushed]⟩⟩
  stop _ := trivial
  rollback _ _ := (runRollback_writes _ _).mono fun _ _ _ => nofun
  done ha _ o ho := by
    cases ho
    exact ha.outcome _
  sync ha := (Writes.of_only (only_op (by trivial)) _).mono fun _ _ _ => ha
  register ha := (Writes.of_only (only_op (by trivial)) _).mono fun _ _ _ => ⟨fun _ => trivial, fun _ o ho => by
    cases ho
    exact ha.outcome _⟩

theorem ingestChunksFromStream_writes (source : Source) :
    Writes blake3 (ingestChunksFromStream blake3 source) fun r => ∀ o, r = .ok o → Ingested blake3 o :=
  fun _ => writes_session.ingest source ⟨⟨[], rfl, rfl, rfl⟩, rfl, by simp⟩

theorem attachManifest_writes {h : H} {cs : List H} {sizes : List ℕ} (held : List H)
    (hd : Describes blake3 h cs sizes) (ht : total = sizes.sum) :
    Writes blake3 (attachManifest h cs sizes total held) fun _ => True :=
  .of_only (attachLoop_only ⟨hd, ht⟩ trivial (releaseChunkRefs_stmt trivial) 3)

/-- **A streamed ingest** attaches the manifest of what it has cut. -/
theorem storeFromStream_writes (source : Source) :
    Writes blake3 (storeFromStream blake3 source) fun _ => True := by
  refine (ingestChunksFromStream_writes source).bind fun r hr => ?_
  cases r with
  | error e => exact .ret trivial
  | ok o => exact attachManifest_writes _ (hr o rfl).1 (hr o rfl).2

/-! ### Delta commits -/

theorem hashChunkSequence_writes : ∀ (chunks : List (H × ℕ)) (content : Bytes),
    Writes blake3 (hashChunkSequence blake3 chunks content) fun r => ∀ h, r = .ok h →
      ∃ contents : List Bytes, chunks.map Prod.fst = contents.map blake3 ∧
        chunks.map Prod.snd = contents.map List.length ∧ h = blake3 (content ++ contents.flatten)
  | [], content => .ret fun h hr => by cases hr; exact ⟨[], rfl, rfl, by simp⟩
  | (x, declared) :: rest, content => by
    refine .issue trivial fun s ch r s' hs he => ?_
    cases r with
    | none => exact .ret fun h hr => by cases hr
    | some data =>
      have hx : blake3 data = x := by
        simp only [exec] at he
        split_ifs at he
        · cases he
        · simp only [Option.some.injEq, Prod.mk.injEq] at he
          exact hs.objects x data he.1
      dsimp only
      split_ifs with hlen
      · exact .ret fun h hr => by cases hr
      · refine (hashChunkSequence_writes rest (content ++ data)).mono fun r hr h hrh => ?_
        obtain ⟨contents, h1, h2, h3⟩ := hr h hrh
        refine ⟨data :: contents, ?_, ?_, ?_⟩
        · rw [List.map_cons, List.map_cons, h1, hx]
        · rw [List.map_cons, List.map_cons, h2, not_ne_iff.mp hlen]
        · rw [h3, List.flatten_cons, List.append_assoc]

variable (fuel : ℕ) {req : DeltaCommit H}

/-- **A delta commit** attaches the manifest of the sequence it has read back. -/
theorem commitPinned_writes (held : List H) (ht : total = (req.chunks.map Prod.snd).sum) :
    Writes blake3 (commitPinned blake3 fuel total req held) fun _ => True := by
  have hrelease : ∀ e : DomainError, Writes blake3 (do
      releaseChunkRefs held
      Prog.ret (.error e : Except DomainError (DeltaOutcome H))) fun _ => True :=
    fun e => (Writes.books (releaseChunkRefs_only held)).bind fun _ _ => .ret trivial
  refine (hashChunkSequence_writes req.chunks []).bind fun r hr => ?_
  cases r with
  | error e => exact hrelease e
  | ok computed =>
    dsimp only
    split_ifs with hne
    · exact hrelease _
    · obtain ⟨contents, h1, h2, h3⟩ := hr computed rfl
      rw [not_ne_iff.mp hne, List.nil_append] at h3
      refine (attachManifest_writes held ⟨contents, h1, h2, h3⟩ ht).bind fun r _ => ?_
      cases r with
      | error e => exact .ret trivial
      | ok _ =>
        refine (Writes.books (register_only fuel _ _)).bind fun r _ => ?_
        cases r <;> exact .ret trivial

theorem commitChunks_writes (ht : total = (req.chunks.map Prod.snd).sum) :
    Writes blake3 (commitChunks blake3 fuel total req) fun _ => True := by
  have hpin : Writes blake3 (if (req.chunks.map Prod.fst).dedup.isEmpty then Prog.ret (some [])
      else Machine.issue (.pinClaimable (req.chunks.map Prod.fst).dedup)) fun _ => True := by
    split_ifs
    · exact .ret trivial
    · exact .of_only (only_op trivial)
  refine hpin.bind fun r _ => ?_
  cases r with
  | none => exact .ret trivial
  | some pinned =>
    dsimp only
    split_ifs
    · exact (Writes.books (releaseChunkRefs_only pinned)).bind fun _ _ => .ret trivial
    · exact commitPinned_writes fuel _ ht

theorem commitWithPerms_writes (n fuel : ℕ) (owned : Bool)
    (hlen : 64 * req.chunks.length ≤ fileBodyLimit) :
    Writes blake3 (commitWithPerms blake3 n fuel owned req) fun _ => True := by
  unfold commitWithPerms
  cases hv : validateChunkList n req.chunks with
  | error e => exact .ret trivial
  | ok total =>
    split_ifs
    · refine (Writes.books (addReference_only _)).bind fun r _ => ?_
      cases r with
      | error e => exact .ret trivial
      | ok _ =>
        refine (Writes.books (register_only fuel _ _)).bind fun r _ => ?_
        cases r <;> exact .ret trivial
    · exact commitChunks_writes fuel (validateChunkList_total hlen hv)

/-! ### Legacy re-chunking, loose chunks and the drain -/

/-- **A re-chunk** replaces a legacy blob by chunks of the same content. -/
theorem rechunkOneLegacyBlob_writes (cut : Bytes → Source) (h : H) :
    Writes blake3 (rechunkOneLegacyBlob blake3 cut h) fun _ => True := by
  have hread : Writes blake3 (readBlobStream h) fun _ => True :=
    .of_only (readBlobStream_only (fun _ => trivial) (fun _ => trivial) h)
  have hingest : Writes blake3 (ingestLegacyBlob blake3 cut h) fun r =>
      ∀ o, r = .ok o → Describes blake3 h o.chunkHashes o.chunkSizes := by
    refine hread.bind fun r _ => ?_
    cases r with
    | error e => exact .ret fun o ho => by cases ho
    | ok data =>
      refine (ingestChunksFromStream_writes (cut data)).bind fun r hr => ?_
      cases r with
      | error e => exact .ret fun o ho => by cases ho
      | ok o =>
        dsimp only
        split_ifs with hh
        · refine .ret fun o' ho' => ?_
          cases ho'
          rw [← hh]
          exact (hr o rfl).1
        · exact (Writes.books (releaseChunkRefs_only _)).bind fun _ _ => .ret fun o ho => by cases ho
  refine hingest.bind fun r hr => ?_
  cases r with
  | error e => exact .ret trivial
  | ok o =>
    refine .step (show WellFormed blake3 (.rechunk h o.chunkHashes o.chunkSizes) from hr o rfl)
      fun r => ?_
    rcases r with _ | _ | deleted
    · exact .ret trivial
    · exact (Writes.books (releaseChunkRefs_only _)).bind fun _ _ => .ret trivial
    · dsimp only
      split_ifs
      · exact .of_only ((only_op trivial).ask (only_stmt trivial fun _ => only_ret _) fun _ => only_ret _)
      · exact .ret trivial

/-! ### All requests -/

theorem succeeds_writes {α : Type} {p : Db H (Except DomainError α)} {Q : Except DomainError α → Prop}
    (h : Writes blake3 p Q) : Writes blake3 (succeeds p) fun _ => True :=
  h.bind fun _ _ => .ret trivial

theorem stores_writes {α : Type} {p : Db H (Except DomainError α)} (h : Stores blake3 p) :
    Writes blake3 (succeeds p) fun _ => True := by
  obtain ⟨source, k, rfl, herr, hok⟩ := h
  refine succeeds_writes ((storeFromStream_writes source).bind (R := fun _ => True) fun r _ => ?_)
  cases r with
  | error e =>
    obtain ⟨a, ha⟩ := herr e
    rw [ha]
    exact .ret trivial
  | ok stored => exact .books (hok stored)

/-- **Every request** keeps the invariant, whatever runs beside it. -/
theorem request_writes : ∀ {q : Request H}, q.Receivable →
    Writes blake3 (q.prog blake3 fuel) fun _ => True
  | .upload source target, _ => stores_writes (upload_stores blake3 fuel source target)
  | .deltaCommit n owned req, hq => succeeds_writes (commitWithPerms_writes n fuel owned hq)
  | .storeLoose frames, _ => succeeds_writes (.of_only (storeLooseChunks_only blake3
    (fun _ => rfl) (fun _ => trivial) (fun _ => trivial) frames))
  | .delete id, _ => succeeds_writes (Writes.books (deleteFile_only id))
  | .deletePermanently id, _ => succeeds_writes (Writes.books (deleteFilePermanently_only fuel id))
  | .copy newFolders l, _ => succeeds_writes (Writes.books (copyFiles_only newFolders l))
  | .storeAttached k source, _ => stores_writes (storeAttachedBlob_stores blake3 fuel source k)
  | .storeAttachedIfAbsent k source, _ => stores_writes (storeAttachedBlobIfAbsent_stores blake3 fuel source k)
  | .storeDerived k source, _ => stores_writes (storeDerivedBlob_stores blake3 fuel source k)
  | .collectGarbage rounds grace, _ =>
    succeeds_writes (Writes.books (garbageCollectWithGrace_only fuel rounds grace))
  | .reclaim transient h, _ => .of_only (((settleOne_drains transient h).mono fun op hop => by
      cases op <;> trivial).bind fun _ => only_ret _)
  | .rechunk cut h, _ => succeeds_writes (rechunkOneLegacyBlob_writes cut h)
  | .clock secs, _ => .step trivial fun _ => .ret trivial

/-- **Every manifest describes its content.** In every run of any requests from a sound store, at every
point of the run: the two lists of a manifest have one length, its chunk hashes name unique contents
whose lengths are its sizes, `total_size` is their sum, and its key is the hash of their
concatenation. -/
theorem manifests_describe (hinj : Function.Injective blake3) (fuel : ℕ) {s : Store H}
    (hs : Sound blake3 s) {l : List (Request H)} (hl : ∀ q ∈ l, q.Receivable)
    {P : Pool (sql H) (Store H) Unit Bool}
    (hr : Runs (machine H) .idle (fun _ _ _ _ => True)
      (Pool.start s (l.map (Request.prog blake3 fuel))) P)
    {h : H} {m : Manifest H} (hm : P.store.chunkManifests.get h = some m) :
    m.chunkHashes.length = m.chunkSizes.length ∧ m.totalSize = m.chunkSizes.sum ∧
      ∃ contents : List Bytes, contents.map blake3 = m.chunkHashes ∧
        contents.map List.length = m.chunkSizes ∧ blake3 contents.flatten = h ∧
        ∀ contents', contents'.map blake3 = m.chunkHashes → contents' = contents := by
  have hdrop : Droppable (S := Store H) (T := Unit) (fun s _ => Sound blake3 s)
      fun (_ : Bool) _ => True := fun _ _ _ _ _ h => h
  have hend : Sound blake3 P.store := by
    refine hr.start_safe hdrop hs fun p hp => ?_
    obtain ⟨q, hq, rfl⟩ := List.mem_map.mp hp
    exact request_writes fuel (hl q hq) 0
  obtain ⟨⟨contents, h1, h2, h3⟩, htotal⟩ := hend.manifests h m hm
  refine ⟨?_, htotal, contents, h1.symm, h2.symm, h3.symm, fun contents' h' => ?_⟩
  · rw [h1, h2, List.length_map, List.length_map]
  · rw [h1] at h'
    exact List.map_injective_iff.mpr hinj h'

/-- Two loose chunks, and a delta commit that puts them together in the other order. -/
def looseThenCommit : List (Request Bytes) :=
  [.storeLoose [some [1], some [2]],
    .deltaCommit 100 false ⟨[2, 1], [([2], 1), ([1], 1)], .create (some 0) "a"⟩]

theorem manifests_describe_commit :
    ∃ P : Pool (sql Bytes) (Store Bytes) Unit Bool,
      Runs (machine Bytes) .idle (fun _ _ _ _ => True)
        (Pool.start (Store.fresh {0}) (looseThenCommit.map (Request.prog id 1))) P ∧
      P.store.chunkManifests.get [2, 1] = some ⟨[[2], [1]], [1, 1], 2, 1⟩ ∧
      ∃ contents : List Bytes, contents.map id = [[2], [1]] ∧ contents.map List.length = [1, 1] ∧
        id contents.flatten = [2, 1] := by
  have hfresh : Sound id (Store.fresh {0} : Store Bytes) :=
    ⟨fun _ _ h => (by cases h), fun _ _ h => (by cases h)⟩
  have hl : ∀ q ∈ looseThenCommit, q.Receivable := by
    simp [looseThenCommit, Request.Receivable, fileBodyLimit]
  refine exists_run_with (List.replicate 4 (0, Choice.ok) ++ List.replicate 5 (1, Choice.ok))
    (fun P hr hm => ?_) (by decide +kernel)
  obtain ⟨-, -, contents, h1, h2, h3, -⟩ := manifests_describe Function.injective_id 1 hfresh hl hr hm
  exact ⟨contents, h1, h2, h3⟩

end OxiCloud.Manifests
