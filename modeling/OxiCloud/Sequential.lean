import OxiCloud.OperationSpecs

/-! # Operations one after the other

Requests that do not overlap keep both counters exact: a manifest counts the rows that name it and a
blob row counts the manifests that list it. `Exact` is the invariant between two requests, `Serves` the
runs of sequences of them, `counts_exact` the result.

The requests are those that settle what they take (`Orderly`), and a statement that takes or gives back
a reference does not fail (`Works`). A bare `remove_reference` is not a request: it gives back what its
caller holds, as the upload does that discards its content. `bare_removeReference` shows what it does to
content nobody handed to it. -/

namespace OxiCloud.Sequential

open Lib.Tables Lib.Programs Lib.Pools Schema OxiCloud.Machine Tokens Accounting Balance BlobHandler
open FileRepository BalanceSpecs IngestSpecs OperationSpecs Requests Multiset Prog

variable {H : Type} [DecidableEq H] {s s' : Store H} {c f : Multiset (Token H)} {fuel : ℕ}

/-! ### The invariant between requests -/

/-- Both counters are exact, attached rows have their file, no derived row is negative. -/
structure Exact (s : Store H) : Prop where
  manifests : ∀ h, s.references h = s.manifestRefs h
  blobs : ∀ x, s.containing x = s.blobRefs x
  attached : s.AttachedFk
  positive : s.NoNegative

theorem exact_fresh (folders : Finset FolderId) : Exact (Store.fresh folders : Store H) where
  manifests _ := rfl
  blobs _ := rfl
  attached _ _ h := by cases h
  positive _ _ h := by cases h

omit [DecidableEq H] in
theorem onlySlots_replicate (n : ℕ) : OnlySlots .exact (replicate n (.slot : Token H)) :=
  fun _ _ ht => eq_of_mem_replicate ht

theorem OnlySlots.fileTokens (hc : OnlySlots .exact c) (h : H) : fileTokens c h = 0 := by
  refine countP_eq_zero.mpr fun t ht => ?_
  rw [hc rfl t ht]
  simp [Token.names]

theorem OnlySlots.chunkTokens (hc : OnlySlots .exact c) (x : H) : chunkTokens c x = 0 := by
  refine count_eq_zero.mpr fun ht => ?_
  cases hc rfl _ ht

/-- With a slot for every derived row the store is balanced. -/
theorem Exact.balanced (h : Exact s) : Balanced .exact s (replicate s.derivedRows .slot) := by
  have hslots := onlySlots_replicate (H := H) s.derivedRows
  refine ⟨⟨fun _ => 0, fun _ _ => rfl, fun x => ?_, fun _ x => ?_⟩, fun _ => ⟨?_, ?_, h.attached, h.positive⟩⟩
  · rw [OnlySlots.fileTokens hslots]
    exact h.manifests x
  · rw [OnlySlots.chunkTokens hslots, Nat.zero_add]
    exact h.blobs x
  · intro x cs hx
    cases eq_of_mem_replicate hx
  · simp [slots]

theorem exact_of_balanced (hb : Balanced .exact s c) (hc : OnlySlots .exact c) : Exact s := by
  obtain ⟨L, hL⟩ := hb.accounts
  have hz := hL.none (by decide)
  refine ⟨fun h => ?_, fun x => ?_, (hb.tidy rfl).attached, (hb.tidy rfl).positive⟩
  · have h1 := hL.file h
    rw [OnlySlots.fileTokens hc, hz h] at h1
    exact h1
  · have h1 := hL.chunk (by decide) x
    rw [OnlySlots.chunkTokens hc, hz x, Nat.zero_add] at h1
    exact h1

/-! ### One request -/

/-- The requests that settle what they take. -/
def Orderly : Request H → Prop
  | .upload _ target => target ≠ .abandon
  | .deltaCommit _ owned req => owned = false ∧ req.target ≠ .abandon
  | .rechunk .. => False
  | _ => True

theorem allow_of_works (op : Op H) (ch : Choice H) (s : Store H) (h : Works op ch s) :
    Allow .exact op ch s 0 := by
  refine ⟨fun _ => ⟨h, rfl⟩, ?_⟩
  cases op with
  | reapManifests => exact fun _ _ => rfl
  | upsertAttached k x previous => exact fun hm => absurd rfl hm
  | removeManifest x cs => exact fun hm => by cases hm
  | _ => trivial

/-- The upsert hands over the reference of the row it supersedes. -/
theorem upsertAttached_exec {k : AttachedKey} {h : H} {previous : Option H} {ch : Choice H}
    {r : Option Unit} (hb : Balanced .exact s (.file h ::ₘ f))
    (hw : Works (.upsertAttached k h previous) ch s)
    (he : exec (.upsertAttached k h previous) ch s = some (r, s')) : r = some () ∧
      Balanced .exact s' ((s.fileAttachedBlobs.get k).elim 0 (fun old => {.file old}) + f) := by
  obtain ⟨hfault, hfk⟩ := hw rfl
  have hr : r = some () := by
    simp only [fkHolds] at hfk
    simp only [exec, hfk, if_true, answer, hfault] at he
    cases he
    rfl
  subst hr
  have hb' : Balanced .exact s ((.file h ::ₘ f) + 0) := by rwa [add_zero]
  have hnext := hb'.exec (allow_of_works _ _ _ hw) he (singleton_le.mpr (mem_cons_self _ _)) trivial
  rw [next_eq (fun _ => rfl) rfl, add_zero] at hnext
  simp only [loss, gain, sub_singleton, erase_cons_head] at hnext
  rw [add_comm]
  exact ⟨rfl, hnext⟩

variable (blake3 : Bytes → H)

/-- Undisturbed, `store_attached_blob` upserts the row it read. -/
theorem storeAttachedBlob_run {k : AttachedKey} {source : Source} (hb : Balanced .exact s f)
    (hf : slots f < fuel) {tr : List (Op H)} {r : Except DomainError H}
    (hr : Run (machine H) Works (storeAttachedBlob blake3 fuel k source) s tr r s') :
    ∃ c, Balanced .exact s' c ∧ Keeps (Mode.exact = .exact) f c := by
  obtain ⟨r₁, s₁, tr₁, tr₂, h₁, h₂, -⟩ := run_bind.mp hr
  obtain ⟨c₁, hb₁, hc₁⟩ := (storeFromStream_spec (D := balance .exact) blake3 source
    fun _ _ => trivial).run hb allow_of_works h₁
  cases r₁ with
  | error e =>
    obtain ⟨-, -, rfl⟩ := run_ret.mp h₂
    exact ⟨c₁, hb₁, hc₁⟩
  | ok stored =>
    obtain ⟨f', rfl, hk⟩ := hc₁
    obtain ⟨ch₂, r₂, s₂, tr₃, hw₂, he₂, -, h₃⟩ := run_call.mp h₂
    rcases answer_cases he₂ with ⟨hfault, -, -⟩ | ⟨rfl, rfl⟩
    · rw [(hw₂ rfl).1] at hfault
      cases hfault
    obtain ⟨ch₃, r₃, s₃, tr₄, hw₃, he₃, -, h₄⟩ := run_call.mp h₃
    obtain ⟨rfl, hb₃⟩ := upsertAttached_exec hb₁ hw₃ he₃
    cases hold : s₂.fileAttachedBlobs.get k with
    | none =>
      rw [hold] at h₄ hb₃
      obtain ⟨-, -, rfl⟩ := run_ret.mp h₄
      exact ⟨f', by simpa using hb₃, hk⟩
    | some old =>
      rw [hold] at h₄ hb₃
      have h₄' : Run (machine H) Works (removeReference fuel old >>= fun _ => ret (.ok stored.hash))
        s₃ tr₄ r s' := h₄
      obtain ⟨r₅, s₅, tr₅, tr₆, h₅, h₆, -⟩ := run_bind.mp h₄'
      obtain ⟨-, -, rfl⟩ := run_ret.mp h₆
      have hslots : Mode.exact = .exact → slots f' < fuel := fun hm => (hk.eq hm).2.trans_lt hf
      obtain ⟨c₅, hb₅, hc₅⟩ := (removeReference_spec (balance .exact) fuel old f' hslots).run hb₃
        allow_of_works h₅
      exact ⟨c₅, hb₅, hk.trans hc₅⟩

theorem request_spec (hf : slots f < fuel) (ho : OnlySlots .exact f) {q : Request H}
    (hq : Orderly q) (hk : ∀ k source, q ≠ .storeAttached k source) :
    Spec .exact (q.prog blake3 fuel) f fun _ c => OnlySlots .exact c := by
  cases q with
  | upload source target =>
    exact Safe.bind (upload_spec blake3 source (fun _ _ => trivial) (fun _ => hq) fun _ => hf)
      fun _ _ hc => safe_ret (ho.keeps hc)
  | deltaCommit n owned req =>
    have howned : owned = true → Mode.exact = .legacy := by
      rw [hq.1]
      exact fun h => by cases h
    exact Safe.bind (commitWithPerms_spec blake3 n owned req howned (fun _ => hq.2) fun _ => hf)
      fun _ _ hc => safe_ret (ho.keeps hc)
  | storeLoose frames =>
    exact Safe.bind (storeLooseChunks_spec blake3 frames) fun _ _ hc => safe_ret (hc ▸ ho)
  | delete id => exact Safe.bind (deleteFile_spec id) fun _ _ hc => safe_ret (hc ▸ ho)
  | deletePermanently id =>
    exact Safe.bind (deleteFilePermanently_spec id fun _ => hf.le) fun _ _ hc => safe_ret (ho.keeps hc)
  | copy newFolders l => exact Safe.bind (copyFiles_spec newFolders l) fun _ _ hc => safe_ret (hc ▸ ho)
  | storeAttached k source => exact absurd rfl (hk k source)
  | storeAttachedIfAbsent k source =>
    exact Safe.bind (storeAttachedBlobIfAbsent_spec blake3 k source fun _ => hf)
      fun _ _ hc => safe_ret (ho.keeps hc)
  | storeDerived k source =>
    have ho' : OnlySlots .exact (.slot ::ₘ f) := by
      intro hm t ht
      rcases mem_cons.mp ht with rfl | ht
      · rfl
      · exact ho hm t ht
    exact Safe.bind (storeDerivedBlob_spec blake3 k source fun _ => hf)
      fun _ _ hc => safe_ret (ho'.keeps hc)
  | collectGarbage rounds grace =>
    exact Safe.bind (garbageCollectWithGrace_spec rounds grace (fun _ => hf.le) ho)
      fun _ _ hc => safe_ret (ho.keeps (hc rfl))
  | reclaim transient h =>
    exact Safe.bind (settleOne_spec transient h) fun _ _ hc => safe_ret (hc ▸ ho)
  | rechunk cut h => exact absurd hq id
  | clock secs => exact Triple.ask trivial fun _ _ _ _ _ _ _ _ => safe_ret ho

/-- **One request** keeps the counters exact, if its purges may nest as deep as there are derived
rows. -/
theorem Exact.serve (hs : Exact s) {q : Request H} (hq : Orderly q) (hf : s.derivedRows < fuel)
    {tr : List (Op H)} {ok : Bool} (hr : Run (machine H) Works (q.prog blake3 fuel) s tr ok s') :
    Exact s' := by
  have ho := onlySlots_replicate (H := H) s.derivedRows
  have hslots : slots (replicate s.derivedRows (.slot : Token H)) < fuel := by
    simpa [slots] using hf
  by_cases hk : ∀ k source, q ≠ .storeAttached k source
  · obtain ⟨c, hb, hc⟩ := (request_spec blake3 hslots ho hq hk).run hs.balanced allow_of_works hr
    exact exact_of_balanced hb hc
  · simp only [ne_eq, not_forall, not_not] at hk
    obtain ⟨k, source, rfl⟩ := hk
    obtain ⟨r, s₁, tr₁, tr₂, h₁, h₂, -⟩ := run_bind.mp hr
    obtain ⟨-, -, rfl⟩ := run_ret.mp h₂
    obtain ⟨c, hb, hc⟩ := storeAttachedBlob_run blake3 hs.balanced hslots h₁
    exact exact_of_balanced hb (ho.keeps hc)

/-! ### Sequences of requests -/

/-- Requests that run one after the other, each to its end. -/
inductive Serves (blake3 : Bytes → H) : Store H → List (Request H) → Store H → Prop where
  | nil (s : Store H) : Serves blake3 s [] s
  | cons {s s' s'' : Store H} {q : Request H} {l : List (Request H)} {fuel : ℕ} {tr : List (Op H)}
      {ok : Bool} (hf : s.derivedRows < fuel)
      (hr : Run (machine H) Works (q.prog blake3 fuel) s tr ok s') (h : Serves blake3 s' l s'') :
      Serves blake3 s (q :: l) s''

theorem Exact.serves {blake3 : Bytes → H} {l : List (Request H)} (hr : Serves blake3 s l s')
    (hs : Exact s) (hl : ∀ q ∈ l, Orderly q) : Exact s' := by
  induction hr with
  | nil s => exact hs
  | cons hf hr _ ih =>
    exact ih (hs.serve blake3 (hl _ (by simp)) hf hr) fun q hq => hl q (by simp [hq])

/-- **The counters are exact after every sequence of requests.** From an empty store, after any orderly
requests run one after the other, every manifest counts the rows of `files`, `content_derived_blobs` and
`file_attached_blobs` that name it, and every blob row counts the manifests that list it. -/
theorem counts_exact (blake3 : Bytes → H) (folders : Finset FolderId) {l : List (Request H)}
    (hl : ∀ q ∈ l, Orderly q) (hr : Serves blake3 (Store.fresh folders) l s) :
    (∀ h m, s.chunkManifests.get h = some m → m.refCount = s.references h) ∧
      ∀ x b, s.blobs.get x = some b → b.refCount = s.containing x := by
  have hs := (exact_fresh folders).serves hr hl
  refine ⟨fun h m hm => ?_, fun x b hb => ?_⟩
  · rw [hs.manifests, Store.manifestRefs_of_get hm]
  · rw [hs.blobs, Store.blobRefs_of_get hb]

/-- Replay a sequence of requests, each under its choices. -/
def replayAll (blake3 : Bytes → H) (fuel : ℕ) :
    List (Request H × List (Choice H)) → Store H → Option (Store H)
  | [], s => some s
  | (q, l) :: rest, s =>
    if s.derivedRows < fuel then
      (replay (machine H) Works l (q.prog blake3 fuel) s).bind fun x =>
        replayAll blake3 fuel rest x.2
    else none

theorem replayAll_serves {blake3 : Bytes → H} :
    ∀ {l : List (Request H × List (Choice H))} {s s' : Store H},
      replayAll blake3 fuel l s = some s' → Serves blake3 s (l.map Prod.fst) s'
  | [], s, s', h => by cases h; exact .nil s
  | (q, l) :: rest, s, s', h => by
    rw [replayAll] at h
    split_ifs at h with hf
    obtain ⟨⟨ok, s₁⟩, h₁, h₂⟩ := Option.bind_eq_some_iff.mp h
    obtain ⟨tr, hr⟩ := replay_run h₁
    exact .cons hf hr (replayAll_serves h₂)

/-- Two files with one content, a preview, a replacement, a deletion and a collection. -/
def severalRequests : List (Request Bytes × List (Choice Bytes)) :=
  [(.upload ⟨[[1], [2], [1]], false⟩ (.create (some 0) "a"), List.replicate 12 { newId := 7 }),
    (.upload ⟨[[1], [2], [1]], false⟩ (.create (some 0) "b"), List.replicate 12 { newId := 8 }),
    (.storeAttached ⟨7, .preview, ""⟩ ⟨[[1]], false⟩, List.replicate 12 .ok),
    (.upload ⟨[[3]], false⟩ (.update 7 none), List.replicate 12 .ok),
    (.delete 8, List.replicate 3 .ok),
    (.collectGarbage 2 0, [{ pick := [[1, 2, 1]] }] ++ List.replicate 6 .ok)]

theorem counts_exact_severalRequests :
    ∃ s, Serves id (Store.fresh {0}) (severalRequests.map Prod.fst) s ∧
      (∀ h m, s.chunkManifests.get h = some m → m.refCount = s.references h) ∧
      ∀ x b, s.blobs.get x = some b → b.refCount = s.containing x := by
  have hsome : (replayAll id 3 severalRequests (Store.fresh {0})).isSome = true := by
    decide +kernel
  obtain ⟨s, hs⟩ := Option.isSome_iff_exists.mp hsome
  have hr := replayAll_serves hs
  exact ⟨s, hr, counts_exact id {0} (by simp [severalRequests, Orderly]) hr⟩

/-- **Operations that leave a counter wrong.** A bare `remove_reference` on content that two files name
leaves the manifest counting one; `store_attached_blob` for a file that does not exist fails at the
foreign key and leaves the reference it took. -/
theorem bare_removeReference :
    (∃ s s' tr r, Serves id (Store.fresh {0}) ((severalRequests.take 2).map Prod.fst) s ∧
      Run (machine Bytes) Works (removeReference 3 [1, 2, 1]) s tr r s' ∧
      s'.references [1, 2, 1] = 2 ∧ s'.manifestRefs [1, 2, 1] = 1) ∧
    ∃ s tr r, Run (machine Bytes) (fun _ ch _ => ch.fault = false)
        (storeAttachedBlob id 3 ⟨7, .preview, ""⟩ ⟨[[1]], false⟩) (Store.fresh {0}) tr r s ∧
      s.references [1] = 0 ∧ s.manifestRefs [1] = 1 := by
  constructor
  · have hrun : ((replayAll id 3 (severalRequests.take 2) (Store.fresh {0})).any fun s =>
        (replay (machine Bytes) Works [.ok, .ok] (removeReference 3 [1, 2, 1]) s).any fun x =>
          decide (x.2.references [1, 2, 1] = 2 ∧ x.2.manifestRefs [1, 2, 1] = 1)) = true := by
      decide +kernel
    obtain ⟨s, hs, h⟩ := (Option.any_eq_true _ _).mp hrun
    obtain ⟨r, s', tr, hr, h⟩ := exists_run h
    exact ⟨s, s', tr, r, replayAll_serves hs, hr, of_decide_eq_true h⟩
  · have hrun : ((replay (machine Bytes) (fun _ ch _ => ch.fault = false)
        (List.replicate 8 Choice.ok) (storeAttachedBlob id 3 ⟨7, .preview, ""⟩ ⟨[[1]], false⟩)
        (Store.fresh {0})).any fun x =>
          decide (x.2.references [1] = 0 ∧ x.2.manifestRefs [1] = 1)) = true := by
      decide +kernel
    obtain ⟨r, s, tr, hr, h⟩ := exists_run hrun
    exact ⟨s, tr, r, hr, of_decide_eq_true h⟩

end OxiCloud.Sequential
