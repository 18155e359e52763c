import OxiCloud.Footprint
import OxiCloud.Lib.Pools

/-! # The rule for ingest sessions

What an ingest session does to the tokens and to an invariant of the store is decided by its batches, its
rollback and its registration. `Session` lists what is to be shown of these, for a loop invariant `A` and for
what `B` says where the session may roll back; `Session.ingest` is the conclusion for the whole session. -/

namespace OxiCloud.Ingests

open Lib.Programs Lib.Pools Schema OxiCloud.Machine BlobHandler Prog

variable {H T : Type} [DecidableEq H]

/-- The local variables after a chunk that the session had not seen. -/
def noted (blake3 : Bytes → H) (v : IngestVars H) (data : Bytes) : IngestVars H :=
  { v.push blake3 data with
    sessionSeen := blake3 data :: v.sessionSeen
    pending := v.pending ++ [(blake3 data, data)]
    pendingBytes := v.pendingBytes + data.length }

def flushed (v : IngestVars H) : IngestVars H := { v with pending := [], pendingBytes := 0 }

def outcome (blake3 : Bytes → H) (v : IngestVars H) (st : IngestState H) : IngestOutcome H :=
  ⟨blake3 v.content, v.totalSize, v.chunkHashes, v.chunkSizes, st.written.length⟩

variable (blake3 : Bytes → H) (L : Ledger (sql H) (Store H) T)
  (allow : (op : Op H) → Choice H → Store H → Multiset T → Prop) (inv : Store H → Multiset T → Prop)

structure Session (A : IngestVars H → IngestState H → Multiset T → Prop)
    (B : IngestState H → Multiset T → Prop)
    (Q : Except DomainError (IngestOutcome H) → Multiset T → Prop) : Prop where
  seen : ∀ {v st c data}, A v st c → blake3 data ∈ v.sessionSeen → A (v.push blake3 data) st c
  new : ∀ {v st c data}, A v st c → blake3 data ∉ v.sessionSeen → A (noted blake3 v data) st c
  settle : ∀ {v st c}, A v st c → Safe (machine H) L allow inv (settleBatch v.pending st) c fun r c' =>
    B r.2 c' ∧ (r.1 = .ok () → A (flushed v) r.2 c')
  stop : ∀ {v st c}, A v st c → B st c
  rollback : ∀ {st c} e, B st c → Safe (machine H) L allow inv (runRollback st) c fun _ => Q (.error e)
  done : ∀ {v st c}, A (flushed v) st c → st.written = [] → Q (.ok (outcome blake3 v st)) c
  sync : ∀ {v st c}, A (flushed v) st c →
    Safe (machine H) L allow inv (issue (.syncBlobs (st.written.map Prod.fst))) c fun _ => A (flushed v) st
  register : ∀ {v st c}, A (flushed v) st c →
    Safe (machine H) L allow inv (issue (.registerChunks st.written)) c fun r c' =>
      (r = none → B st c') ∧ (r = some () → Q (.ok (outcome blake3 v st)) c')

variable {blake3 L allow inv} {A : IngestVars H → IngestState H → Multiset T → Prop}
  {B : IngestState H → Multiset T → Prop} {Q : Except DomainError (IngestOutcome H) → Multiset T → Prop}

theorem Session.loop (h : Session blake3 L allow inv A B Q) : ∀ (chunks : List Bytes) {v : IngestVars H}
    {st : IngestState H} {c : Multiset T}, A v st c →
      Safe (machine H) L allow inv (ingestLoop blake3 chunks v st) c fun r c' =>
        B r.2 c' ∧ ∀ v', r.1 = .ok v' → A v' r.2 c'
  | [], v, st, c, ha => safe_ret ⟨h.stop ha, fun v' hv => by cases hv; exact ha⟩
  | data :: rest, v, st, c, ha => by
    rw [ingestLoop]
    dsimp only
    split_ifs with hseen hflush
    · exact h.loop rest (h.seen ha hseen)
    · refine Safe.bind (h.settle (h.new ha hseen)) fun r c' hr => ?_
      rcases r with ⟨_ | _, st'⟩
      · exact safe_ret ⟨hr.1, fun _ hv => by cases hv⟩
      · exact h.loop rest (hr.2 rfl)
    · exact h.loop rest (h.new ha hseen)

/-- **The rule for `ingest_chunks_from_stream`.** -/
theorem Session.ingest (h : Session blake3 L allow inv A B Q) (source : Source) {c : Multiset T}
    (hc : A ⟨[], 0, [], [], [], [], 0⟩ ⟨[], []⟩ c) :
    Safe (machine H) L allow inv (ingestChunksFromStream blake3 source) c Q := by
  have hroll : ∀ {st c} e, B st c → Safe (machine H) L allow inv (runRollback st >>= fun _ =>
      ret (.error e : Except DomainError (IngestOutcome H))) c Q :=
    fun e hb => Safe.bind (h.rollback e hb) fun _ _ hq => safe_ret hq
  refine Safe.bind (h.loop source.chunks hc) fun r c hr => ?_
  rcases r with ⟨e | v, st⟩
  · exact hroll e hr.1
  split_ifs
  · exact hroll _ hr.1
  refine Safe.bind (h.settle (hr.2 v rfl)) fun r c hs => ?_
  rcases r with ⟨e | _, st'⟩
  · exact hroll e hs.1
  dsimp only
  split_ifs with hw
  · exact safe_ret (h.done (hs.2 rfl) (List.isEmpty_iff.mp hw))
  refine Safe.bind (h.sync (hs.2 rfl)) fun r c ha => ?_
  cases r with
  | none => exact hroll _ (h.stop ha)
  | some _ =>
    refine Safe.bind (h.register ha) fun r c hr => ?_
    cases r with
    | none => exact hroll _ (hr.1 rfl)
    | some _ => exact safe_ret (hr.2 rfl)

end OxiCloud.Ingests
