import OxiCloud.Schema

/-! # The disk cache of a blob backend

`CachedBlobBackend` keeps copies of objects in files on a local disk and an index of them in memory. Reads
trust a file the index names; writes go to the inner backend and to the file; a delete drops the entry and
the file before the object. The index is rebuilt from the files at a restart.

The operations take the outcome of every call they make as arguments. `Coherent` says that no file and no
index entry disagrees with the inner backend; it is kept by every operation that meets `StepOK`: a cache
file is written whole or not at all, a put carries the bytes the hash stands for, and a file to be removed
is removed. `cached_reads` draws the conclusion for reads after any run. -/

namespace OxiCloud.BlobCache

open Schema Function

variable {H : Type} [DecidableEq H]

/-! ### The cache -/

/-- The files of the cache directory, and the index with the sizes. -/
structure Cache (H : Type) where
  disk : Objects H
  index : H → Option ℕ

/-- How a write to a cache file ends: whole, refused before the file is touched, or stopped after some
bytes. -/
inductive DiskWrite where
  | whole
  | refused
  | torn (n : ℕ)
  deriving DecidableEq

def DiskWrite.apply (w : DiskWrite) (old : Option Bytes) (data : Bytes) : Option Bytes :=
  match w with
  | .whole => some data
  | .refused => old
  | .torn n => some (data.take n)

def Cache.invalidate (c : Cache H) (h : H) : Cache H := { c with index := Function.update c.index h none }

/-- `remove_file`, whose result is ignored. -/
def Cache.unlink (c : Cache H) (h : H) (unlinked : Bool) : Cache H :=
  if unlinked then { c with disk := Function.update c.disk h none } else c

/-- `cache_bytes_write_through`: the index entry is made whatever became of the file. -/
def Cache.cacheBytesWriteThrough (c : Cache H) (h : H) (data : Bytes) (w : DiskWrite) : Cache H where
  disk := Function.update c.disk h (w.apply (c.disk h) data)
  index := Function.update c.index h (some data.length)

/-- `insert_into_cache`, and whether it succeeded. -/
def Cache.insertIntoCache (c : Cache H) (h : H) (data : Bytes) (w : DiskWrite) : Cache H × Bool :=
  let disk := Function.update c.disk h (w.apply (c.disk h) data)
  if w = .whole then (⟨disk, Function.update c.index h (some data.length)⟩, true)
  else (⟨disk, c.index⟩, false)

/-- The file is renamed into place and indexed. -/
def Cache.fill (c : Cache H) (h : H) (b : Bytes) : Cache H where
  disk := Function.update c.disk h (some b)
  index := Function.update c.index h (some b.length)

/-! ### The backend -/

/-- How a call to the inner backend ends; a failed one may have reached it. -/
inductive Call where
  | ok
  | failed (reached : Bool)
  deriving DecidableEq

/-- The inner backend and the cache. -/
structure CachedBlobBackend (H : Type) where
  inner : Objects H
  cache : Cache H

/-- A put to the inner backend, which keeps an object it has unless it is one that overwrites. -/
def putNew (inner : Objects H) (h : H) (data : Bytes) (overwrites : Bool) : Objects H :=
  if (inner h).isSome ∧ overwrites = false then inner else Function.update inner h (some data)

/-- How the calls of a read end: opening the file, fetching the object, opening the file again. -/
structure ReadFaults where
  opened : Bool
  fetched : Bool
  reopened : Bool

inductive Op (H : Type) where
  | putBlob (h : H) (data : Bytes) (copy : DiskWrite) (call : Call) (unlinked : Bool)
  | putBlobFromBytes (h : H) (data : Bytes) (overwrites : Bool) (call : Call) (write : DiskWrite)
  | getBlobStream (h : H) (f : ReadFaults)
  | getBlobRangeStream (h : H) (start : ℕ) (stop : Option ℕ) (f : ReadFaults)
  | deleteBlob (h : H) (call : Call) (unlinked : Bool)
  | blobExists (h : H) (call : Call)
  | blobSize (h : H) (call : Call)
  | evict (h : H) (unlinked : Bool)
  | loseIndex (h : H)
  | restart

inductive Reply where
  | done
  | bytes (b : Bytes)
  | answer (found : Bool)
  | size (n : ℕ)
  | failed
  deriving DecidableEq

def putBlob (s : CachedBlobBackend H) (h : H) (data : Bytes) (copy : DiskWrite) (call : Call)
    (unlinked : Bool) : CachedBlobBackend H × Reply :=
  let (cache, cached) := s.cache.insertIntoCache h data copy
  match call with
  | .ok => (⟨putNew s.inner h data false, cache⟩, .done)
  | .failed reached =>
    let inner := if reached then putNew s.inner h data false else s.inner
    (⟨inner, if cached then (cache.invalidate h).unlink h unlinked else cache⟩, .failed)

def putBlobFromBytes (s : CachedBlobBackend H) (h : H) (data : Bytes) (overwrites : Bool) (call : Call)
    (write : DiskWrite) : CachedBlobBackend H × Reply :=
  match call with
  | .ok => (⟨putNew s.inner h data overwrites, s.cache.cacheBytesWriteThrough h data write⟩, .done)
  | .failed reached => ({ s with inner := if reached then putNew s.inner h data overwrites else s.inner },
      .failed)

def fetchAndCache (s : CachedBlobBackend H) (h : H) (fetched : Bool) : CachedBlobBackend H × Bool :=
  match fetched, s.inner h with
  | true, some b => ({ s with cache := s.cache.fill h b }, true)
  | _, _ => (s, false)

/-- The bytes of the file the cache serves, fetched if need be. -/
def serve (s : CachedBlobBackend H) (h : H) (f : ReadFaults) : CachedBlobBackend H × Option Bytes :=
  if (s.cache.index h).isSome ∧ (s.cache.disk h).isSome ∧ f.opened = true then (s, s.cache.disk h)
  else
    match fetchAndCache { s with cache := s.cache.invalidate h } h f.fetched with
    | (s, false) => (s, none)
    | (s, true) => (s, if f.reopened then s.cache.disk h else none)

/-- The bytes from `start` up to `stop`, exclusive. -/
def slice (b : Bytes) (start : ℕ) (stop : Option ℕ) : Bytes :=
  match stop with
  | some e => (b.drop start).take (e - start)
  | none => b.drop start

def getBlobStream (s : CachedBlobBackend H) (h : H) (f : ReadFaults) : CachedBlobBackend H × Reply :=
  match serve s h f with
  | (s, some b) => (s, .bytes b)
  | (s, none) => (s, .failed)

def getBlobRangeStream (s : CachedBlobBackend H) (h : H) (start : ℕ) (stop : Option ℕ) (f : ReadFaults) :
    CachedBlobBackend H × Reply :=
  match serve s h f with
  | (s, some b) => (s, .bytes (slice b start stop))
  | (s, none) => (s, .failed)

def deleteBlob (s : CachedBlobBackend H) (h : H) (call : Call) (unlinked : Bool) :
    CachedBlobBackend H × Reply :=
  let cache := (s.cache.invalidate h).unlink h unlinked
  match call with
  | .ok => (⟨Function.update s.inner h none, cache⟩, .done)
  | .failed reached =>
    (⟨if reached then Function.update s.inner h none else s.inner, cache⟩, .failed)

def blobExists (s : CachedBlobBackend H) (h : H) (call : Call) : Reply :=
  if (s.cache.index h).isSome then .answer true
  else match call with
    | .ok => .answer (s.inner h).isSome
    | .failed _ => .failed

def blobSize (s : CachedBlobBackend H) (h : H) (call : Call) : Reply :=
  match s.cache.index h with
  | some n => .size n
  | none => match s.cache.disk h with
    | some b => .size b.length
    | none => match call, s.inner h with
      | .ok, some b => .size b.length
      | _, _ => .failed

/-- One operation; evictions, losses of index entries and restarts are among them. -/
def exec (s : CachedBlobBackend H) : Op H → CachedBlobBackend H × Reply
  | .putBlob h data copy call unlinked => putBlob s h data copy call unlinked
  | .putBlobFromBytes h data overwrites call write => putBlobFromBytes s h data overwrites call write
  | .getBlobStream h f => getBlobStream s h f
  | .getBlobRangeStream h start stop f => getBlobRangeStream s h start stop f
  | .deleteBlob h call unlinked => deleteBlob s h call unlinked
  | .blobExists h call => (s, blobExists s h call)
  | .blobSize h call => (s, blobSize s h call)
  | .evict h unlinked => ({ s with cache := (s.cache.invalidate h).unlink h unlinked }, .done)
  | .loseIndex h => ({ s with cache := s.cache.invalidate h }, .done)
  | .restart => ({ s with cache.index := fun h => (s.cache.disk h).map List.length }, .done)

def run (s : CachedBlobBackend H) (ops : List (Op H)) : CachedBlobBackend H :=
  ops.foldl (fun s op => (exec s op).1) s

/-! ### Coherence -/

/-- No file and no index entry disagrees with the inner backend. -/
structure Coherent (s : CachedBlobBackend H) : Prop where
  disk : ∀ h b, s.cache.disk h = some b → s.inner h = some b
  index : ∀ h n, s.cache.index h = some n → ∃ b, s.inner h = some b ∧ b.length = n

def Untorn (w : DiskWrite) : Prop := w = .whole ∨ w = .refused

instance (w : DiskWrite) : Decidable (Untorn w) := inferInstanceAs (Decidable (_ ∨ _))

/-- What an operation must meet: a put carries the bytes the inner backend has, if it has the hash, and its
cache file is written whole or not at all; files to be removed are removed. -/
def StepOK (s : CachedBlobBackend H) : Op H → Prop
  | .putBlob h data copy _ unlinked =>
    (∀ b, s.inner h = some b → b = data) ∧ Untorn copy ∧ unlinked = true
  | .putBlobFromBytes h data _ _ write => (∀ b, s.inner h = some b → b = data) ∧ Untorn write
  | .deleteBlob _ _ unlinked => unlinked = true
  | _ => True

def StepsOK : CachedBlobBackend H → List (Op H) → Prop
  | _, [] => True
  | s, op :: ops => StepOK s op ∧ StepsOK (exec s op).1 ops

/-- A hash the cache does not speak of. -/
def Dropped (c : Cache H) (h : H) : Prop := c.disk h = none ∧ c.index h = none

section Coherence
variable {s : CachedBlobBackend H} {inner : Objects H} {cache : Cache H} {h : H} {data : Bytes}

omit [DecidableEq H] in
theorem Coherent.mono (hs : Coherent s) (hdisk : ∀ h b, cache.disk h = some b → s.cache.disk h = some b)
    (hindex : ∀ h n, cache.index h = some n → s.cache.index h = some n) : Coherent ⟨s.inner, cache⟩ :=
  ⟨fun h b hb => hs.disk h b (hdisk h b hb), fun h n hn => hs.index h n (hindex h n hn)⟩

/-- A state that differs from a coherent one only at `h`. -/
theorem Coherent.at (hs : Coherent s) (hinner : ∀ x, x ≠ h → inner x = s.inner x)
    (hdisk : ∀ x, x ≠ h → cache.disk x = s.cache.disk x)
    (hindex : ∀ x, x ≠ h → cache.index x = s.cache.index x)
    (hd : ∀ b, cache.disk h = some b → inner h = some b)
    (hi : ∀ n, cache.index h = some n → ∃ b, inner h = some b ∧ b.length = n) :
    Coherent ⟨inner, cache⟩ := by
  refine ⟨fun x b hb => ?_, fun x n hn => ?_⟩
  · by_cases hx : x = h
    · subst hx
      exact hd b hb
    · dsimp only at hb ⊢
      rw [hdisk x hx] at hb
      rw [hinner x hx]
      exact hs.disk x b hb
  · by_cases hx : x = h
    · subst hx
      exact hi n hn
    · dsimp only at hn ⊢
      rw [hindex x hx] at hn
      rw [hinner x hx]
      exact hs.index x n hn

variable (c : Cache H)

theorem unlink_disk (h x : H) (b : Bytes) (unlinked : Bool)
    (hb : (c.unlink h unlinked).disk x = some b) : c.disk x = some b := by
  unfold Cache.unlink at hb
  split_ifs at hb
  · dsimp only at hb
    rw [update_apply] at hb
    split_ifs at hb
    exact hb
  · exact hb

theorem invalidate_index (h x : H) (n : ℕ) (hn : (c.invalidate h).index x = some n) :
    c.index x = some n := by
  unfold Cache.invalidate at hn
  dsimp only at hn
  rw [update_apply] at hn
  split_ifs at hn
  exact hn

theorem unlink_index (h : H) (unlinked : Bool) : (c.unlink h unlinked).index = c.index := by
  unfold Cache.unlink
  split_ifs <;> rfl

theorem dropped_unlink (h : H) : Dropped ((c.invalidate h).unlink h true) h :=
  ⟨update_self _ _ _, update_self _ _ _⟩

theorem dropped_ne (h : H) {x : H} (hx : x ≠ h) :
    ((c.invalidate h).unlink h true).disk x = c.disk x ∧
      ((c.invalidate h).unlink h true).index x = c.index x :=
  ⟨update_of_ne hx _ _, update_of_ne hx _ _⟩

theorem putNew_ne (inner : Objects H) (h : H) (data : Bytes) (overwrites : Bool) {x : H} (hx : x ≠ h) :
    putNew inner h data overwrites x = inner x := by
  unfold putNew
  split_ifs
  · rfl
  · exact update_of_ne hx _ _

theorem putNew_self (overwrites : Bool) (hdata : ∀ b, inner h = some b → b = data) :
    putNew inner h data overwrites h = some data := by
  unfold putNew
  split_ifs with hif
  · obtain ⟨b, hb⟩ := Option.isSome_iff_exists.mp hif.1
    rw [hb, hdata b hb]
  · exact update_self _ _ _

theorem Coherent.putInner (hs : Coherent s) (overwrites reached : Bool)
    (hdata : ∀ b, s.inner h = some b → b = data) :
    Coherent { s with inner := if reached then putNew s.inner h data overwrites else s.inner } := by
  split_ifs
  · refine hs.at (h := h) (fun x hx => putNew_ne _ _ _ _ hx) (fun _ _ => rfl) (fun _ _ => rfl)
      (fun b hb => ?_) fun n hn => ?_
    · rw [putNew_self overwrites hdata, hdata b (hs.disk h b hb)]
    · obtain ⟨b, hb, hlen⟩ := hs.index h n hn
      exact ⟨data, putNew_self overwrites hdata, by rw [← hdata b hb, hlen]⟩
  · exact hs

theorem Coherent.invalidate (hs : Coherent s) (h : H) (unlinked : Bool) :
    Coherent { s with cache := (s.cache.invalidate h).unlink h unlinked } := by
  refine hs.mono (fun x b hb => unlink_disk (s.cache.invalidate h) h x b unlinked hb) fun x n hn => ?_
  rw [unlink_index] at hn
  exact invalidate_index _ _ _ _ hn

theorem Coherent.loseIndex (hs : Coherent s) (h : H) :
    Coherent { s with cache := s.cache.invalidate h } :=
  hs.mono (fun _ _ hb => hb) fun _ _ hn => invalidate_index _ _ _ _ hn

theorem Coherent.fill (hs : Coherent s) {b : Bytes} (hb : s.inner h = some b) :
    Coherent { s with cache := s.cache.fill h b } := by
  refine hs.at (h := h) (fun _ _ => rfl) (fun x hx => update_of_ne hx _ _)
    (fun x hx => update_of_ne hx _ _) (fun b' hb' => ?_) fun n hn => ?_
  · dsimp only [Cache.fill] at hb'
    rw [update_self] at hb'
    rw [hb, hb']
  · dsimp only [Cache.fill] at hn
    rw [update_self, Option.some.injEq] at hn
    exact ⟨b, hb, hn⟩

/-- What was dropped from the cache may have changed in the inner backend. -/
theorem Coherent.drop (hs : Coherent s) (hinner : ∀ x, x ≠ h → inner x = s.inner x) :
    Coherent ⟨inner, (s.cache.invalidate h).unlink h true⟩ := by
  refine hs.at (h := h) hinner (fun x hx => (dropped_ne _ h hx).1) (fun x hx => (dropped_ne _ h hx).2)
    (fun b hb => ?_) fun n hn => ?_
  · rw [(dropped_unlink _ h).1] at hb
    cases hb
  · rw [(dropped_unlink _ h).2] at hn
    cases hn

variable {call : Call}

theorem Coherent.putBlob (hs : Coherent s) {copy : DiskWrite}
    (hdata : ∀ b, s.inner h = some b → b = data) (hcopy : Untorn copy) :
    Coherent (putBlob s h data copy call true).1 := by
  unfold BlobCache.putBlob Cache.insertIntoCache
  rcases hcopy with rfl | rfl
  · simp only [if_true, DiskWrite.apply]
    cases call with
    | ok =>
      refine hs.at (h := h) (fun x hx => putNew_ne _ _ _ _ hx) (fun x hx => update_of_ne hx _ _)
        (fun x hx => update_of_ne hx _ _) (fun b hb => ?_) fun n hn => ?_
      · dsimp only at hb
        rw [update_self] at hb
        rw [putNew_self false hdata, hb]
      · dsimp only at hn
        rw [update_self, Option.some.injEq] at hn
        exact ⟨data, putNew_self false hdata, hn⟩
    | failed reached =>
      have hdrop := (hs.putInner false reached hdata).drop (h := h) fun _ _ => rfl
      simpa [Cache.invalidate, Cache.unlink] using hdrop
  · simp only [DiskWrite.apply, reduceCtorEq, if_false, Function.update_eq_self, Bool.false_eq_true]
    cases call with
    | ok => exact hs.putInner false true hdata
    | failed reached => exact hs.putInner false reached hdata

theorem Coherent.putBlobFromBytes (hs : Coherent s) {overwrites : Bool} {write : DiskWrite}
    (hdata : ∀ b, s.inner h = some b → b = data) (hwrite : Untorn write) :
    Coherent (putBlobFromBytes s h data overwrites call write).1 := by
  cases call with
  | ok =>
    refine hs.at (h := h) (fun x hx => putNew_ne _ _ _ _ hx) (fun x hx => update_of_ne hx _ _)
      (fun x hx => update_of_ne hx _ _) (fun b hb => ?_) fun n hn => ?_
    · rw [putNew_self overwrites hdata]
      dsimp only [Cache.cacheBytesWriteThrough] at hb
      rw [update_self] at hb
      rcases hwrite with rfl | rfl
      · exact hb
      · rw [hdata b (hs.disk h b hb)]
    · dsimp only [Cache.cacheBytesWriteThrough] at hn
      rw [update_self, Option.some.injEq] at hn
      exact ⟨data, putNew_self overwrites hdata, hn⟩
  | failed reached => exact hs.putInner overwrites reached hdata

theorem Coherent.deleteBlob (hs : Coherent s) : Coherent (deleteBlob s h call true).1 := by
  unfold BlobCache.deleteBlob
  cases call with
  | ok => exact hs.drop fun x hx => update_of_ne hx _ _
  | failed reached =>
    dsimp only
    split_ifs
    · exact hs.drop fun x hx => update_of_ne hx _ _
    · exact hs.drop fun _ _ => rfl

/-- What a read does: the objects stay, and what is served is the object. -/
theorem serve_ok (hs : Coherent s) (h : H) (f : ReadFaults) :
    Coherent (serve s h f).1 ∧ (serve s h f).1.inner = s.inner ∧
      ∀ b, (serve s h f).2 = some b → s.inner h = some b := by
  by_cases hhit : (s.cache.index h).isSome ∧ (s.cache.disk h).isSome ∧ f.opened = true
  · rw [serve, if_pos hhit]
    exact ⟨hs, rfl, fun b hb => hs.disk h b hb⟩
  · rw [serve, if_neg hhit]
    unfold fetchAndCache
    cases f.fetched with
    | false => exact ⟨hs.loseIndex h, rfl, fun b hb => by cases hb⟩
    | true =>
      cases hb : s.inner h with
      | none => exact ⟨hs.loseIndex h, rfl, fun b hb => by cases hb⟩
      | some b =>
        refine ⟨(hs.loseIndex h).fill hb, rfl, fun b' hb' => ?_⟩
        split_ifs at hb'
        dsimp only [Cache.fill] at hb'
        rw [update_self] at hb'
        exact hb'

theorem exec_getBlobStream (h : H) (f : ReadFaults) : (getBlobStream s h f).1 = (serve s h f).1 ∧
      ∀ b, (getBlobStream s h f).2 = .bytes b → (serve s h f).2 = some b := by
  unfold getBlobStream
  rcases serve s h f with ⟨s', _ | b⟩
  · exact ⟨rfl, fun b hb => by cases hb⟩
  · exact ⟨rfl, fun b' hb' => by cases hb'; rfl⟩

theorem exec_getBlobRangeStream (h : H) (start : ℕ) (stop : Option ℕ) (f : ReadFaults) :
    (getBlobRangeStream s h start stop f).1 = (serve s h f).1 ∧
      ∀ b, (getBlobRangeStream s h start stop f).2 = .bytes b →
        ∃ full, (serve s h f).2 = some full ∧ b = slice full start stop := by
  unfold getBlobRangeStream
  rcases serve s h f with ⟨s', _ | full⟩
  · exact ⟨rfl, fun b hb => by cases hb⟩
  · exact ⟨rfl, fun b hb => by cases hb; exact ⟨full, rfl, rfl⟩⟩

theorem Coherent.exec (hs : Coherent s) {op : Op H} (hop : StepOK s op) : Coherent (exec s op).1 := by
  cases op with
  | putBlob h data copy call unlinked =>
    obtain ⟨hdata, hcopy, rfl⟩ := hop
    exact hs.putBlob hdata hcopy
  | putBlobFromBytes h data overwrites call write => exact hs.putBlobFromBytes hop.1 hop.2
  | getBlobStream h f =>
    rw [BlobCache.exec, (exec_getBlobStream h f).1]
    exact (serve_ok hs h f).1
  | getBlobRangeStream h start stop f =>
    rw [BlobCache.exec, (exec_getBlobRangeStream h start stop f).1]
    exact (serve_ok hs h f).1
  | deleteBlob h call unlinked =>
    obtain rfl : unlinked = true := hop
    exact hs.deleteBlob
  | blobExists h call => exact hs
  | blobSize h call => exact hs
  | evict h unlinked => exact hs.invalidate h unlinked
  | loseIndex h => exact hs.loseIndex h
  | restart =>
    refine ⟨hs.disk, fun h n hn => ?_⟩
    obtain ⟨b, hb, hlen⟩ := Option.map_eq_some_iff.mp hn
    exact ⟨b, hs.disk h b hb, hlen⟩

theorem Coherent.run : ∀ {ops : List (Op H)} {s : CachedBlobBackend H}, Coherent s → StepsOK s ops →
    Coherent (run s ops)
  | [], _, hs, _ => hs
  | _ :: _, _, hs, hops => (hs.exec hops.1).run hops.2

end Coherence

/-! ### Deleted hashes -/

section Deleted
variable {s : CachedBlobBackend H} {h : H}

/-- The operations that put `h`. -/
def Op.Puts (h : H) : Op H → Prop
  | .putBlob h' _ _ _ _ => h' = h
  | .putBlobFromBytes h' _ _ _ _ => h' = h
  | _ => False

theorem serve_inner (s : CachedBlobBackend H) (h : H) (f : ReadFaults) : (serve s h f).1.inner = s.inner := by
  by_cases hhit : (s.cache.index h).isSome ∧ (s.cache.disk h).isSome ∧ f.opened = true
  · rw [serve, if_pos hhit]
  · rw [serve, if_neg hhit]
    unfold fetchAndCache
    cases f.fetched with
    | false => rfl
    | true => cases s.inner h <;> rfl

theorem exec_absent {op : Op H} (hop : ¬ op.Puts h) (hs : s.inner h = none) :
    (exec s op).1.inner h = none := by
  cases op with
  | putBlob h' data copy call unlinked | putBlobFromBytes h' data overwrites call write =>
    have hne : h ≠ h' := fun heq => hop heq.symm
    cases call with
    | ok => exact (putNew_ne _ _ _ _ hne).trans hs
    | failed reached =>
      cases reached with
      | true => exact (putNew_ne _ _ _ _ hne).trans hs
      | false => exact hs
  | getBlobStream h' f =>
    rw [exec, (exec_getBlobStream h' f).1, serve_inner]
    exact hs
  | getBlobRangeStream h' start stop f =>
    rw [exec, (exec_getBlobRangeStream h' start stop f).1, serve_inner]
    exact hs
  | deleteBlob h' call unlinked =>
    have hupd : update s.inner h' none h = none := by
      rw [update_apply]
      split_ifs
      · rfl
      · exact hs
    cases call with
    | ok => exact hupd
    | failed reached =>
      cases reached with
      | true => exact hupd
      | false => exact hs
  | blobExists | blobSize | evict | loseIndex | restart => exact hs

theorem run_absent : ∀ {ops : List (Op H)} {s : CachedBlobBackend H}, (∀ op ∈ ops, ¬ op.Puts h) →
    s.inner h = none → (run s ops).inner h = none
  | [], _, _, hs => hs
  | op :: ops, s, hops, hs => by
    have hrest : ∀ x ∈ ops, ¬ x.Puts h := fun x hx => hops x (List.mem_cons_of_mem _ hx)
    have hrun : (run (exec s op).1 ops).inner h = none :=
      run_absent hrest (exec_absent (hops op List.mem_cons_self) hs)
    exact hrun

theorem delete_absent {call : Call} {unlinked : Bool} (hdone : (deleteBlob s h call unlinked).2 = .done) :
    (deleteBlob s h call unlinked).1.inner h = none := by
  cases call with
  | ok => exact update_self _ _ _
  | failed reached => cases hdone

end Deleted

/-- Reads of `h` in the state `s` return bytes, or it is said to exist. -/
def Found (s : CachedBlobBackend H) (h : H) : Prop :=
  (∃ f b, (exec s (.getBlobStream h f)).2 = .bytes b) ∨
    (∃ start stop f b, (exec s (.getBlobRangeStream h start stop f)).2 = .bytes b) ∨
    ∃ call, (exec s (.blobExists h call)).2 = .answer true

theorem Coherent.present {s : CachedBlobBackend H} {h : H} (hs : Coherent s) (hf : Found s h) :
    s.inner h ≠ none := by
  rcases hf with ⟨f, b, hb⟩ | ⟨start, stop, f, b, hb⟩ | ⟨call, hcall⟩
  · rw [(serve_ok hs h f).2.2 b ((exec_getBlobStream h f).2 b hb)]
    exact Option.some_ne_none _
  · obtain ⟨full, hfull, -⟩ := (exec_getBlobRangeStream h start stop f).2 b hb
    rw [(serve_ok hs h f).2.2 full hfull]
    exact Option.some_ne_none _
  · dsimp only [BlobCache.exec] at hcall
    unfold blobExists at hcall
    split_ifs at hcall with hindex
    · obtain ⟨n, hn⟩ := Option.isSome_iff_exists.mp hindex
      obtain ⟨b, hb, -⟩ := hs.index h n hn
      rw [hb]
      exact Option.some_ne_none _
    · cases call with
      | ok =>
        rw [Reply.answer.injEq, Option.isSome_iff_ne_none] at hcall
        exact hcall
      | failed reached => cases hcall

/-- **After every run of operations that meet `StepOK`, a read returns the bytes the inner backend holds, or
the slice of them that was asked for, and a hash that was deleted and not put again is not found.** -/
theorem cached_reads (s : CachedBlobBackend H) (hs : Coherent s) (ops : List (Op H))
    (hops : StepsOK s ops) (h : H) :
    (∀ f b, (exec (run s ops) (.getBlobStream h f)).2 = .bytes b → (run s ops).inner h = some b) ∧
    (∀ start stop f b, (exec (run s ops) (.getBlobRangeStream h start stop f)).2 = .bytes b →
      ∃ full, (run s ops).inner h = some full ∧ b = slice full start stop) ∧
    ∀ before later call unlinked, ops = before ++ .deleteBlob h call unlinked :: later →
      (exec (run s before) (.deleteBlob h call unlinked)).2 = .done → (∀ op ∈ later, ¬ op.Puts h) →
      ¬ Found (run s ops) h := by
  have hrun := hs.run hops
  refine ⟨fun f b hb => ?_, fun start stop f b hb => ?_, ?_⟩
  · exact (serve_ok hrun h f).2.2 b ((exec_getBlobStream h f).2 b hb)
  · obtain ⟨full, hfull, hslice⟩ := (exec_getBlobRangeStream h start stop f).2 b hb
    exact ⟨full, (serve_ok hrun h f).2.2 full hfull, hslice⟩
  · intro before later call unlinked heq hdone hlater hfound
    refine hrun.present hfound ?_
    rw [heq, run, List.foldl_append, List.foldl_cons]
    exact run_absent hlater (delete_absent hdone)

/-- An empty cache before an empty backend. -/
def CachedBlobBackend.empty : CachedBlobBackend H := ⟨fun _ => none, ⟨fun _ => none, fun _ => none⟩⟩

omit [DecidableEq H] in
theorem coherent_empty : Coherent (CachedBlobBackend.empty : CachedBlobBackend H) :=
  ⟨fun _ _ h => (nomatch h), fun _ _ h => (nomatch h)⟩

theorem cached_reads_putDelete :
    let s : CachedBlobBackend ℕ := .empty
    let ops := [.putBlobFromBytes 1 [7, 8] false .ok .whole, .deleteBlob 1 .ok true, .restart]
    StepsOK s ops ∧ (exec (run s (ops.take 1)) (.getBlobStream 1 ⟨true, true, true⟩)).2 = .bytes [7, 8] ∧
      ¬ Found (run s ops) 1 := by
  intro s ops
  have hops : StepsOK s ops := ⟨⟨nofun, .inl rfl⟩, rfl, trivial, trivial⟩
  refine ⟨hops, by decide, (cached_reads s coherent_empty ops hops 1).2.2
    [.putBlobFromBytes 1 [7, 8] false .ok .whole] [.restart] .ok true rfl rfl fun op hop => ?_⟩
  rw [List.mem_singleton] at hop
  subst hop
  exact id

/-- The write of the cache file stops after one byte; the entry is made all the same, and a read serves the
one byte. -/
theorem torn_write_served :
    let s : CachedBlobBackend ℕ := run .empty [.putBlobFromBytes 1 [7, 8] false .ok (.torn 1)]
    s.inner 1 = some [7, 8] ∧ (exec s (.getBlobStream 1 ⟨true, true, true⟩)).2 = .bytes [7] := by
  decide

end OxiCloud.BlobCache
