import OxiCloud.Encryption
import OxiCloud.Lib.Paging

/-! # Key rotation

`backend_rotate` works through the blob table in pages, reads every object through the wrapper, and writes
it back in the format of the head pair unless it has that format already. What a read returns is what is
written back, so an object that is misread stays misread.

`Stored` is an object in one of the four formats, with what it holds; `Readable` are those the wrapper reads
as what they hold. `rotate_preserves` says that a rotation keeps exactly these. -/

namespace OxiCloud.BackendRotate

open Schema Encryption Lib.Aead Lib.Paging

variable {K H : Type} [LinearOrder H]

/-! ### The job -/

/-- `BATCH_SIZE`. -/
def batchSize : ℕ := 100

inductive Fault where
  | transient
  | permanent
  deriving DecidableEq

/-- The calls to the inner backend that fail. -/
structure Faults (H : Type) where
  read : H → Option Fault
  write : H → Option Fault

def Faults.quiet : Faults H := ⟨fun _ => none, fun _ => none⟩

structure Tally where
  rewritten : ℕ := 0
  skipped : ℕ := 0
  failed : ℕ := 0
  deriving DecidableEq

structure RotateState (H : Type) where
  objects : Objects H
  tally : Tally

/-- `read_and_classify`. -/
def readAndClassify (C : Crypto K H) (be : EncryptedBlobBackend K) (faults : Faults H)
    (objects : Objects H) (h : H) : Except Fault (Bytes × BlobFormat) :=
  match faults.read h with
  | some fault => .error fault
  | none => match objects h with
    | none => .error .permanent
    | some raw => match readDispatch C be h raw with
      | .error _ => .error .permanent
      | .ok plaintext => .ok (plaintext, BlobFormat.classify raw)

/-- The step for one blob. A transient failure ends the run with the objects as they are. -/
def rotateOne (C : Crypto K H) (be : EncryptedBlobBackend K) (faults : Faults H) (nonce : H → Nonce)
    (s : RotateState H) (h : H) : Except (RotateState H) (RotateState H) :=
  match readAndClassify C be faults s.objects h with
  | .error .transient => .error s
  | .error .permanent => .ok { s with tally.failed := s.tally.failed + 1 }
  | .ok (plaintext, currentFormat) =>
    if currentFormat = be.headFormat then .ok { s with tally.skipped := s.tally.skipped + 1 }
    else match faults.write h with
      | some .transient => .error s
      | some .permanent => .ok { s with tally.failed := s.tally.failed + 1 }
      | none => .ok {
          objects := Function.update s.objects h (some (be.frame C (nonce h) plaintext))
          tally.rewritten := s.tally.rewritten + 1
          tally.skipped := s.tally.skipped
          tally.failed := s.tally.failed }

/-- The loop of `run_resumable`; it ends with the cursor to resume at, or completed. -/
def rotate (C : Crypto K H) (be : EncryptedBlobBackend K) (faults : Faults H) (nonce : H → Nonce)
    (rows : List H) (fuel : ℕ) (cursor : Option H) (s : RotateState H) :
    Option (Except (RotateState H × Option H) (RotateState H)) :=
  walk batchSize (fun s rows => rows.foldlM (rotateOne C be faults nonce) s) rows fuel cursor s

/-! ### Stored objects -/

section Stored
variable {C : Crypto K H}

/-- An object in one of the formats a store can hold. -/
inductive Stored (L : PairList C) where
  | plaintextV1 (p : Bytes)
  | encryptedV1 (k : K) (hk : .aesGcm k ∈ L.pairs) (n : Nonce) (p : Bytes)
  | legacyCiphertext (k : K) (hk : .aesGcm k ∈ L.pairs) (n : Nonce) (p : Bytes)
  | legacyPlaintext (p : Bytes) (hp : ¬ HasMagic p)

variable {L : PairList C}

def Stored.bytes : Stored L → Bytes
  | .plaintextV1 p => header zeroFp ++ p
  | .encryptedV1 k _ n p => header (C.fingerprint k) ++ C.aes.box k n p
  | .legacyCiphertext k _ n p => C.aes.box k n p
  | .legacyPlaintext p _ => p

def Stored.plaintext : Stored L → Bytes
  | .plaintextV1 p => p
  | .encryptedV1 _ _ _ p => p
  | .legacyCiphertext _ _ _ p => p
  | .legacyPlaintext p _ => p

/-- The objects the wrapper reads as what they hold: a legacy ciphertext needs a key at the head, and must
not begin with the magic by chance; a legacy plaintext must not pass for a ciphertext. -/
def Stored.Readable : Stored L → Prop
  | .plaintextV1 _ => True
  | .encryptedV1 _ _ _ _ => True
  | .legacyCiphertext k _ n p => headPair L.pairs ≠ .none ∧ ¬ HasMagic (C.aes.box k n p)
  | .legacyPlaintext p _ =>
    headPair L.pairs = .none ∨ ∀ k, .aesGcm k ∈ L.pairs → ∀ q, decryptAeadInPlace C k p ≠ .ok q

theorem read_legacyCiphertext {hash : H} {k : K} (hk : .aesGcm k ∈ L.pairs) {n : Nonce} {p q : Bytes}
    (hq : L.read hash (C.aes.box k n p) = .ok q) :
    q = p ↔ headPair L.pairs ≠ .none ∧ ¬ HasMagic (C.aes.box k n p) := by
  have hlen : (C.aes.box k n p).length = p.length + aeadOverhead := by
    rw [length_box, n.2, aeadOverhead]
    omega
  by_cases hmagic : HasMagic (C.aes.box k n p)
  · refine iff_of_false ?_ fun h => h.2 hmagic
    rintro rfl
    rw [PairList.read, readDispatch, if_pos hmagic] at hq
    rcases length_of_readV1 hq with h | h
    · rw [hlen] at h
      simp only [aeadOverhead, nonceSize, tagSize, headerSize, keyFpSize] at h
      omega
    · simp only [headerSize, keyFpSize] at h
      omega
  cases hhead : headPair L.pairs with
  | none =>
    refine iff_of_false ?_ fun h => h.1 rfl
    rintro rfl
    rw [read_legacy_none hhead hmagic, Except.ok.injEq] at hq
    rw [hq] at hlen
    simp only [aeadOverhead, nonceSize, tagSize] at hlen
    omega
  | aesGcm head =>
    refine iff_of_true ?_ ⟨by simp, hmagic⟩
    rcases read_legacy_key hhead hmagic hq with ⟨k', -, hd⟩ | ⟨-, hno⟩
    · by_cases hkk : k = k'
      · rw [← hkk, decrypt_box, Except.ok.injEq] at hd
        exact hd.symm
      · rw [decrypt_box_of_ne n hkk] at hd
        cases hd
    · exact absurd (decrypt_box C k n p) (hno k hk p)

theorem read_legacyPlaintext {hash : H} {p q : Bytes} (hp : ¬ HasMagic p) (hq : L.read hash p = .ok q) :
    q = p ↔ headPair L.pairs = .none ∨
      ∀ k, .aesGcm k ∈ L.pairs → ∀ r, decryptAeadInPlace C k p ≠ .ok r := by
  cases hhead : headPair L.pairs with
  | none =>
    rw [read_legacy_none hhead hp, Except.ok.injEq] at hq
    exact iff_of_true hq.symm (.inl rfl)
  | aesGcm head =>
    rcases read_legacy_key hhead hp hq with ⟨k, hk, hd⟩ | ⟨hqp, hno⟩
    · refine iff_of_false ?_ fun h => ?_
      · rintro rfl
        have := length_of_decrypt hd
        simp only [aeadOverhead, nonceSize, tagSize] at this
        omega
      · rcases h with h | h
        · cases h
        · exact h k hk q hd
    · exact iff_of_true hqp (.inr hno)

/-- An object that can be read is read as what it holds iff it is readable. -/
theorem read_stored {hash : H} (s : Stored L) {q : Bytes} (hq : L.read hash s.bytes = .ok q) :
    q = s.plaintext ↔ s.Readable := by
  cases s with
  | plaintextV1 p =>
    rw [Stored.bytes, read_plaintextV1, Except.ok.injEq] at hq
    exact iff_of_true hq.symm trivial
  | encryptedV1 k hk n p =>
    rw [Stored.bytes, read_encryptedV1 hash hk, Except.ok.injEq] at hq
    exact iff_of_true hq.symm trivial
  | legacyCiphertext k hk n p => exact read_legacyCiphertext hk hq
  | legacyPlaintext p hp => exact read_legacyPlaintext hp hq

end Stored

/-! ### Runs -/

section Runs
variable {C : Crypto K H} {L : PairList C} {nonce : H → Nonce}

/-- What a rotation of `rows` promises. -/
structure RotatedOK (L : PairList C) (rows : List H) (s s' : RotateState H) : Prop where
  failed : s'.tally.failed = s.tally.failed
  other : ∀ h, h ∉ rows → s'.objects h = s.objects h
  done : ∀ h ∈ rows, ∀ b, s.objects h = some b → ∃ raw, s'.objects h = some raw ∧
    BlobFormat.classify raw = L.backend.headFormat ∧ L.read h raw = L.read h b

theorem rotateOne_ok {s : RotateState H} {h : H} {b p : Bytes} (hb : s.objects h = some b)
    (hp : L.read h b = .ok p) :
    ∃ s', rotateOne C L.backend .quiet nonce s h = .ok s' ∧ RotatedOK L [h] s s' := by
  have hread : readAndClassify C L.backend .quiet s.objects h = .ok (p, BlobFormat.classify b) := by
    simp [readAndClassify, Faults.quiet, hb, hp]
  simp only [rotateOne, hread]
  split_ifs with hformat
  · refine ⟨_, rfl, rfl, fun _ _ => rfl, fun h' hh' b' hb' => ?_⟩
    obtain rfl := List.mem_singleton.mp hh'
    have hbb : b = b' := Option.mem_unique hb hb'
    exact ⟨b, hb, hformat, by rw [hbb]⟩
  · refine ⟨_, rfl, rfl, fun h' hh' => ?_, fun h' hh' b' hb' => ?_⟩
    · exact Function.update_of_ne (fun heq => hh' (List.mem_singleton.mpr heq)) _ _
    · obtain rfl := List.mem_singleton.mp hh'
      have hbb : b = b' := Option.mem_unique hb hb'
      refine ⟨_, Function.update_self _ _ _, classify_frame _ _, ?_⟩
      rw [read_frame, ← hbb, hp]

theorem RotatedOK.cons {h : H} {hs : List H} {s s₁ s' : RotateState H} (hh : h ∉ hs)
    (h1 : RotatedOK L [h] s s₁) (h2 : RotatedOK L hs s₁ s') : RotatedOK L (h :: hs) s s' := by
  refine ⟨h2.failed.trans h1.failed, fun x hx => ?_, fun x hx b hb => ?_⟩
  · rw [List.mem_cons, not_or] at hx
    rw [h2.other x hx.2, h1.other x (by simpa using hx.1)]
  · rcases List.mem_cons.mp hx with rfl | hx
    · obtain ⟨raw, hraw, hrest⟩ := h1.done x (List.mem_singleton_self x) b hb
      exact ⟨raw, by rw [h2.other x hh, hraw], hrest⟩
    · have hne : x ∉ [h] := by
        rintro hxh
        rw [List.mem_singleton] at hxh
        exact hh (hxh ▸ hx)
      exact h2.done x hx b (by rw [h1.other x hne, hb])

theorem rotateRows_ok : ∀ {rows : List H} {s : RotateState H}, rows.Nodup →
    (∀ h ∈ rows, ∃ b p, s.objects h = some b ∧ L.read h b = .ok p) →
    ∃ s', rows.foldlM (rotateOne C L.backend .quiet nonce) s = .ok s' ∧ RotatedOK L rows s s'
  | [], s, _, _ => ⟨s, rfl, rfl, fun _ _ => rfl, fun _ h => (nomatch h)⟩
  | h :: hs, s, hnodup, hall => by
    rw [List.nodup_cons] at hnodup
    obtain ⟨b, p, hb, hp⟩ := hall h List.mem_cons_self
    obtain ⟨s₁, h1, hok₁⟩ : ∃ s₁, rotateOne C L.backend .quiet nonce s h = .ok s₁ ∧
        RotatedOK L [h] s s₁ := rotateOne_ok hb hp
    have hall₁ : ∀ x ∈ hs, ∃ b p, s₁.objects x = some b ∧ L.read x b = .ok p := by
      intro x hx
      obtain ⟨b', p', hb', hp'⟩ := hall x (List.mem_cons_of_mem _ hx)
      refine ⟨b', p', ?_, hp'⟩
      rw [hok₁.other x (fun hxh => hnodup.1 (List.mem_singleton.mp hxh ▸ hx)), hb']
    obtain ⟨s', h2, hok₂⟩ := rotateRows_ok hnodup.2 hall₁
    refine ⟨s', ?_, hok₁.cons hnodup.1 hok₂⟩
    rw [List.foldlM_cons, h1]
    exact h2

/-- **A rotation whose reads and writes succeed completes, leaves every object in the format of the head
pair, and afterwards an object reads as what it held iff it was readable before.** -/
theorem rotate_preserves (L : PairList C) (nonce : H → Nonce) (rows : Listing H) (stored : H → Stored L)
    (objects : Objects H) (hobj : ∀ h ∈ rows.hashes, objects h = some (stored h).bytes)
    (hread : ∀ h ∈ rows.hashes, ∃ p, L.read h (stored h).bytes = .ok p) :
    ∃ s, rotate C L.backend .quiet nonce rows.hashes (rows.hashes.length + 1) none ⟨objects, {}⟩ =
        some (.ok s) ∧ s.tally.failed = 0 ∧
      ∀ h ∈ rows.hashes, ∃ raw, s.objects h = some raw ∧
        BlobFormat.classify raw = L.backend.headFormat ∧
        (L.read h raw = .ok (stored h).plaintext ↔ (stored h).Readable) := by
  have hall : ∀ h ∈ rows.hashes, ∃ b p, objects h = some b ∧ L.read h b = .ok p := by
    intro h hh
    obtain ⟨p, hp⟩ := hread h hh
    exact ⟨_, p, hobj h hh, hp⟩
  obtain ⟨s, hs, hok⟩ : ∃ s', rows.hashes.foldlM (rotateOne C L.backend .quiet nonce) ⟨objects, {}⟩ =
      .ok s' ∧ RotatedOK L rows.hashes ⟨objects, {}⟩ s' :=
    rotateRows_ok (rows.ordered.imp ne_of_lt) hall
  refine ⟨s, walk_foldlM (by decide) _ rows ?_ ?_, hok.failed, fun h hh => ?_⟩
  · rw [after_none]
    exact Nat.lt_succ_self _
  · rw [after_none]
    exact hs
  · obtain ⟨raw, hraw, hformat, hsame⟩ := hok.done h hh _ (hobj h hh)
    obtain ⟨p, hp⟩ := hread h hh
    refine ⟨raw, hraw, hformat, ?_⟩
    rw [hsame, hp, Except.ok.injEq]
    exact read_stored _ hp

end Runs

def zeroNonce : Nonce := ⟨List.replicate nonceSize 0, rfl⟩

theorem rotate_preserves_onePlaintext :
    ∃ s, rotate tagCrypto onlyKey.backend .quiet (fun _ => zeroNonce) [1] 2 none
        ⟨fun _ => some (header zeroFp ++ [7]), {}⟩ = some (.ok s) ∧ s.tally.failed = 0 ∧
      ∀ h ∈ [1], ∃ raw, s.objects h = some raw ∧
        BlobFormat.classify raw = onlyKey.backend.headFormat ∧
        (onlyKey.read h raw = .ok [7] ↔ True) :=
  rotate_preserves onlyKey (fun _ => zeroNonce) ⟨[1], List.pairwise_singleton _ _⟩
    (fun _ => .plaintextV1 [7]) _ (fun _ _ => rfl) (fun _ _ => ⟨_, read_plaintextV1 _ _⟩)

/-- After a `none` pair was put at the head, a rotation takes a legacy ciphertext for plaintext and writes
it back as such. -/
theorem rotate_keeps_ciphertext :
    let sealed := tagCrypto.aes.box 1 zeroNonce [7]
    onlyKey.read 1 sealed = .ok [7] ∧ .aesGcm 1 ∈ keyThenNone.pairs ∧
      ∃ s, rotate tagCrypto keyThenNone.backend .quiet (fun _ => zeroNonce) [1] 2 none
          ⟨fun _ => some sealed, {}⟩ = some (.ok s) ∧ s.tally.failed = 0 ∧
        s.objects 1 = some (header zeroFp ++ sealed) ∧
        keyThenNone.read 1 (header zeroFp ++ sealed) = .ok sealed ∧ sealed ≠ [7] :=
  ⟨by decide, by decide, _, rfl, rfl, rfl, by decide, by decide⟩

end OxiCloud.BackendRotate
