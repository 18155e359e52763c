import OxiCloud.Lib.Aead
import OxiCloud.Schema

/-! # The encrypted blob format

`EncryptedBlobBackend` frames every object it writes: five magic bytes, a version, the fingerprint of the
key, and then either nonce, ciphertext and tag, or the plaintext itself under a fingerprint of zeros. It
holds a list of key pairs, of which the last, the *head*, is for writing. An object without the magic is
*legacy*: it is tried as nonce, ciphertext and tag under the keys, and taken for plaintext when that fails
and its hash fits; with a `none` pair at the head it is taken for plaintext at once.

The cipher is ideal and nonces are given from outside. `read_back` says that what was written under one list of
pairs reads back under every list that still has the key, and that a header no pair fits is an error. -/

namespace OxiCloud.Encryption

open Schema Lib.Aead

/-! ### The layout -/

/-- `OXCPT_MAGIC`. -/
def oxcptMagic : Bytes := [0x4F, 0x58, 0x43, 0x50, 0x54]

def v1VersionBytes : Bytes := [0x00, 0x01]

def keyFpSize : ℕ := 8

def headerSize : ℕ := 5 + 2 + keyFpSize

def nonceSize : ℕ := 12

def tagSize : ℕ := 16

def aeadOverhead : ℕ := nonceSize + tagSize

def zeroFp : Bytes := List.replicate keyFpSize 0

abbrev Nonce := { n : Bytes // n.length = nonceSize }

/-- AES-256-GCM, the eight bytes kept of the SHA-256 of a key, and the BLAKE3 of an object. -/
structure Crypto (K H : Type) where
  aes : Cipher K UInt8 nonceSize tagSize
  fingerprint : K → Bytes
  length_fingerprint : ∀ k, (fingerprint k).length = keyFpSize
  blake3 : Bytes → H

/-- `KeyPair`: a key, or the `none:` sentinel. -/
inductive KeyPair (K : Type) where
  | aesGcm (key : K)
  | none
  deriving DecidableEq

variable {K H : Type}

def KeyPair.keyFp (C : Crypto K H) : KeyPair K → Bytes
  | .aesGcm k => C.fingerprint k
  | .none => zeroFp

structure EncryptedBlobBackend (K : Type) where
  pairs : List (KeyPair K)
  fpCiphers : Bytes → Option K
  headCipher : Option K
  headKeyFp : Bytes

/-- One insertion into `fp_ciphers`. -/
def insertCipher (C : Crypto K H) (m : Bytes → Option K) : KeyPair K → Bytes → Option K
  | .aesGcm k => Function.update m (C.fingerprint k) (some k)
  | .none => m

def fpCiphersOf (C : Crypto K H) (pairs : List (KeyPair K)) : Bytes → Option K :=
  pairs.foldl (insertCipher C) fun _ => Option.none

/-- The last pair; an empty list counts as a single `none` pair. -/
def headPair (pairs : List (KeyPair K)) : KeyPair K := pairs.getLast?.getD .none

def EncryptedBlobBackend.new (C : Crypto K H) (pairs : List (KeyPair K)) : EncryptedBlobBackend K where
  pairs := if pairs.isEmpty then [.none] else pairs
  fpCiphers := fpCiphersOf C pairs
  headCipher := fpCiphersOf C pairs ((headPair pairs).keyFp C)
  headKeyFp := (headPair pairs).keyFp C

/-! ### Writing -/

def header (keyFp : Bytes) : Bytes := oxcptMagic ++ (v1VersionBytes ++ keyFp)

def encryptV1 (C : Crypto K H) (cipher : K) (headKeyFp : Bytes) (nonce : Nonce) (data : Bytes) : Bytes :=
  header headKeyFp ++ C.aes.box cipher nonce data

def writePlaintextV1 (data : Bytes) : Bytes := header zeroFp ++ data

def frameWrite (C : Crypto K H) (headCipher : Option K) (headKeyFp : Bytes) (nonce : Nonce)
    (plaintext : Bytes) : Bytes :=
  match headCipher with
  | some cipher => encryptV1 C cipher headKeyFp nonce plaintext
  | none => writePlaintextV1 plaintext

/-- What the wrapper hands to the inner backend for `data`. -/
def EncryptedBlobBackend.frame (C : Crypto K H) (be : EncryptedBlobBackend K) (nonce : Nonce)
    (data : Bytes) : Bytes :=
  frameWrite C be.headCipher be.headKeyFp nonce data

/-! ### Reading -/

inductive ReadError where
  | headerTooShort (got : ℕ)
  | unsupportedVersion (version : Bytes)
  | noKeyForBlob (keyFp : Bytes)
  | bodyTooShort
  | decryptFailed
  | legacyUndecryptable
  deriving DecidableEq

def hexDigits (b : UInt8) : List Char := [Nat.digitChar (b.toNat / 16), Nat.digitChar (b.toNat % 16)]

def hexEncode (b : Bytes) : String := String.ofList (b.flatMap hexDigits)

def ReadError.message : ReadError → String
  | .headerTooShort got =>
    "v1 blob too short (need at least 15 bytes for the header, got " ++ toString got ++ ")"
  | .unsupportedVersion version =>
    "unsupported v1 blob version 0x" ++ hexEncode version ++ " — this build only reads 0x0001"
  | .noKeyForBlob keyFp =>
    "v1 blob key_fp " ++ hexEncode keyFp ++ " does not match any configured pair — cannot decrypt"
  | .bodyTooShort => "AEAD body too short (missing nonce/tag)"
  | .decryptFailed => "decrypt failed: aead::Error"
  | .legacyUndecryptable =>
    "legacy blob failed to decrypt under any configured key — wrong key removed from pair-list, " ++
      "or blob is corrupt"

def decryptAeadInPlace (C : Crypto K H) (cipher : K) (encrypted : Bytes) : Except ReadError Bytes :=
  if encrypted.length < aeadOverhead then .error .bodyTooShort
  else match C.aes.unbox cipher encrypted with
    | some plaintext => .ok plaintext
    | none => .error .decryptFailed

def readV1 (C : Crypto K H) (fpCiphers : Bytes → Option K) (encrypted : Bytes) :
    Except ReadError Bytes :=
  if encrypted.length < headerSize then .error (.headerTooShort encrypted.length)
  else
    let version := (encrypted.take 7).drop 5
    if version ≠ v1VersionBytes then .error (.unsupportedVersion version)
    else
      let keyFp := (encrypted.take headerSize).drop 7
      let body := encrypted.drop headerSize
      if keyFp = zeroFp then .ok body
      else match fpCiphers keyFp with
        | none => .error (.noKeyForBlob keyFp)
        | some cipher => decryptAeadInPlace C cipher body

/-- The other keys, oldest first. -/
def legacyFallback (C : Crypto K H) (be : EncryptedBlobBackend K) (encrypted : Bytes) :
    List (KeyPair K) → Option Bytes
  | [] => none
  | .none :: pairs => legacyFallback C be encrypted pairs
  | .aesGcm k :: pairs =>
    if C.fingerprint k = be.headKeyFp then legacyFallback C be encrypted pairs
    else match be.fpCiphers (C.fingerprint k) with
      | none => legacyFallback C be encrypted pairs
      | some cipher => match decryptAeadInPlace C cipher encrypted with
        | .ok pt => some pt
        | .error _ => legacyFallback C be encrypted pairs

def HasMagic (b : Bytes) : Prop := b.take 5 = oxcptMagic

instance (b : Bytes) : Decidable (HasMagic b) := inferInstanceAs (Decidable (_ = _))

def readDispatch [DecidableEq H] (C : Crypto K H) (be : EncryptedBlobBackend K) (expectedHash : H) (encrypted : Bytes) :
    Except ReadError Bytes :=
  if HasMagic encrypted then readV1 C be.fpCiphers encrypted
  else match be.headCipher with
    | some head => match decryptAeadInPlace C head encrypted with
      | .ok pt => .ok pt
      | .error _ => match legacyFallback C be encrypted be.pairs with
        | some pt => .ok pt
        | none =>
          if C.blake3 encrypted = expectedHash then .ok encrypted else .error .legacyUndecryptable
    | none => .ok encrypted

/-! ### Formats -/

inductive BlobFormat where
  | legacy
  | plaintextV1
  | encryptedV1 (keyFp : Bytes)
  deriving DecidableEq

def BlobFormat.classify (b : Bytes) : BlobFormat :=
  if ¬ HasMagic b then .legacy
  else if b.length < headerSize then .legacy
  else
    let keyFp := (b.take headerSize).drop 7
    if keyFp = zeroFp then .plaintextV1 else .encryptedV1 keyFp

def EncryptedBlobBackend.headFormat (be : EncryptedBlobBackend K) : BlobFormat :=
  if be.headCipher.isSome then .encryptedV1 be.headKeyFp else .plaintextV1

inductive HeadCheck where
  | headMatch
  | mismatch (current : BlobFormat)
  | absent
  deriving DecidableEq

/-- `head_check`, on what the inner backend holds. -/
def EncryptedBlobBackend.headCheck (be : EncryptedBlobBackend K) (inner : Option Bytes) : HeadCheck :=
  match inner with
  | none => .absent
  | some b =>
    let raw := b.take headerSize
    if raw.isEmpty then .absent
    else
      let current := BlobFormat.classify raw
      if current = be.headFormat then .headMatch else .mismatch current

/-! ### Headers -/

variable {fp : Bytes}

theorem length_header (hfp : fp.length = keyFpSize) : (header fp).length = headerSize := by
  rw [header, List.length_append, List.length_append, hfp]
  rfl

theorem hasMagic_header (fp body : Bytes) : HasMagic (header fp ++ body) := by
  rfl

theorem header_parts (body : Bytes) (hfp : fp.length = keyFpSize) :
    ((header fp ++ body).take 7).drop 5 = v1VersionBytes ∧
      ((header fp ++ body).take headerSize).drop 7 = fp ∧ (header fp ++ body).drop headerSize = body ∧
      ¬ (header fp ++ body).length < headerSize := by
  have h7 : (oxcptMagic ++ v1VersionBytes).length = 7 := rfl
  refine ⟨?_, ?_, ?_, ?_⟩
  · rfl
  · rw [← length_header hfp, List.take_left, header, ← List.append_assoc, ← h7, List.drop_left]
  · rw [← length_header hfp, List.drop_left]
  · rw [List.length_append, length_header hfp]
    omega

theorem readV1_header (C : Crypto K H) {fpCiphers : Bytes → Option K} {body : Bytes}
    (hfp : fp.length = keyFpSize) : readV1 C fpCiphers (header fp ++ body) =
      if fp = zeroFp then .ok body
      else match fpCiphers fp with
        | none => .error (.noKeyForBlob fp)
        | some cipher => decryptAeadInPlace C cipher body := by
  obtain ⟨h1, h2, h3, hlen⟩ := header_parts body hfp
  simp only [readV1, if_neg hlen, h1, h2, h3, ne_eq, not_true_eq_false, if_false]

theorem classify_header {body : Bytes} (hfp : fp.length = keyFpSize) :
    BlobFormat.classify (header fp ++ body) = if fp = zeroFp then .plaintextV1 else .encryptedV1 fp := by
  obtain ⟨-, h2, -, hlen⟩ := header_parts body hfp
  simp only [BlobFormat.classify, hasMagic_header, not_true_eq_false, if_false, if_neg hlen, h2]

/-! ### Sealed bodies -/

section Sealed
variable {C : Crypto K H} {k k' : K} {b p : Bytes}

theorem not_short_box (n : Nonce) : ¬ (C.aes.box k n p).length < aeadOverhead := by
  rw [length_box, n.2, aeadOverhead]
  omega

theorem decrypt_box (C : Crypto K H) (k : K) (n : Nonce) (p : Bytes) :
    decryptAeadInPlace C k (C.aes.box k n p) = .ok p := by
  rw [decryptAeadInPlace, if_neg (not_short_box n), unbox_box n.2]

theorem decrypt_box_of_ne (n : Nonce) (hk : k ≠ k') :
    decryptAeadInPlace C k' (C.aes.box k n p) = .error .decryptFailed := by
  rw [decryptAeadInPlace, if_neg (not_short_box n), unbox_box_of_ne n.2 hk]

theorem length_of_decrypt (h : decryptAeadInPlace C k b = .ok p) :
    b.length = p.length + aeadOverhead := by
  rw [decryptAeadInPlace] at h
  split_ifs at h with hlen
  rw [aeadOverhead] at hlen ⊢
  cases hu : C.aes.unbox k b with
  | none =>
    rw [hu] at h
    cases h
  | some p' =>
    rw [hu] at h
    cases h
    have := length_of_unbox (not_lt.mp hlen) hu
    omega

end Sealed

/-! ### Lists of key pairs -/

/-- A list of pairs whose keys have distinct fingerprints, none of them all zero. -/
structure PairList (C : Crypto K H) where
  pairs : List (KeyPair K)
  distinct : ∀ k k', .aesGcm k ∈ pairs → .aesGcm k' ∈ pairs → C.fingerprint k = C.fingerprint k' → k = k'
  nonzero : ∀ k, .aesGcm k ∈ pairs → C.fingerprint k ≠ zeroFp

/-- The wrapper over the list. -/
def PairList.backend {C : Crypto K H} (L : PairList C) : EncryptedBlobBackend K := .new C L.pairs

/-- Reading an object through the wrapper. -/
abbrev PairList.read [DecidableEq H] {C : Crypto K H} (L : PairList C) (hash : H) (b : Bytes) : Except ReadError Bytes :=
  readDispatch C L.backend hash b

section Pairs
variable {C : Crypto K H} {L : PairList C}

theorem fpCiphersOf_append (pairs : List (KeyPair K)) (kp : KeyPair K) :
    fpCiphersOf C (pairs ++ [kp]) = insertCipher C (fpCiphersOf C pairs) kp := by
  rw [fpCiphersOf, List.foldl_append]
  rfl

variable {k : K}

theorem fpCiphersOf_some {fp : Bytes} : ∀ {pairs : List (KeyPair K)},
    fpCiphersOf C pairs fp = some k → .aesGcm k ∈ pairs ∧ C.fingerprint k = fp := by
  intro pairs
  induction pairs using List.reverseRecOn with
  | nil => exact fun h => nomatch h
  | append_singleton pairs kp ih =>
    rw [fpCiphersOf_append]
    intro h
    have hrest : fpCiphersOf C pairs fp = some k →
        .aesGcm k ∈ pairs ++ [kp] ∧ C.fingerprint k = fp := fun h =>
      ⟨List.mem_append_left _ (ih h).1, (ih h).2⟩
    cases kp with
    | none => exact hrest h
    | aesGcm k' =>
      rw [insertCipher, Function.update_apply] at h
      split_ifs at h with heq
      · cases h
        exact ⟨by simp, heq.symm⟩
      · exact hrest h

theorem fpCiphersOf_isSome : ∀ {pairs : List (KeyPair K)}, .aesGcm k ∈ pairs →
    ∃ k', fpCiphersOf C pairs (C.fingerprint k) = some k' := by
  intro pairs
  induction pairs using List.reverseRecOn with
  | nil => exact fun h => nomatch h
  | append_singleton pairs kp ih =>
    intro h
    rw [fpCiphersOf_append]
    cases kp with
    | none =>
      rcases List.mem_append.mp h with h | h
      · exact ih h
      · simp at h
    | aesGcm k' =>
      rw [insertCipher, Function.update_apply]
      split_ifs with heq
      · exact ⟨k', rfl⟩
      · rcases List.mem_append.mp h with h | h
        · exact ih h
        · rw [List.mem_singleton, KeyPair.aesGcm.injEq] at h
          exact absurd (h ▸ rfl) heq

theorem fpCiphers_of_mem (hk : .aesGcm k ∈ L.pairs) :
    L.backend.fpCiphers (C.fingerprint k) = some k := by
  obtain ⟨k', hk'⟩ := fpCiphersOf_isSome (C := C) hk
  obtain ⟨hmem, hfp⟩ := fpCiphersOf_some hk'
  rw [← L.distinct k' k hmem hk hfp]
  rw [hfp]
  exact hk'

theorem fpCiphers_zero : L.backend.fpCiphers zeroFp = none := by
  rw [Option.eq_none_iff_forall_ne_some]
  intro k hk
  obtain ⟨hmem, hfp⟩ := fpCiphersOf_some hk
  exact L.nonzero k hmem hfp

theorem headPair_mem {pairs : List (KeyPair K)} (h : headPair pairs = .aesGcm k) :
    .aesGcm k ∈ pairs := by
  unfold headPair at h
  cases hlast : pairs.getLast? with
  | none =>
    rw [hlast] at h
    cases h
  | some kp =>
    rw [hlast, Option.getD_some] at h
    exact h ▸ List.mem_of_getLast? hlast

theorem headCipher_eq : L.backend.headCipher = L.backend.fpCiphers ((headPair L.pairs).keyFp C) ∧
    L.backend.headKeyFp = (headPair L.pairs).keyFp C :=
  ⟨rfl, rfl⟩

theorem headCipher_aesGcm (h : headPair L.pairs = .aesGcm k) :
    L.backend.headCipher = some k ∧ L.backend.headKeyFp = C.fingerprint k := by
  rw [headCipher_eq.1, headCipher_eq.2, h]
  exact ⟨fpCiphers_of_mem (headPair_mem h), rfl⟩

theorem headCipher_none (h : headPair L.pairs = .none) : L.backend.headCipher = none := by
  rw [headCipher_eq.1, h]
  exact fpCiphers_zero

theorem headFormat_eq : L.backend.headFormat = match headPair L.pairs with
    | .aesGcm k => .encryptedV1 (C.fingerprint k)
    | .none => .plaintextV1 := by
  cases h : headPair L.pairs with
  | aesGcm k =>
    obtain ⟨h1, h2⟩ := headCipher_aesGcm h
    rw [EncryptedBlobBackend.headFormat, h1, h2]
    rfl
  | none =>
    rw [EncryptedBlobBackend.headFormat, headCipher_none h]
    rfl

theorem frame_eq (n : Nonce) (p : Bytes) : L.backend.frame C n p = match headPair L.pairs with
    | .aesGcm k => header (C.fingerprint k) ++ C.aes.box k n p
    | .none => header zeroFp ++ p := by
  cases h : headPair L.pairs with
  | aesGcm k =>
    obtain ⟨h1, h2⟩ := headCipher_aesGcm h
    rw [EncryptedBlobBackend.frame, h1, h2]
    rfl
  | none =>
    rw [EncryptedBlobBackend.frame, headCipher_none h]
    rfl

theorem classify_frame (n : Nonce) (p : Bytes) :
    BlobFormat.classify (L.backend.frame C n p) = L.backend.headFormat := by
  rw [frame_eq, headFormat_eq]
  cases h : headPair L.pairs with
  | aesGcm k =>
    rw [classify_header (C.length_fingerprint k), if_neg (L.nonzero k (headPair_mem h))]
  | none =>
    dsimp only
    rw [classify_header rfl, if_pos rfl]

variable {b q : Bytes}

theorem legacyFallback_some : ∀ {pairs : List (KeyPair K)},
    legacyFallback C L.backend b pairs = some q →
      ∃ k, .aesGcm k ∈ L.pairs ∧ decryptAeadInPlace C k b = .ok q
  | [], h => by cases h
  | .none :: pairs, h => by
    rw [legacyFallback] at h
    exact legacyFallback_some h
  | .aesGcm k :: pairs, h => by
    rw [legacyFallback] at h
    split_ifs at h with hfp
    · exact legacyFallback_some h
    cases hc : L.backend.fpCiphers (C.fingerprint k) with
    | none =>
      rw [hc] at h
      exact legacyFallback_some h
    | some cipher =>
      rw [hc] at h
      dsimp only at h
      cases hd : decryptAeadInPlace C cipher b with
      | ok pt =>
        rw [hd] at h
        cases h
        exact ⟨cipher, (fpCiphersOf_some hc).1, hd⟩
      | error e =>
        rw [hd] at h
        exact legacyFallback_some h

theorem legacyFallback_none : ∀ {pairs : List (KeyPair K)}, (∀ kp ∈ pairs, kp ∈ L.pairs) →
    legacyFallback C L.backend b pairs = none → ∀ k, .aesGcm k ∈ pairs →
      C.fingerprint k ≠ L.backend.headKeyFp → ∀ q, decryptAeadInPlace C k b ≠ .ok q
  | [], _, _, k, hk => by cases hk
  | .none :: pairs, hsub, h, k, hk =>
    legacyFallback_none (fun kp hkp => hsub kp (List.mem_cons_of_mem _ hkp)) h k (by simpa using hk)
  | .aesGcm k' :: pairs, hsub, h, k, hk => by
    intro hfp q hq
    have hrest : ∀ kp ∈ pairs, kp ∈ L.pairs := fun kp hkp => hsub kp (List.mem_cons_of_mem _ hkp)
    have ih := legacyFallback_none hrest
    rw [legacyFallback, fpCiphers_of_mem (hsub _ List.mem_cons_self)] at h
    dsimp only at h
    split_ifs at h with hfp'
    · rcases List.mem_cons.mp hk with hk | hk
      · rw [KeyPair.aesGcm.injEq] at hk
        exact hfp (hk ▸ hfp')
      · exact ih h k hk hfp q hq
    · cases hd : decryptAeadInPlace C k' b with
      | ok pt =>
        rw [hd] at h
        cases h
      | error e =>
        rw [hd] at h
        rcases List.mem_cons.mp hk with hk | hk
        · rw [KeyPair.aesGcm.injEq] at hk
          rw [hk, hd] at hq
          cases hq
        · exact ih h k hk hfp q hq

theorem length_of_readV1 {fpCiphers : Bytes → Option K} (h : readV1 C fpCiphers b = .ok q) :
    b.length = headerSize + q.length ∨ b.length = headerSize + (q.length + aeadOverhead) := by
  rw [readV1] at h
  split_ifs at h with hlen
  dsimp only at h
  split_ifs at h with hver hzero
  · cases h
    left
    rw [List.length_drop]
    omega
  · right
    cases hc : fpCiphers ((b.take headerSize).drop 7) with
    | none =>
      rw [hc] at h
      cases h
    | some cipher =>
      rw [hc] at h
      have := length_of_decrypt h
      rw [List.length_drop] at this
      omega

/-! ### What reads back -/

variable [DecidableEq H]

theorem read_encryptedV1 (hash : H) (hk : .aesGcm k ∈ L.pairs) (n : Nonce) (p : Bytes) :
    L.read hash (header (C.fingerprint k) ++ C.aes.box k n p) = .ok p := by
  rw [PairList.read, readDispatch, if_pos (hasMagic_header _ _), readV1_header C (C.length_fingerprint k),
    if_neg (L.nonzero k hk), fpCiphers_of_mem hk]
  exact decrypt_box C k n p

theorem read_plaintextV1 (hash : H) (p : Bytes) : L.read hash (header zeroFp ++ p) = .ok p := by
  rw [PairList.read, readDispatch, if_pos (hasMagic_header _ _), readV1_header C rfl, if_pos rfl]

theorem read_frame (hash : H) (n : Nonce) (p : Bytes) :
    L.read hash (L.backend.frame C n p) = .ok p := by
  rw [frame_eq]
  cases h : headPair L.pairs with
  | aesGcm k => exact read_encryptedV1 hash (headPair_mem h) n p
  | none => exact read_plaintextV1 hash p

/-! ### Legacy objects -/

section Legacy
variable {hash : H}

theorem read_legacy_none (hhead : headPair L.pairs = .none) (hb : ¬ HasMagic b) : L.read hash b = .ok b := by
  rw [PairList.read, readDispatch, if_neg hb, headCipher_none hhead]

/-- With a key at the head, a legacy object is what some listed key makes of it, or itself if none does. -/
theorem read_legacy_key {head : K} (hhead : headPair L.pairs = .aesGcm head) (hb : ¬ HasMagic b)
    (h : L.read hash b = .ok q) : (∃ k, .aesGcm k ∈ L.pairs ∧ decryptAeadInPlace C k b = .ok q) ∨
      q = b ∧ ∀ k, .aesGcm k ∈ L.pairs → ∀ p, decryptAeadInPlace C k b ≠ .ok p := by
  obtain ⟨hcipher, hfp⟩ := headCipher_aesGcm hhead
  rw [PairList.read, readDispatch, if_neg hb, hcipher] at h
  dsimp only at h
  cases hd : decryptAeadInPlace C head b with
  | ok pt =>
    rw [hd] at h
    cases h
    exact .inl ⟨head, headPair_mem hhead, hd⟩
  | error e =>
    rw [hd] at h
    cases hf : legacyFallback C L.backend b L.backend.pairs with
    | some pt =>
      rw [hf] at h
      cases h
      exact .inl (legacyFallback_some hf)
    | none =>
      have hpairs : L.backend.pairs = L.pairs := by
        have hne : L.pairs ≠ [] := List.ne_nil_of_mem (headPair_mem hhead)
        rw [PairList.backend, EncryptedBlobBackend.new]
        simp [hne]
      rw [hf] at h
      split_ifs at h
      cases h
      refine .inr ⟨rfl, fun k hk p hp => ?_⟩
      rw [hpairs] at hf
      by_cases hk' : k = head
      · rw [hk', hd] at hp
        cases hp
      · have hne : C.fingerprint k ≠ L.backend.headKeyFp := by
          rw [hfp]
          exact fun heq => hk' (L.distinct _ _ hk (headPair_mem hhead) heq)
        exact legacyFallback_none (fun _ h => h) hf k hk hne p hp

end Legacy

end Pairs

/-- The header does not fit: it is too short, of another version, or names a key that is not listed. -/
def Malformed {C : Crypto K H} (L : PairList C) (b : Bytes) : Prop :=
  b.length < headerSize ∨ (b.take 7).drop 5 ≠ v1VersionBytes ∨
    ((b.take headerSize).drop 7 ≠ zeroFp ∧
      ∀ k, .aesGcm k ∈ L.pairs → C.fingerprint k ≠ (b.take headerSize).drop 7)

theorem read_malformed [DecidableEq H] {C : Crypto K H} {L : PairList C} (hash : H) {b : Bytes} (hmagic : HasMagic b)
    (hb : Malformed L b) : ∃ e, L.read hash b = .error e := by
  rw [PairList.read, readDispatch, if_pos hmagic, readV1]
  split_ifs with hlen
  · exact ⟨_, rfl⟩
  · dsimp only
    split_ifs with hver hzero
    · exact ⟨_, rfl⟩
    · rcases hb with hb | hb | hb
      · exact absurd hb hlen
      · exact absurd hb hver
      · exact absurd hzero hb.1
    · have hnone : L.backend.fpCiphers ((b.take headerSize).drop 7) = none := by
        rw [Option.eq_none_iff_forall_ne_some]
        intro k hk
        obtain ⟨hmem, hfp⟩ := fpCiphersOf_some hk
        rcases hb with hb | hb | hb
        · exact hlen hb
        · exact hver hb
        · exact hb.2 k hmem hfp
      rw [hnone]
      exact ⟨_, rfl⟩

/-- A cipher for runs on fixed inputs: the tag is the key. -/
def tagCipher : Cipher UInt8 UInt8 nonceSize tagSize where
  encrypt k _ p := (p, List.replicate tagSize k)
  decrypt k _ c t := if t = List.replicate tagSize k then some c else none
  length_ciphertext _ _ _ := rfl
  length_tag _ _ _ := List.length_replicate
  decrypt_eq_some k n c t p := by
    rw [Prod.mk.injEq]
    split_ifs with h
    · rw [Option.some.injEq]
      exact ⟨fun hc => ⟨hc.symm, h.symm⟩, fun hp => hp.1.symm⟩
    · exact ⟨fun hc => (nomatch hc), fun hp => absurd hp.2.symm h⟩
  committing k k' n p p' h := by
    rw [Prod.mk.injEq] at h
    exact List.replicate_right_inj (by decide) |>.mp h.2

def tagCrypto : Crypto UInt8 ℕ where
  aes := tagCipher
  fingerprint k := List.replicate keyFpSize k
  length_fingerprint _ := List.length_replicate
  blake3 := List.length

def onlyKey : PairList tagCrypto where
  pairs := [.aesGcm 1]
  distinct k k' hk hk' _ := by simp_all
  nonzero k hk := by
    rw [List.mem_singleton, KeyPair.aesGcm.injEq] at hk
    subst hk
    decide

def keyThenNone : PairList tagCrypto where
  pairs := [.aesGcm 1, .none]
  distinct k k' hk hk' _ := by simp_all
  nonzero k hk := by
    have hk : k = 1 := by simpa using hk
    subst hk
    decide

/-- **What was written under one list of pairs reads back under every list that still has the key, and an
object with the magic whose header does not fit is an error.** -/
theorem read_back [DecidableEq H] {C : Crypto K H} (written listed : PairList C)
    (hkey : ∀ k, headPair written.pairs = .aesGcm k → .aesGcm k ∈ listed.pairs) (hash : H) :
    (∀ (nonce : Nonce) (payload : Bytes),
      listed.read hash (written.backend.frame C nonce payload) = .ok payload) ∧
    ∀ b, HasMagic b → Malformed listed b → ∃ e, listed.read hash b = .error e := by
  refine ⟨fun n p => ?_, fun b hmagic hb => read_malformed hash hmagic hb⟩
  rw [frame_eq]
  cases h : headPair written.pairs with
  | aesGcm k => exact read_encryptedV1 hash (hkey k h) n p
  | none => exact read_plaintextV1 hash p

theorem read_back_afterNone :
    keyThenNone.read 1 (onlyKey.backend.frame tagCrypto ⟨List.replicate nonceSize 0, rfl⟩ [7]) = .ok [7] ∧
      ∃ e, keyThenNone.read 1 oxcptMagic = .error e :=
  have h := read_back onlyKey keyThenNone (fun k hk => by cases hk; decide) 1
  ⟨h.1 _ _, h.2 oxcptMagic rfl (.inl (by decide))⟩

/-- Three bytes without the magic are a payload where the head is a `none` pair, and a header with a
fingerprint of zeros is one where no `none` pair is listed. -/
theorem unlisted_reads :
    keyThenNone.read 3 [1, 2, 3] = .ok [1, 2, 3] ∧
      onlyKey.read 1 (header zeroFp ++ [9]) = .ok [9] := by
  decide

end OxiCloud.Encryption
