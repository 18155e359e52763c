import Mathlib

/-! # Authenticated encryption, idealised

An authenticated cipher with a detached tag, and the usual way to store its output in one string: nonce,
ciphertext, tag. The ideal is stated as equations: decryption gives back `p` exactly for what encrypting
`p` gave, and no two keys agree on a ciphertext with its tag. -/

namespace OxiCloud.Lib.Aead

/-- An ideal authenticated cipher over bytes `β`. -/
structure Cipher (K β : Type) (nonceSize tagSize : ℕ) where
  /-- Ciphertext and tag, for a key, a nonce and a plaintext. -/
  encrypt : K → List β → List β → List β × List β
  decrypt : K → List β → List β → List β → Option (List β)
  length_ciphertext : ∀ k n p, (encrypt k n p).1.length = p.length
  length_tag : ∀ k n p, (encrypt k n p).2.length = tagSize
  decrypt_eq_some : ∀ k n c t p, decrypt k n c t = some p ↔ encrypt k n p = (c, t)
  committing : ∀ k k' n p p', encrypt k n p = encrypt k' n p' → k = k'

variable {K β : Type} {nonceSize tagSize : ℕ} (A : Cipher K β nonceSize tagSize)

/-- Nonce, ciphertext and tag in one string. -/
def Cipher.box (k : K) (n p : List β) : List β := n ++ ((A.encrypt k n p).1 ++ (A.encrypt k n p).2)

def Cipher.unbox (k : K) (b : List β) : Option (List β) :=
  A.decrypt k (b.take nonceSize) ((b.take (b.length - tagSize)).drop nonceSize)
    (b.drop (b.length - tagSize))

variable {A} {k k' : K} {n b p : List β}

theorem length_box : (A.box k n p).length = n.length + p.length + tagSize := by
  rw [Cipher.box, List.length_append, List.length_append, A.length_ciphertext, A.length_tag]
  omega

theorem box_parts (hn : n.length = nonceSize) : (A.box k n p).take nonceSize = n ∧
      ((A.box k n p).take ((A.box k n p).length - tagSize)).drop nonceSize = (A.encrypt k n p).1 ∧
      (A.box k n p).drop ((A.box k n p).length - tagSize) = (A.encrypt k n p).2 := by
  subst hn
  have hlen : (A.box k n p).length - tagSize = (n ++ (A.encrypt k n p).1).length := by
    rw [length_box, List.length_append, A.length_ciphertext]
    omega
  rw [hlen]
  refine ⟨?_, ?_, ?_⟩
  · rw [Cipher.box, List.take_left]
  · rw [Cipher.box, ← List.append_assoc, List.take_left, List.drop_left]
  · rw [Cipher.box, ← List.append_assoc, List.drop_left]

theorem unbox_box (hn : n.length = nonceSize) : A.unbox k (A.box k n p) = some p := by
  obtain ⟨h1, h2, h3⟩ := box_parts (A := A) (k := k) (p := p) hn
  rw [Cipher.unbox, h1, h2, h3, A.decrypt_eq_some]

theorem unbox_box_of_ne (hn : n.length = nonceSize) (hk : k ≠ k') : A.unbox k' (A.box k n p) = none := by
  obtain ⟨h1, h2, h3⟩ := box_parts (A := A) (k := k) (p := p) hn
  rw [Cipher.unbox, h1, h2, h3, Option.eq_none_iff_forall_ne_some]
  intro p' hp'
  exact hk (A.committing _ _ _ _ _ ((A.decrypt_eq_some _ _ _ _ _).mp hp').symm)

theorem length_of_unbox (hb : nonceSize + tagSize ≤ b.length) (h : A.unbox k b = some p) :
    b.length = nonceSize + p.length + tagSize := by
  have he := (A.decrypt_eq_some _ _ _ _ _).mp h
  have hc := A.length_ciphertext k (b.take nonceSize) p
  rw [he] at hc
  rw [List.length_drop, List.length_take] at hc
  omega

end OxiCloud.Lib.Aead
