import Mathlib.Data.List.Basic

/-!
# Ideal authenticated encryption

Encryption gives a ciphertext as long as the plaintext and a tag of fixed length. What decrypts is
exactly what was encrypted.
-/

structure Aead (Key : Type*) (tagLength : ℕ) where
  encrypt : Key → List UInt8 → List UInt8 → List UInt8 × List UInt8
  decrypt : Key → List UInt8 → List UInt8 → List UInt8 → Option (List UInt8)
  length_ciphertext : ∀ key nonce plain, (encrypt key nonce plain).1.length = plain.length
  length_tag : ∀ key nonce plain, (encrypt key nonce plain).2.length = tagLength
  decrypt_iff : ∀ key nonce ciphertext tag plain,
    decrypt key nonce ciphertext tag = some plain ↔ encrypt key nonce plain = (ciphertext, tag)

namespace Aead

variable {Key : Type*} {tagLength : ℕ} (A : Aead Key tagLength) {key : Key}
  {nonce plain ciphertext tag : List UInt8}

theorem decrypt_encrypt (key : Key) (nonce plain : List UInt8) :
    A.decrypt key nonce (A.encrypt key nonce plain).1 (A.encrypt key nonce plain).2 = some plain :=
  (A.decrypt_iff _ _ _ _ _).2 rfl

theorem encrypt_of_decrypt (h : A.decrypt key nonce ciphertext tag = some plain) :
    A.encrypt key nonce plain = (ciphertext, tag) :=
  (A.decrypt_iff _ _ _ _ _).1 h

theorem length_of_decrypt (h : A.decrypt key nonce ciphertext tag = some plain) :
    plain.length = ciphertext.length := by
  rw [← A.length_ciphertext key nonce plain, A.encrypt_of_decrypt h]

/-- The AEAD that hides nothing, with a tag of zeros. -/
def transparent (Key : Type*) (tagLength : ℕ) : Aead Key tagLength where
  encrypt _ _ plain := (plain, List.replicate tagLength 0)
  decrypt _ _ ciphertext tag :=
    if tag = List.replicate tagLength 0 then some ciphertext else none
  length_ciphertext _ _ _ := rfl
  length_tag _ _ _ := List.length_replicate
  decrypt_iff _ _ ciphertext tag plain := by
    rw [Option.ite_none_right_eq_some, Option.some_inj, Prod.mk.injEq, and_comm, eq_comm (a := tag),
      eq_comm (a := ciphertext)]

end Aead
