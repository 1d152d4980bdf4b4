import Mathlib.Data.List.Basic

/-!
# Ideal authenticated encryption

Encryption is a ledger: it notes the key, the nonce, the associated data, the plaintext
and the ciphertext, which is `tag` bytes longer than the plaintext and otherwise any bytes
that, with this nonce, do not already stand for something else. Decryption looks the
others up and gives back the plaintext (`decrypt_eq_some`); what was sealed opens with its
own key and associated data and with no others (`decrypt_of_mem`).
-/

namespace SC

open List

/-- One sealing. -/
structure Sealed (κ ν : Type*) where
  key : κ
  nonce : ν
  aad : List UInt8
  plain : List UInt8
  cipher : List UInt8
  deriving DecidableEq

/-- What has been sealed so far. -/
structure Vault (κ ν : Type*) (tag : Nat) where
  entries : List (Sealed κ ν)
  tagged : ∀ e ∈ entries, e.cipher.length = e.plain.length + tag
  single : ∀ e ∈ entries, ∀ e' ∈ entries, e.nonce = e'.nonce → e.cipher = e'.cipher → e = e'

namespace Vault

variable {κ ν : Type*} {tag : Nat}

def empty : Vault κ ν tag := ⟨[], nofun, nofun⟩

/-- The ciphertext is one that this sealing can have. -/
def Accepts (v : Vault κ ν tag) (e : Sealed κ ν) : Prop :=
  e.cipher.length = e.plain.length + tag ∧ ∀ e' ∈ v.entries, e'.nonce = e.nonce → e'.cipher = e.cipher → e' = e

theorem Accepts.tagged {v : Vault κ ν tag} {e : Sealed κ ν} (h : v.Accepts e) :
    ∀ e' ∈ e :: v.entries, e'.cipher.length = e'.plain.length + tag := by
  intro e' he'
  rcases mem_cons.1 he' with rfl | he'
  · exact h.1
  · exact v.tagged e' he'

theorem Accepts.single {v : Vault κ ν tag} {e : Sealed κ ν} (h : v.Accepts e) :
    ∀ e₁ ∈ e :: v.entries, ∀ e₂ ∈ e :: v.entries, e₁.nonce = e₂.nonce → e₁.cipher = e₂.cipher → e₁ = e₂ := by
  intro e₁ he₁ e₂ he₂ hnonce hcipher
  rcases mem_cons.1 he₁ with heq | he₁
  · rw [heq] at hnonce hcipher ⊢
    rcases mem_cons.1 he₂ with heq | he₂
    · exact heq.symm
    · exact (h.2 e₂ he₂ hnonce.symm hcipher.symm).symm
  · rcases mem_cons.1 he₂ with heq | he₂
    · exact heq ▸ h.2 e₁ he₁ (heq ▸ hnonce) (heq ▸ hcipher)
    · exact v.single e₁ he₁ e₂ he₂ hnonce hcipher

variable [DecidableEq κ] [DecidableEq ν]

instance (v : Vault κ ν tag) (e : Sealed κ ν) : Decidable (v.Accepts e) :=
  inferInstanceAs (Decidable (_ ∧ _))

def encrypt (v : Vault κ ν tag) (e : Sealed κ ν) : Option (Vault κ ν tag) :=
  if h : v.Accepts e then some ⟨e :: v.entries, h.tagged, h.single⟩ else none

def decrypt (v : Vault κ ν tag) (key : κ) (nonce : ν) (aad cipher : List UInt8) : Option (List UInt8) :=
  (v.entries.find? fun e => e.key = key ∧ e.nonce = nonce ∧ e.aad = aad ∧ e.cipher = cipher).map Sealed.plain

theorem encrypt_eq_some {v v' : Vault κ ν tag} {e : Sealed κ ν} (h : v.encrypt e = some v') :
    v'.entries = e :: v.entries ∧ e.cipher.length = e.plain.length + tag := by
  unfold encrypt at h
  split_ifs at h with haccepts
  cases h
  exact ⟨rfl, haccepts.1⟩

theorem decrypt_eq_some {v : Vault κ ν tag} {key : κ} {nonce : ν} {aad cipher plain : List UInt8} :
    v.decrypt key nonce aad cipher = some plain ↔ ⟨key, nonce, aad, plain, cipher⟩ ∈ v.entries := by
  constructor
  · intro h
    obtain ⟨e, he, rfl⟩ := Option.map_eq_some_iff.1 h
    have hmatch := List.find?_some he
    rw [decide_eq_true_eq] at hmatch
    obtain ⟨rfl, rfl, rfl, rfl⟩ := hmatch
    exact mem_of_find?_eq_some he
  · intro h
    have hsome : (v.entries.find? fun e =>
        e.key = key ∧ e.nonce = nonce ∧ e.aad = aad ∧ e.cipher = cipher).isSome := by
      rw [List.find?_isSome]
      exact ⟨_, h, by simp⟩
    obtain ⟨e, he⟩ := Option.isSome_iff_exists.1 hsome
    have hmatch := List.find?_some he
    rw [decide_eq_true_eq] at hmatch
    rw [decrypt, he, Option.map_some, v.single e (mem_of_find?_eq_some he) _ h hmatch.2.1 hmatch.2.2.2]

theorem decrypt_of_mem {v : Vault κ ν tag} {e : Sealed κ ν} (he : e ∈ v.entries) (key : κ) (aad : List UInt8) :
    v.decrypt key e.nonce aad e.cipher = if key = e.key ∧ aad = e.aad then some e.plain else none := by
  split
  · rename_i h
    obtain ⟨rfl, rfl⟩ := h
    exact decrypt_eq_some.2 he
  · rename_i h
    cases hplain : v.decrypt key e.nonce aad e.cipher with
    | none => rfl
    | some plain =>
      have heq := v.single _ (decrypt_eq_some.1 hplain) e he rfl rfl
      exact absurd ⟨congrArg Sealed.key heq, congrArg Sealed.aad heq⟩ h

end Vault

end SC
