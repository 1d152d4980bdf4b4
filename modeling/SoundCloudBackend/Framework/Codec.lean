import Mathlib.Algebra.Ring.Nat

/-!
# Numbers and bytes as text

Two codings that formats are made of, each with both halves of its round trip.

* `beBytes`, `ofBeBytes`: a number as big-endian bytes (`ofBeBytes_beBytes`);
* `Alphabet.encode`, `Alphabet.decode`: base64 without padding over any alphabet. Every
  list of bytes has one text (`decode_encode`), and only that text is read as it
  (`encode_of_decode`), since the bits that fill up the last symbol must be zero.
-/

namespace SC

open List

variable {n : Nat} {bytes : List UInt8}

/-! ## Big-endian numbers -/

/-- The last `n` bytes of a number, the greatest first. -/
def beBytes : (n : Nat) → Nat → List UInt8
  | 0, _ => []
  | n + 1, value => beBytes n (value / 256) ++ [UInt8.ofNat value]

def ofBeBytes (bytes : List UInt8) : Nat := bytes.foldl (fun value byte => value * 256 + byte.toNat) 0

@[simp] theorem length_beBytes (n value : Nat) : (beBytes n value).length = n := by
  induction n generalizing value with
  | zero => rfl
  | succ n ih => rw [beBytes, length_append, ih, length_singleton]

theorem ofBeBytes_beBytes {value : Nat} (h : value < 256 ^ n) : ofBeBytes (beBytes n value) = value := by
  induction n generalizing value with
  | zero =>
    obtain rfl : value = 0 := by simpa using h
    rfl
  | succ n ih =>
    have hdiv : value / 256 < 256 ^ n := by
      rw [Nat.pow_succ] at h
      exact Nat.div_lt_of_lt_mul (Nat.mul_comm _ _ ▸ h)
    have hbyte : (UInt8.ofNat value).toNat = value % 256 := rfl
    have hrest := ih hdiv
    unfold ofBeBytes at hrest ⊢
    rw [beBytes, foldl_append, hrest, foldl_cons, foldl_nil, hbyte]
    omega

/-! ## Base64 -/

/-- The 64 symbols of a base64 text. -/
structure Alphabet (σ : Type*) where
  symbol : Nat → σ
  value : σ → Option Nat
  value_symbol : ∀ {n}, n < 64 → value (symbol n) = some n
  lt_of_value : ∀ {c n}, value c = some n → n < 64
  symbol_value : ∀ {c n}, value c = some n → symbol n = c

namespace Alphabet

variable {σ : Type*} (A : Alphabet σ)

/-- Three bytes are four symbols; one or two bytes at the end are two or three. -/
def encode : List UInt8 → List σ
  | [] => []
  | [a] => [A.symbol (a.toNat / 4), A.symbol (a.toNat % 4 * 16)]
  | [a, b] => [A.symbol (a.toNat / 4), A.symbol (a.toNat % 4 * 16 + b.toNat / 16), A.symbol (b.toNat % 16 * 4)]
  | a :: b :: c :: rest =>
    A.symbol (a.toNat / 4) :: A.symbol (a.toNat % 4 * 16 + b.toNat / 16) ::
      A.symbol (b.toNat % 16 * 4 + c.toNat / 64) :: A.symbol (c.toNat % 64) :: encode rest

/-- The bits of the last symbol that belong to no byte must be zero. -/
def decode : List σ → Option (List UInt8)
  | [] => some []
  | [_] => none
  | [s, t] => do
    let w ← A.value s
    let x ← A.value t
    if x % 16 ≠ 0 then none
    else some [UInt8.ofNat (w * 4 + x / 16)]
  | [s, t, u] => do
    let w ← A.value s
    let x ← A.value t
    let y ← A.value u
    if y % 4 ≠ 0 then none
    else some [UInt8.ofNat (w * 4 + x / 16), UInt8.ofNat (x % 16 * 16 + y / 4)]
  | s :: t :: u :: v :: rest => do
    let w ← A.value s
    let x ← A.value t
    let y ← A.value u
    let z ← A.value v
    let bytes ← decode rest
    some (UInt8.ofNat (w * 4 + x / 16) :: UInt8.ofNat (x % 16 * 16 + y / 4) :: UInt8.ofNat (y % 4 * 64 + z) :: bytes)

theorem length_encode (bytes : List UInt8) : (A.encode bytes).length = (4 * bytes.length + 2) / 3 := by
  induction bytes using encode.induct with
  | case1 => rfl
  | case2 | case3 => simp [encode]
  | case4 a b c rest ih =>
    simp only [encode, length_cons, ih]
    omega

/-- A text holds symbols of the alphabet only. -/
theorem exists_of_mem_encode {c : σ} (h : c ∈ A.encode bytes) : ∃ n < 64, c = A.symbol n := by
  have hbyte : ∀ a : UInt8, a.toNat < 256 := fun a => a.toNat_lt
  induction bytes using encode.induct with
  | case1 => cases h
  | case2 a =>
    have := hbyte a
    simp only [encode, mem_cons, not_mem_nil, or_false] at h
    rcases h with rfl | rfl <;> exact ⟨_, by omega, rfl⟩
  | case3 a b =>
    have := hbyte a
    have := hbyte b
    simp only [encode, mem_cons, not_mem_nil, or_false] at h
    rcases h with rfl | rfl | rfl <;> exact ⟨_, by omega, rfl⟩
  | case4 a b c rest ih =>
    have := hbyte a
    have := hbyte b
    have := hbyte c
    simp only [encode, mem_cons] at h
    rcases h with rfl | rfl | rfl | rfl | h
    · exact ⟨_, by omega, rfl⟩
    · exact ⟨_, by omega, rfl⟩
    · exact ⟨_, by omega, rfl⟩
    · exact ⟨_, by omega, rfl⟩
    · exact ih h

theorem ofNat_eq_of_eq_toNat {a : UInt8} (h : n = a.toNat) : UInt8.ofNat n = a := by
  rw [h, UInt8.ofNat_toNat]

theorem decode_encode (bytes : List UInt8) : A.decode (A.encode bytes) = some bytes := by
  have hbyte : ∀ a : UInt8, a.toNat < 256 := fun a => a.toNat_lt
  induction bytes using encode.induct with
  | case1 => rfl
  | case2 a =>
    have := hbyte a
    simp only [encode, decode, bind, Option.bind]
    rw [A.value_symbol (by omega), A.value_symbol (by omega)]
    simp only
    rw [if_neg (by omega), ofNat_eq_of_eq_toNat (a := a) (by omega)]
  | case3 a b =>
    have := hbyte a
    have := hbyte b
    simp only [encode, decode, bind, Option.bind]
    rw [A.value_symbol (by omega), A.value_symbol (by omega), A.value_symbol (by omega)]
    simp only
    rw [if_neg (by omega), ofNat_eq_of_eq_toNat (a := a) (by omega), ofNat_eq_of_eq_toNat (a := b) (by omega)]
  | case4 a b c rest ih =>
    have := hbyte a
    have := hbyte b
    have := hbyte c
    simp only [encode, decode, bind, Option.bind, ih]
    rw [A.value_symbol (by omega), A.value_symbol (by omega), A.value_symbol (by omega), A.value_symbol (by omega)]
    simp only
    rw [ofNat_eq_of_eq_toNat (a := a) (by omega), ofNat_eq_of_eq_toNat (a := b) (by omega),
      ofNat_eq_of_eq_toNat (a := c) (by omega)]

theorem toNat_ofNat_of_lt (h : n < 256) : (UInt8.ofNat n).toNat = n :=
  Nat.mod_eq_of_lt h

theorem encode_of_decode {text : List σ} (h : A.decode text = some bytes) :
    A.encode bytes = text := by
  induction text using decode.induct generalizing bytes with
  | case1 =>
    cases h
    rfl
  | case2 => cases h
  | case3 s t =>
    simp only [decode, bind, Option.bind_eq_some_iff] at h
    obtain ⟨w, hw, x, hx, h⟩ := h
    have := A.lt_of_value hw
    have := A.lt_of_value hx
    split_ifs at h
    cases h
    simp only [encode]
    rw [toNat_ofNat_of_lt (by omega), ← A.symbol_value hw, ← A.symbol_value hx]
    rw [show (w * 4 + x / 16) / 4 = w by omega, show (w * 4 + x / 16) % 4 * 16 = x by omega]
  | case4 s t u =>
    simp only [decode, bind, Option.bind_eq_some_iff] at h
    obtain ⟨w, hw, x, hx, y, hy, h⟩ := h
    have := A.lt_of_value hw
    have := A.lt_of_value hx
    have := A.lt_of_value hy
    split_ifs at h
    cases h
    simp only [encode]
    rw [toNat_ofNat_of_lt (by omega), toNat_ofNat_of_lt (by omega), ← A.symbol_value hw, ← A.symbol_value hx,
      ← A.symbol_value hy]
    rw [show (w * 4 + x / 16) / 4 = w by omega,
      show (w * 4 + x / 16) % 4 * 16 + (x % 16 * 16 + y / 4) / 16 = x by omega,
      show (x % 16 * 16 + y / 4) % 16 * 4 = y by omega]
  | case5 s t u v rest ih =>
    simp only [decode, bind, Option.bind_eq_some_iff] at h
    obtain ⟨w, hw, x, hx, y, hy, z, hz, tail, htail, h⟩ := h
    have := A.lt_of_value hw
    have := A.lt_of_value hx
    have := A.lt_of_value hy
    have := A.lt_of_value hz
    cases h
    simp only [encode]
    rw [toNat_ofNat_of_lt (by omega), toNat_ofNat_of_lt (by omega), toNat_ofNat_of_lt (by omega), ih htail,
      ← A.symbol_value hw, ← A.symbol_value hx, ← A.symbol_value hy, ← A.symbol_value hz]
    rw [show (w * 4 + x / 16) / 4 = w by omega,
      show (w * 4 + x / 16) % 4 * 16 + (x % 16 * 16 + y / 4) / 16 = x by omega,
      show (x % 16 * 16 + y / 4) % 16 * 4 + (y % 4 * 64 + z) / 64 = y by omega,
      show (y % 4 * 64 + z) % 64 = z by omega]

end Alphabet

end SC
