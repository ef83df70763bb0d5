import Mathlib.Data.Int.Init
import Mathlib.Algebra.Order.Group.Nat

/-!
# Little-endian byte encodings

A natural number as `n` bytes, least significant first, and an integer in
two's complement on top of it, as Rust's `to_le_bytes` and `from_le_bytes` of
the unsigned and signed integer types.  Reading back what was written gives
the number modulo `256 ^ n`, and the integer itself when it lies in the signed
range of `n` bytes.
-/

namespace LittleEndian

/-- The `n` low bytes of `v`, least significant first. -/
def encode : ℕ → ℕ → List UInt8
  | 0, _ => []
  | n + 1, v => UInt8.ofNat (v % 256) :: encode n (v / 256)

/-- The number a list of bytes stands for, least significant first. -/
def decode : List UInt8 → ℕ
  | [] => 0
  | b :: bs => b.toNat + 256 * decode bs

@[simp] theorem length_encode (n v : ℕ) : (encode n v).length = n := by
  induction n generalizing v with
  | zero => rfl
  | succ n ih => simp [encode, ih]

theorem decode_encode (n v : ℕ) : decode (encode n v) = v % 256 ^ n := by
  induction n generalizing v with
  | zero => simp [encode, decode, Nat.mod_one]
  | succ n ih =>
      have hbyte : (UInt8.ofNat (v % 256)).toNat = v % 256 := by
        rw [UInt8.toNat_ofNat', Nat.mod_mod_of_dvd _ (by decide)]
      rw [encode, decode, ih, hbyte, pow_succ, mul_comm (256 ^ n) 256, Nat.mod_mul]

theorem decode_lt (bs : List UInt8) : decode bs < 256 ^ bs.length := by
  induction bs with
  | nil => simp [decode]
  | cons b bs ih =>
      have hb := b.toNat_lt
      rw [decode, List.length_cons, pow_succ]
      omega

theorem encode_decode (bs : List UInt8) : encode bs.length (decode bs) = bs := by
  induction bs with
  | nil => rfl
  | cons b bs ih =>
      have hb := b.toNat_lt
      have hmod : (b.toNat + 256 * decode bs) % 256 = b.toNat := by omega
      have hdiv : (b.toNat + 256 * decode bs) / 256 = decode bs := by omega
      rw [List.length_cons, encode, decode, hmod, hdiv, ih, UInt8.ofNat_toNat]

/-- Two's complement in `n` bytes. -/
def encodeSigned (n : ℕ) (v : ℤ) : List UInt8 := encode n (v % (256 ^ n : ℕ)).toNat

/-- The integer a list of bytes stands for in two's complement. -/
def decodeSigned (bs : List UInt8) : ℤ :=
  if decode bs < 256 ^ bs.length / 2 then decode bs else (decode bs : ℤ) - (256 ^ bs.length : ℕ)

@[simp] theorem length_encodeSigned (n : ℕ) (v : ℤ) : (encodeSigned n v).length = n :=
  length_encode n _

theorem decodeSigned_encodeSigned (n : ℕ) (v : ℤ) (hlo : -((256 ^ n / 2 : ℕ) : ℤ) ≤ v)
    (hhi : v < ((256 ^ n / 2 : ℕ) : ℤ)) : decodeSigned (encodeSigned n v) = v := by
  have hpos : 0 < 256 ^ n := Nat.pow_pos (by decide)
  unfold decodeSigned encodeSigned
  rw [length_encode, decode_encode]
  generalize 256 ^ n = M at *
  rcases le_or_gt 0 v with hv | hv
  · -- a nonnegative `v` is its own residue, below half the modulus
    have hres : v % (M : ℤ) = v := Int.emod_eq_of_lt hv (by omega)
    rw [hres]
    have hlt : v.toNat < M := by omega
    rw [Nat.mod_eq_of_lt hlt, if_pos (by omega)]
    omega
  · -- a negative `v` is stored as `v + 256 ^ n`, in the upper half
    have hres : v % (M : ℤ) = v + M := by
      rw [Int.emod_eq_add_self_emod, Int.emod_eq_of_lt (by omega) (by omega)]
    rw [hres]
    have hlt : (v + M).toNat < M := by omega
    rw [Nat.mod_eq_of_lt hlt, if_neg (by omega)]
    omega

theorem decodeSigned_mem_range {bs : List UInt8} (hlen : 0 < bs.length) :
    -((256 ^ bs.length / 2 : ℕ) : ℤ) ≤ decodeSigned bs ∧
      decodeSigned bs < ((256 ^ bs.length / 2 : ℕ) : ℤ) := by
  have hlt := decode_lt bs
  have heven : 2 ∣ 256 ^ bs.length := by
    obtain ⟨k, hk⟩ := Nat.exists_eq_succ_of_ne_zero (Nat.pos_iff_ne_zero.mp hlen)
    rw [hk, pow_succ]
    exact Nat.dvd_mul_left_of_dvd (by decide) _
  have hhalf := Nat.mul_div_cancel' heven
  unfold decodeSigned
  generalize 256 ^ bs.length = M at *
  split <;> omega

end LittleEndian
