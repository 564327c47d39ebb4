import Mathlib.Tactic

/-! Little-endian numerals: the number that a byte list denotes, and the bytes of
a number at a given width. -/
namespace EspCompressor
namespace LittleEndian

/-- The number denoted by a byte list, least significant byte first. -/
def value : List UInt8 → ℕ
  | [] => 0
  | b :: bs => b.toNat + 256 * value bs

/-- The lowest `k` bytes of a number. -/
def bytes : ℕ → ℕ → List UInt8
  | 0, _ => []
  | k + 1, n => UInt8.ofNat n :: bytes k (n / 256)

@[simp] theorem bytes_length (k n : ℕ) : (bytes k n).length = k := by
  induction k generalizing n <;> simp_all [bytes]

theorem value_lt (bs : List UInt8) : value bs < 256 ^ bs.length := by
  induction bs with
  | nil => simp [value]
  | cons b bs ih =>
    have hb := b.toNat_lt
    simp only [value,List.length_cons,pow_succ]
    omega

theorem value_bytes (k n : ℕ) (h : n < 256 ^ k) : value (bytes k n) = n := by
  induction k generalizing n with
  | zero => simp at h; simp [value,bytes,h]
  | succ k ih =>
    have hd : n / 256 < 256 ^ k := Nat.div_lt_of_lt_mul (by rwa [mul_comm,← pow_succ])
    simp only [bytes,value,ih _ hd,UInt8.toNat_ofNat']
    omega

theorem bytes_value (bs : List UInt8) : bytes bs.length (value bs) = bs := by
  induction bs with
  | nil => rfl
  | cons b bs ih =>
    have hb := b.toNat_lt
    have hdiv : (b.toNat + 256 * value bs) / 256 = value bs := by omega
    simp only [List.length_cons,bytes,value,hdiv,ih,List.cons.injEq,and_true]
    apply UInt8.toNat_inj.mp
    rw [UInt8.toNat_ofNat']
    omega

/-- The `i`-th byte of a number. -/
theorem bytes_eq_map (k n : ℕ) :
    bytes k n = (List.range k).map fun i => UInt8.ofNat (n / 256 ^ i) := by
  induction k generalizing n with
  | zero => rfl
  | succ k ih =>
    simp [bytes,ih,List.range_succ_eq_map,Nat.div_div_eq_div_mul,pow_succ,Nat.mul_comm,
      Function.comp_def]

/-- Above the bits of `x`, a shifted `or` is an addition. -/
theorem or_shiftLeft_eq (x k b : ℕ) (hx : x < 2 ^ k) : x ||| b <<< k = x + b * 2 ^ k := by
  rw [Nat.shiftLeft_eq,Nat.or_comm,Nat.mul_comm b,← Nat.two_pow_add_eq_or_of_lt hx]
  exact Nat.add_comm _ _

theorem value_append (xs ys : List UInt8) :
    value (xs ++ ys) = value xs + 256 ^ xs.length * value ys := by
  induction xs with
  | nil => simp [value]
  | cons x xs ih => simp only [List.cons_append,value,ih,List.length_cons,pow_succ]; ring

end LittleEndian
end EspCompressor
