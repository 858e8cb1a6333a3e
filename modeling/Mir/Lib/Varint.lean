import Mathlib

/-!
# Variable-length integers

Base-128 numbers, lowest digit first, with the high bit set on every byte but the last, as in
`encoding/binary`. Reading returns the number and the bytes behind it (`read_encode`); input that ends
inside a number is told apart from input without any byte (`read_truncated`).
-/

namespace Varint

/-- `PutUvarint`. -/
def encode (n : ℕ) : List UInt8 :=
  if n < 128 then [UInt8.ofNat n] else UInt8.ofNat (n % 128 + 128) :: encode (n / 128)
termination_by n
decreasing_by omega

/-- Why no number is read. -/
inductive ReadError
  | empty
  | truncated
  | overflow
  deriving DecidableEq

/-- `ReadUvarint`, from byte number `i` on; `x` is the number read so far. -/
def read (i x : ℕ) : List UInt8 → Except ReadError (ℕ × List UInt8)
  | [] =>
    if i = 10 then .error .overflow else .error (if i = 0 then .empty else .truncated)
  | b :: rest =>
    if i = 10 then .error .overflow
    else if b.toNat < 128 then
      if i = 9 ∧ 1 < b.toNat then .error .overflow else .ok (x + b.toNat * 128 ^ i, rest)
    else read (i + 1) (x + b.toNat % 128 * 128 ^ i) rest

/-- `PutVarint`: negative numbers are odd. -/
def encodeInt (l : ℤ) : List UInt8 := encode (if 0 ≤ l then 2 * l.toNat else 2 * (-l - 1).toNat + 1)

/-- `ReadVarint`. -/
def readInt (bytes : List UInt8) : Except ReadError (ℤ × List UInt8) :=
  (read 0 0 bytes).map fun r => (if r.1 % 2 = 0 then (r.1 / 2 : ℤ) else -(r.1 / 2 : ℤ) - 1, r.2)

section

variable {n i x : ℕ}

theorem toNat_last (h : n < 128) : (UInt8.ofNat n).toNat = n := by
  rw [UInt8.toNat_ofNat']
  omega

theorem toNat_digit (n : ℕ) : (UInt8.ofNat (n % 128 + 128)).toNat = n % 128 + 128 := by
  rw [UInt8.toNat_ofNat']
  omega

/-- There is room for one more digit. -/
theorem digit_fits (hn : ¬n < 128) (hfit : n * 128 ^ i < 2 ^ 64) :
    i + 1 ≤ 9 ∧ n / 128 * 128 ^ (i + 1) < 2 ^ 64 := by
  have hle : n / 128 * 128 ^ (i + 1) ≤ n * 128 ^ i := by
    rw [pow_succ, ← Nat.mul_assoc, Nat.mul_right_comm]
    exact Nat.mul_le_mul_right _ (Nat.div_mul_le_self n 128)
  refine ⟨?_, hle.trans_lt hfit⟩
  by_contra hi
  have hpow : 128 ^ 10 ≤ 128 ^ (i + 1) := Nat.pow_le_pow_right (by decide) (by omega)
  have hone : 1 * 128 ^ (i + 1) ≤ n / 128 * 128 ^ (i + 1) :=
    Nat.mul_le_mul_right _ ((Nat.one_le_div_iff (by decide)).mpr (by omega))
  omega

/-- The last digit does not overflow. -/
theorem last_fits (hfit : n * 128 ^ i < 2 ^ 64) : ¬(i = 9 ∧ 1 < n) := by
  rintro ⟨rfl, hn⟩
  omega

/-- **What was encoded is read**, whatever follows. -/
theorem read_encode (hi : i ≤ 9) (hfit : n * 128 ^ i < 2 ^ 64) (rest : List UInt8) :
    read i x (encode n ++ rest) = .ok (x + n * 128 ^ i, rest) := by
  induction n using Nat.strongRecOn generalizing i x with
  | ind n ih =>
    rw [encode]
    split
    next hn =>
      rw [List.singleton_append, read, toNat_last hn, if_neg (by omega), if_pos hn,
        if_neg (last_fits hfit)]
    next hn =>
      obtain ⟨hi', hfit'⟩ := digit_fits hn hfit
      rw [List.cons_append, read, toNat_digit, if_neg (by omega), if_neg (by omega),
        ih (n / 128) (by omega) hi' hfit', Nat.add_mod_right, Nat.mod_mod]
      have hsplit : n % 128 * 128 ^ i + n / 128 * 128 ^ (i + 1) = n * 128 ^ i := by
        rw [pow_succ, Nat.mul_comm (128 ^ i), ← Nat.mul_assoc, ← Nat.add_mul, Nat.mul_comm (n / 128),
          Nat.mod_add_div]
      rw [Nat.add_assoc, hsplit]

/-- **Input that ends inside a number.** -/
theorem read_truncated (hi : i ≤ 9) (hfit : n * 128 ^ i < 2 ^ 64) {p rest : List UInt8}
    (hsplit : encode n = p ++ rest) (hrest : rest ≠ []) :
    read i x p = .error (if i = 0 ∧ p = [] then .empty else .truncated) := by
  induction n using Nat.strongRecOn generalizing i x p with
  | ind n ih =>
    cases p with
    | nil =>
      rw [read, if_neg (by omega)]
      simp
    | cons b p =>
      rw [encode] at hsplit
      split at hsplit
      next hn =>
        obtain ⟨-, hnil⟩ := List.cons.inj hsplit
        exact absurd (List.append_eq_nil_iff.mp hnil.symm).2 hrest
      next hn =>
        obtain ⟨rfl, htail⟩ := List.cons.inj hsplit
        obtain ⟨hi', hfit'⟩ := digit_fits hn hfit
        rw [read, toNat_digit, if_neg (by omega), if_neg (by omega),
          ih (n / 128) (by omega) hi' hfit' htail]
        simp

/-- Reading a number takes at least one byte. -/
theorem length_lt_of_read {bytes rest : List UInt8} (h : read i x bytes = .ok (n, rest)) :
    rest.length < bytes.length := by
  induction bytes generalizing i x with
  | nil =>
    rw [read] at h
    split at h <;> cases h
  | cons b bytes ih =>
    rw [read] at h
    split at h
    · cases h
    · split at h
      · split at h
        · cases h
        · cases h
          simp
      · exact (ih h).trans (Nat.lt_succ_self _)

end

/-! ### Signed numbers -/

/-- The numbers of an `int64`. -/
def IsInt64 (l : ℤ) : Prop := -2 ^ 63 ≤ l ∧ l < 2 ^ 63

theorem readInt_encodeInt {l : ℤ} (hl : IsInt64 l) (rest : List UInt8) :
    readInt (encodeInt l ++ rest) = .ok (l, rest) := by
  obtain ⟨hlow, hhigh⟩ := hl
  rw [readInt, encodeInt, read_encode (by decide) (by split <;> omega)]
  simp only [Except.map, Nat.zero_add, pow_zero, mul_one]
  congr 2
  split <;> split <;> omega

theorem readInt_truncated {l : ℤ} (hl : IsInt64 l) {p rest : List UInt8}
    (hsplit : encodeInt l = p ++ rest) (hp : p ≠ []) (hrest : rest ≠ []) :
    readInt p = .error .truncated := by
  obtain ⟨hlow, hhigh⟩ := hl
  rw [readInt, read_truncated (by decide) _ hsplit hrest, if_neg (by simp [hp])]
  · rfl
  · split <;> omega

theorem length_lt_of_readInt {l : ℤ} {bytes rest : List UInt8} (h : readInt bytes = .ok (l, rest)) :
    rest.length < bytes.length := by
  rw [readInt] at h
  cases hread : read 0 0 bytes with
  | error e =>
    rw [hread] at h
    cases h
  | ok r =>
    rw [hread] at h
    cases h
    exact length_lt_of_read hread

end Varint
