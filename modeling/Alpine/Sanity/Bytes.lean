import Alpine.Spec.AdbWrite

/-! Numbers in little endian bytes, and sizes rounded up. -/

namespace Alpine

variable {a n x : ℕ}

theorem htole32_length : (htole32 n).length = 4 := rfl

theorem htole64_length : (htole64 n).length = 8 := rfl

theorem leNat_append (a b : Bytes) : leNat (a ++ b) = leNat a + 256 ^ a.length * leNat b := by
  induction a with
  | nil => simp [leNat]
  | cons c a ih =>
    rw [List.cons_append, leNat, ih, leNat, List.length_cons]
    ring

theorem leNat_lt {b : Bytes} : leNat b < 256 ^ b.length := by
  induction b with
  | nil => simp [leNat]
  | cons c b ih =>
    have hc : c.toNat < 256 := c.toNat_lt
    rw [leNat, List.length_cons]
    omega

theorem leNat_htole32 : leNat (htole32 n) = n % 2 ^ 32 := by
  simp only [htole32, leNat, UInt8.toNat_ofNat']
  omega

theorem leNat_htole64 : leNat (htole64 n) = n % 2 ^ 64 := by
  rw [htole64, leNat_append, leNat_htole32, leNat_htole32, htole32_length]
  omega

theorem leNat_take (k : ℕ) (b : Bytes) : leNat (b.take k) = leNat b % 256 ^ (b.take k).length := by
  have h := leNat_append (b.take k) (b.drop k)
  rw [List.take_append_drop] at h
  rw [h, Nat.add_mul_mod_self_left, Nat.mod_eq_of_lt leNat_lt]

theorem le_roundUp (ha : 0 < a) : x ≤ roundUp x a := by
  have h := Nat.div_add_mod (x + (a - 1)) a
  have hlt := Nat.mod_lt (x + (a - 1)) ha
  unfold roundUp
  rw [Nat.mul_comm]
  omega

theorem roundUp_lt (ha : 0 < a) : roundUp x a < x + a := by
  have h := Nat.div_mul_le_self (x + (a - 1)) a
  unfold roundUp
  omega

theorem roundUp_mod : roundUp x a % a = 0 := Nat.mul_mod_left _ a

theorem roundUp_le {y : ℕ} (ha : 0 < a) (hxy : x ≤ y) (hy : y % a = 0) : roundUp x a ≤ y := by
  obtain ⟨k, rfl⟩ := Nat.dvd_of_mod_eq_zero hy
  have hk : (x + (a - 1)) / a ≤ k := by
    rw [← Nat.lt_succ_iff, Nat.div_lt_iff_lt_mul ha, Nat.succ_mul, Nat.mul_comm k a]
    omega
  calc roundUp x a = (x + (a - 1)) / a * a := rfl
    _ ≤ k * a := Nat.mul_le_mul_right a hk
    _ = a * k := Nat.mul_comm k a

end Alpine
