import Alpine.Spec.Tar
import Alpine.Sanity.Bytes
import Alpine.Sanity.Istream

/-! Headers of tar archives: the octal fields that the writer fills read back, and 512 bytes that
were laid out as a header are read as that header. -/

namespace Alpine

open List

variable {k l n : ℕ} {h : TarHeader} {a s : Bytes}

theorem octalDigits_length {value : ℕ} : (octalDigits l value).length = l := by
  induction l generalizing value with
  | zero => rfl
  | succ l ih => rw [octalDigits, length_append, ih, length_singleton]

theorem putOctal_length (hl : 0 < l) (value : ℕ) (hasZero : Bool) :
    (putOctal l value hasZero).length = l := by
  unfold putOctal
  split_ifs
  · rw [length_append, octalDigits_length, length_singleton]
    omega
  · exact octalDigits_length

theorem dx_octal {d : ℕ} (hd : d < 8) :
    asc '0' + UInt8.ofNat d ≠ 0 ∧ dx (asc '0' + UInt8.ofNat d) = d := by
  interval_cases d <;> decide

theorem pullUintLoop_octalDigits (l : ℕ) : ∀ (value acc : ℕ) (rest : Bytes), acc * 8 ^ l + 8 ^ l ≤ 2 ^ 64 →
    pullUintLoop 8 acc (octalDigits l value ++ rest) =
      pullUintLoop 8 (acc * 8 ^ l + value % 8 ^ l) rest := by
  induction l with
  | zero =>
    intro value acc rest _
    rw [octalDigits, nil_append, Nat.pow_zero, Nat.mod_one, Nat.mul_one, Nat.add_zero]
  | succ l ih =>
    intro value acc rest hacc
    have hpow : 8 ^ (l + 1) = 8 ^ l * 8 := pow_succ 8 l
    have hmul : acc * 8 ^ (l + 1) = acc * 8 ^ l * 8 := by rw [hpow, Nat.mul_assoc]
    have hdigit : value % 8 < 8 := Nat.mod_lt _ (by norm_num)
    obtain ⟨h0, hdx⟩ := dx_octal hdigit
    have hmod : value % 8 ^ (l + 1) = value / 8 % 8 ^ l * 8 + value % 8 := by
      rw [hpow, Nat.mul_comm (8 ^ l) 8, Nat.mod_mul]
      omega
    rw [octalDigits, append_assoc, ih (value / 8) acc _ (by omega), singleton_append,
      pullUintLoop, if_neg h0, if_neg (by omega)]
    congr 1
    omega

theorem getOctal_putOctal (hl : l ≤ 21) (value : ℕ) (hasZero : Bool) :
    getOctal (putOctal l value hasZero) = (value % 8 ^ (if hasZero then l - 1 else l), true) := by
  have hroom : ∀ k ≤ 21, 0 * 8 ^ k + 8 ^ k ≤ 2 ^ 64 := by
    intro k hk
    calc 0 * 8 ^ k + 8 ^ k ≤ 8 ^ 21 := by
          rw [Nat.zero_mul, Nat.zero_add]
          exact Nat.pow_le_pow_right (by norm_num) hk
      _ ≤ 2 ^ 64 := by norm_num
  unfold getOctal putOctal apkBlobPullUint
  cases hasZero with
  | true =>
    simp only [reduceIte]
    rw [pullUintLoop_octalDigits (l - 1) value 0 [0] (hroom _ (by omega)), Nat.zero_mul, Nat.zero_add]
    rfl
  | false =>
    have h := pullUintLoop_octalDigits l value 0 [] (hroom _ hl)
    rw [append_nil, Nat.zero_mul, Nat.zero_add] at h
    simp only [Bool.false_eq_true, reduceIte, h]
    rfl

/-- every field of a header has its size -/
structure TarHeader.Sized (h : TarHeader) : Prop where
  name : h.name.length = 100
  mode : h.mode.length = 8
  uid : h.uid.length = 8
  gid : h.gid.length = 8
  size : h.size.length = 12
  mtime : h.mtime.length = 12
  chksum : h.chksum.length = 8
  linkname : h.linkname.length = 100
  magic : h.magic.length = 8
  uname : h.uname.length = 32
  gname : h.gname.length = 32
  devmajor : h.devmajor.length = 8
  devminor : h.devminor.length = 8
  pfx : h.pfx.length = 155
  padding : h.padding.length = 12

theorem TarHeader.Sized.length (hs : h.Sized) : h.bytes.length = 512 := by
  unfold TarHeader.bytes
  simp [hs.name, hs.mode, hs.uid, hs.gid, hs.size,
    hs.mtime, hs.chksum, hs.linkname, hs.magic, hs.uname, hs.gname, hs.devmajor, hs.devminor, hs.pfx,
    hs.padding]

theorem drop_skip {l : Bytes} {i : ℕ} (ha : a.length = k) (hi : k ≤ i) :
    (a ++ l).drop i = l.drop (i - k) := by
  rw [drop_append, drop_of_length_le (ha ▸ hi), nil_append, ha]

theorem take_first {l : Bytes} (ha : a.length = k) : (a ++ l).take k = a := by
  rw [← ha, take_left]

theorem TarHeader.ofBytes_bytes (hs : h.Sized) : TarHeader.ofBytes h.bytes = h := by
  have hend : h.padding.take 12 = h.padding := take_of_length_le hs.padding.le
  unfold TarHeader.ofBytes TarHeader.bytes
  rw [getD_eq_getElem?_getD, ← head?_drop]
  simp (disch := decide) only [append_assoc, cons_append, nil_append, drop_skip hs.name, drop_skip hs.mode,
    drop_skip hs.uid, drop_skip hs.gid, drop_skip hs.size, drop_skip hs.mtime, drop_skip hs.chksum,
    drop_succ_cons, drop_skip hs.linkname, drop_skip hs.magic, drop_skip hs.uname,
    drop_skip hs.gname, drop_skip hs.devmajor, drop_skip hs.devminor, drop_skip hs.pfx,
    Nat.reduceSub, drop_zero, head?_cons, Option.getD_some, take_first hs.name, take_first hs.mode,
    take_first hs.uid, take_first hs.gid, take_first hs.size, take_first hs.mtime, take_first hs.chksum,
    take_first hs.linkname, take_first hs.magic, take_first hs.uname, take_first hs.gname,
    take_first hs.devmajor, take_first hs.devminor, take_first hs.pfx, hend]

theorem strlcpyField_length (hn : 0 < n) : (strlcpyField n s).length = n := by
  unfold strlcpyField
  rw [length_append, length_replicate, length_take]
  omega

theorem cstr_strlcpyField (hn : 0 < n) (hs : ∀ c ∈ s, c ≠ 0) :
    cstr (strlcpyField n s) = s.take (n - 1) := by
  have hall : ∀ c ∈ s.take (n - 1), decide (c ≠ 0) = true :=
    fun c hc => decide_eq_true (hs c (mem_of_mem_take hc))
  unfold cstr strlcpyField
  rw [takeWhile_append_of_pos hall, length_take]
  obtain ⟨k, hk⟩ : ∃ k, n - min (n - 1) s.length = k + 1 := ⟨n - min (n - 1) s.length - 1, by omega⟩
  rw [hk, replicate_succ, takeWhile_cons, if_neg (by simp), append_nil]

section

variable (typeflag : UInt8) (name : Bytes) (size : ℤ) (ae : ArchiveEntry)

theorem tarHeaderOf_sized : (tarHeaderOf typeflag name size ae).Sized where
  name := strlcpyField_length (by norm_num)
  mode := show (putOctal 8 _ true).length = 8 from putOctal_length (by norm_num) _ _
  uid := show (putOctal 8 _ true).length = 8 from putOctal_length (by norm_num) _ _
  gid := show (putOctal 8 _ true).length = 8 from putOctal_length (by norm_num) _ _
  size := show (putOctal 12 _ false).length = 12 from putOctal_length (by norm_num) _ _
  mtime := show (putOctal 12 _ false).length = 12 from putOctal_length (by norm_num) _ _
  chksum := length_replicate
  linkname := length_replicate
  magic := rfl
  uname := strlcpyField_length (by norm_num)
  gname := strlcpyField_length (by norm_num)
  devmajor := length_replicate
  devminor := length_replicate
  pfx := length_replicate
  padding := length_replicate

theorem apkTarFillHeader_sized : (apkTarFillHeader typeflag name size ae).Sized :=
  { tarHeaderOf_sized typeflag name size ae with
    chksum := by
      change (putOctal 7 _ true ++ [0x20]).length = 8
      rw [length_append, putOctal_length (by norm_num), length_singleton] }

end

theorem tarEntry_fill {env : TarEnv} {typeflag : UInt8} {name : Bytes} (hname : ∀ c ∈ name, c ≠ 0)
    {size : ℤ} {ae : ArchiveEntry} {named : Option Bytes} :
    ∃ entry : ArchiveEntry, tarEntry env (apkTarFillHeader typeflag name size ae) named =
        some ⟨entry, named, false⟩ ∧ entry.name = named.getD (name.take 99) ∧
      entry.linkTarget = none ∧ entry.size = toSizeT (toInt32 size) % 2 ^ 36 ∧
      entry.mode = ae.mode &&& 0o7777 ∧ entry.mtime = (toSizeT ae.mtime % 2 ^ 36 : ℕ) := by
  have hsize : getOctal (apkTarFillHeader typeflag name size ae).size =
      (toSizeT (toInt32 size) % 2 ^ 36, true) := getOctal_putOctal (by norm_num) _ false
  have huid : getOctal (apkTarFillHeader typeflag name size ae).uid = (ae.uid % 8 ^ 7, true) :=
    getOctal_putOctal (by norm_num) _ true
  have hgid : getOctal (apkTarFillHeader typeflag name size ae).gid = (ae.gid % 8 ^ 7, true) :=
    getOctal_putOctal (by norm_num) _ true
  have hmode : getOctal (apkTarFillHeader typeflag name size ae).mode =
      ((ae.mode &&& 0o7777) % 8 ^ 7, true) := getOctal_putOctal (by norm_num) _ true
  have hmtime : getOctal (apkTarFillHeader typeflag name size ae).mtime =
      (toSizeT ae.mtime % 2 ^ 36, true) := getOctal_putOctal (by norm_num) _ false
  have hn : cstr (apkTarFillHeader typeflag name size ae).name = name.take 99 :=
    cstr_strlcpyField (by norm_num) hname
  have hand : (ae.mode &&& 0o7777) % 8 ^ 7 &&& 0o7777 = ae.mode &&& 0o7777 := by
    have hle : ae.mode &&& 0o7777 ≤ 0o7777 := Nat.and_le_right
    rw [Nat.mod_eq_of_lt (lt_of_le_of_lt hle (by norm_num)), Nat.and_assoc, Nat.and_self]
  unfold tarEntry
  simp only [hsize, huid, hgid, hmode, hmtime, hn]
  exact ⟨_, rfl, rfl, rfl, rfl, hand, rfl⟩

end Alpine
