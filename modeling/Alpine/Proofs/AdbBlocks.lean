import Alpine.Sanity.Bytes

/-! The blocks of an ADB container. What `adb_c_block` writes, `adb_foreach_block` finds again. On
bytes from elsewhere it is safe as long as no block gives a size that wraps around when it is
rounded up: such a block passes for one of size 0, and the loop stays at it. -/

namespace Alpine

open List AdbBlock

variable {data rest : Bytes} {len pos : ℕ} {b blk : AdbBlock} {val : Blob}
    {l : List (AdbBlockKind × Blob)}

theorem adbBlockSize_congr {a : AdbBlock} (h : adbBlockRawsize a = adbBlockRawsize b) :
    adbBlockSize a = adbBlockSize b := by
  unfold adbBlockSize
  rw [h]

theorem adbBlockHdrsize_cases (b : AdbBlock) : adbBlockHdrsize b = 16 ∨ adbBlockHdrsize b = 4 := by
  unfold adbBlockHdrsize
  split_ifs
  · exact Or.inl rfl
  · exact Or.inr rfl

theorem adbBlockSize_eq (h : adbBlockRawsize b + 7 < 2 ^ 64) :
    adbBlockSize b = roundUp (adbBlockRawsize b) 8 := by
  unfold adbBlockSize roundUp adbBlockAlignment
  rw [Nat.mod_eq_of_lt (by simpa using h)]

theorem adbBlockSize_wrap (h : 2 ^ 64 ≤ adbBlockRawsize b + 7) (hb : adbBlockRawsize b < 2 ^ 64) :
    adbBlockSize b = 0 := by
  unfold adbBlockSize adbBlockAlignment
  omega

theorem adbBlockLength_eq (h : adbBlockHdrsize b ≤ adbBlockRawsize b) (hb : adbBlockRawsize b < 2 ^ 64) :
    adbBlockHdrsize b + adbBlockLength b = adbBlockRawsize b := by
  unfold adbBlockLength
  omega

theorem ofBytes_rawsize_lt {d : Bytes} : adbBlockRawsize (ofBytes d) < 2 ^ 64 := by
  unfold adbBlockRawsize ofBytes
  split_ifs
  · have hlen : ((d.drop 8).take 8).length ≤ 8 := length_take_le ..
    calc leNat ((d.drop 8).take 8) < 256 ^ ((d.drop 8).take 8).length := leNat_lt
      _ ≤ 256 ^ 8 := Nat.pow_le_pow_right (by norm_num) hlen
      _ = 2 ^ 64 := by norm_num
  · omega

theorem adbBlockValidate_some (h : adbBlockValidate data pos = .ok (some blk)) :
    pos + adbBlockHdrsize blk ≤ data.length ∧ adbBlockHdrsize blk ≤ adbBlockRawsize blk ∧
      adbBlockSize blk ≤ data.length - pos ∧ adbBlockRawsize blk < 2 ^ 64 := by
  unfold adbBlockValidate at h
  simp only at h
  split_ifs at h with h0 h1 h2 h3 h4
  · simp at h
  · obtain rfl : ofBytes (data.drop pos) = blk := by simpa using h
    exact ⟨by omega, by omega, by omega, ofBytes_rawsize_lt⟩

/-- the offsets at which the enumeration looks for a block -/
inductive BlockReached (data : Bytes) : ℕ → Prop
  | first : BlockReached data 0
  | next {pos : ℕ} {blk : AdbBlock} (h : BlockReached data pos)
      (hblk : adbBlockValidate data pos = .ok (some blk)) :
      BlockReached data (pos + adbBlockSize blk)

/-- no block that is reached gives a size among the last seven of 64 bits -/
def SizesFit (data : Bytes) : Prop :=
  ∀ pos blk, BlockReached data pos → adbBlockValidate data pos = .ok (some blk) →
    adbBlockRawsize blk + 7 < 2 ^ 64

/-- the header and the payload of a block are part of the data -/
def BlockInside (data : Bytes) (x : ℕ × AdbBlock) : Prop :=
  x.1 + adbBlockHdrsize x.2 ≤ data.length ∧ x.1 + adbBlockHdrsize x.2 + adbBlockLength x.2 ≤ data.length

theorem adbForeachBlock_safe (hfit : SizesFit data) (n : ℕ) (hpos : BlockReached data pos)
    (hle : pos ≤ data.length) (hn : data.length - pos < n) :
    ∃ bs e, adbForeachBlock data n pos = some (bs, e) ∧ (∀ x ∈ bs, BlockInside data x) ∧
      (∀ x ∈ bs, pos ≤ x.1) ∧ (bs.map (·.1)).Pairwise (· < ·) := by
  induction n generalizing pos with
  | zero => omega
  | succ n ih =>
    unfold adbForeachBlock
    cases hv : adbBlockValidate data pos with
    | error e => exact ⟨[], e, rfl, by simp, by simp, List.Pairwise.nil⟩
    | ok o =>
      cases o with
      | none => exact ⟨[], 0, rfl, by simp, by simp, List.Pairwise.nil⟩
      | some blk =>
        obtain ⟨h1, h2, h3, h4⟩ := adbBlockValidate_some hv
        have hsize := adbBlockSize_eq (hfit pos blk hpos hv)
        have hround := le_roundUp (x := adbBlockRawsize blk) (show 0 < 8 by norm_num)
        have hlength := adbBlockLength_eq h2 h4
        have hhdr := adbBlockHdrsize_cases blk
        obtain ⟨bs, e, hbs, hin, hfrom, hpair⟩ := ih (hpos.next hv) (by omega) (by omega)
        refine ⟨(pos, blk) :: bs, e, by simp [hbs], ?_, ?_, ?_⟩
        · intro x hx
          rcases mem_cons.1 hx with rfl | hx
          · refine ⟨h1, ?_⟩
            change pos + adbBlockHdrsize blk + adbBlockLength blk ≤ data.length
            omega
          · exact hin x hx
        · intro x hx
          rcases mem_cons.1 hx with rfl | hx
          · exact le_rfl
          · have := hfrom x hx
            omega
        rw [map_cons, pairwise_cons]
        refine ⟨fun p hp => ?_, hpair⟩
        obtain ⟨x, hx, rfl⟩ := mem_map.1 hp
        have := hfrom x hx
        omega

theorem BlockReached.ends (h : BlockReached data pos) {n : ℕ} {r : List (ℕ × AdbBlock) × ℤ}
    (hend : adbForeachBlock data n 0 = some r) : ∃ m r', adbForeachBlock data m pos = some r' := by
  induction h with
  | first => exact ⟨n, r, hend⟩
  | next _ hblk ih =>
    obtain ⟨m, r', hm⟩ := ih
    cases m with
    | zero => simp [adbForeachBlock] at hm
    | succ m =>
      rw [adbForeachBlock, hblk] at hm
      obtain ⟨r'', hr'', -⟩ := Option.map_eq_some_iff.1 hm
      exact ⟨m, r'', hr''⟩

theorem adbForeachBlock_stuck (h : adbBlockValidate data pos = .ok (some blk))
    (hsize : adbBlockSize blk = 0) (n : ℕ) : adbForeachBlock data n pos = none := by
  induction n with
  | zero => rfl
  | succ n ih =>
    rw [adbForeachBlock, h]
    simp [hsize, ih]

/-- the enumeration ends, stays inside the data and goes forward with every block, exactly when no
block that it reaches has a size that wraps around -/
theorem block_enumeration_safe_iff (data : Bytes) :
    (∃ n bs e, adbForeachBlock data n 0 = some (bs, e) ∧ (∀ x ∈ bs, BlockInside data x) ∧
      (bs.map (·.1)).Pairwise (· < ·)) ↔ SizesFit data := by
  constructor
  · rintro ⟨n, bs, e, hend, -, -⟩ pos blk hpos hv
    by_contra hwrap
    obtain ⟨m, r, hm⟩ := hpos.ends hend
    have hsize := adbBlockSize_wrap (not_lt.1 hwrap) (adbBlockValidate_some hv).2.2.2
    rw [adbForeachBlock_stuck hv hsize] at hm
    cases hm
  intro hfit
  obtain ⟨bs, e, h, hin, -, hpair⟩ := adbForeachBlock_safe hfit (data.length + 1)
    BlockReached.first (Nat.zero_le _) (by omega)
  exact ⟨_, bs, e, h, hin, hpair⟩

/-- an extended header that gives all ones as its size -/
def wrapData : Bytes := htole32 (adbBlockExt * 2 ^ 30) ++ [0, 0, 0, 0] ++ List.replicate 8 255

theorem block_enumeration_wraps :
    (∃ blk, adbBlockValidate wrapData 0 = .ok (some blk) ∧ ¬ BlockInside wrapData (0, blk)) ∧
      ¬ ∃ n r, adbForeachBlock wrapData n 0 = some r := by
  have hraw : adbBlockRawsize (ofBytes wrapData) = 2 ^ 64 - 1 := by decide +kernel
  have hhdr : adbBlockHdrsize (ofBytes wrapData) = 16 := by decide +kernel
  have hlen : wrapData.length = 16 := rfl
  have hsize := adbBlockSize_wrap (b := ofBytes wrapData) (by omega) (by omega)
  have hv : adbBlockValidate wrapData 0 = .ok (some (ofBytes wrapData)) := by
    unfold adbBlockValidate
    simp [hlen, hraw, hhdr, hsize]
  refine ⟨⟨_, hv, fun hin => ?_⟩, ?_⟩
  · have hlength := adbBlockLength_eq (b := ofBytes wrapData) (by omega) (by omega)
    have := hin.2
    simp only at this
    omega
  · rintro ⟨n, r, hr⟩
    rw [adbForeachBlock_stuck hv hsize] at hr
    cases hr

inductive AdbBlockKind
  | adb
  | sig
  | data
  deriving DecidableEq

def AdbBlockKind.type : AdbBlockKind → ℕ
  | .adb => adbBlockAdb
  | .sig => adbBlockSig
  | .data => adbBlockData

theorem AdbBlockKind.type_lt {k : AdbBlockKind} : k.type < 3 := by cases k <;> decide

def blockBytes (type : ℕ) (val : Blob) : Bytes := adbCBlock [] type val

theorem adbCBlock_eq {os : Bytes} {type : ℕ} : adbCBlock os type val = os ++ blockBytes type val := by
  simp [blockBytes, adbCBlock]

def writeBlocks (l : List (AdbBlockKind × Blob)) : Bytes :=
  l.foldl (fun os x => adbCBlock os x.1.type x.2) []

theorem writeBlocks_eq : writeBlocks l = l.flatMap fun x => blockBytes x.1.type x.2 := by
  have h : ∀ os, l.foldl (fun os x => adbCBlock os x.1.type x.2) os =
      os ++ l.flatMap fun x => blockBytes x.1.type x.2 := by
    induction l with
    | nil => simp
    | cons x l ih =>
      intro os
      rw [foldl_cons, ih, adbCBlock_eq, flatMap_cons, append_assoc]
  exact h []

theorem ofBytes_typeSize {ts : ℕ} : (ofBytes (htole32 ts ++ rest)).typeSize = ts % 2 ^ 32 := by
  exact leNat_htole32

theorem ofBytes_bytes :
    ofBytes (blk.bytes ++ rest) = ⟨blk.typeSize % 2 ^ 32, blk.xSize % 2 ^ 64⟩ := by
  have hbytes : blk.bytes ++ rest =
      htole32 blk.typeSize ++ ([0, 0, 0, 0] ++ htole64 blk.xSize ++ rest) := by
    simp [bytes]
  have hdrop : (blk.bytes ++ rest).drop 8 = htole64 blk.xSize ++ rest := by
    simp [bytes, htole32]
  unfold ofBytes
  rw [hdrop, take_left' htole64_length, leNat_htole64, hbytes, take_left' htole32_length, leNat_htole32]

theorem isExt_short {type : ℕ} (htype : type < 3) (hlen : len ≤ 0x3fffffff - 4) :
    (type * 2 ^ 30 % 2 ^ 32 + 4 + len) % 2 ^ 32 / 2 ^ 30 = type ∧
      (type * 2 ^ 30 % 2 ^ 32 + 4 + len) % 2 ^ 32 % 2 ^ 30 = 4 + len := by
  omega

theorem isExt_long {type : ℕ} (htype : type < 3) (hlen : len < 2 ^ 63) :
    (adbBlockExt * 2 ^ 30 + type) % 2 ^ 32 / 2 ^ 30 = adbBlockExt ∧
      (adbBlockExt * 2 ^ 30 + type) % 2 ^ 32 % 2 ^ 30 = type ∧
      (16 + len) % 2 ^ 64 = 16 + len := by
  simp only [adbBlockExt]
  omega

theorem ofBytes_header {type : ℕ} (htype : type < 3) (val : Blob) (rest : Bytes) :
    let blk := adbBlockInit type val.1.length
    let b := ofBytes (blk.bytes.take (adbBlockHdrsize blk) ++ rest)
    adbBlockType b = type ∧ adbBlockHdrsize b = adbBlockHdrsize blk ∧
      adbBlockRawsize b = adbBlockHdrsize blk + val.1.length ∧
      adbBlockRawsize b = adbBlockRawsize blk := by
  have hval := val.2
  intro blk b
  by_cases hlen : val.1.length ≤ 0x3fffffff - 4
  · obtain ⟨hdiv, hmod⟩ := isExt_short htype hlen
    have hblk : blk = ⟨(type * 2 ^ 30 % 2 ^ 32 + 4 + val.1.length) % 2 ^ 32, 0⟩ := if_pos hlen
    have hext : adbBlockIsExt blk = false := by
      rw [hblk]
      exact decide_eq_false (by simp only [adbBlockExt]; omega)
    have hhdr : adbBlockHdrsize blk = 4 := by simp [adbBlockHdrsize, hext]
    have hts : b.typeSize = blk.typeSize := by
      have hb : b = ofBytes (htole32 blk.typeSize ++ rest) := by
        simp only [b, hhdr, bytes, append_assoc]
        rw [take_left' htole32_length]
      rw [hb, ofBytes_typeSize, hblk, Nat.mod_mod]
    have hext' : adbBlockIsExt b = false := by
      rw [adbBlockIsExt, hts]
      exact hext
    have hraw : adbBlockRawsize b = adbBlockRawsize blk := by
      simp [adbBlockRawsize, hext, hext', hts]
    refine ⟨?_, ?_, ?_, hraw⟩
    · simp only [adbBlockType, hext', Bool.false_eq_true, if_false, hts, hblk, hdiv]
    · simp [adbBlockHdrsize, hext, hext']
    · rw [hraw, hhdr, adbBlockRawsize, hext, if_neg Bool.false_ne_true, hblk]
      exact hmod
  obtain ⟨hdiv, hmod, hx⟩ := isExt_long htype hval
  have hblk : blk = ⟨(adbBlockExt * 2 ^ 30 + type) % 2 ^ 32, (16 + val.1.length) % 2 ^ 64⟩ :=
    if_neg hlen
  have hext : adbBlockIsExt blk = true := by
    rw [hblk, adbBlockIsExt, hdiv]
    exact decide_eq_true rfl
  have hhdr : adbBlockHdrsize blk = 16 := by simp [adbBlockHdrsize, hext]
  have hb : b = blk := by
    have htake : blk.bytes.take 16 = blk.bytes := take_of_length_le (by rfl)
    simp only [b, hhdr, htake, ofBytes_bytes]
    rw [hblk, Nat.mod_mod, Nat.mod_mod]
  rw [hb]
  refine ⟨?_, rfl, ?_, rfl⟩
  · rw [adbBlockType, if_pos hext, hblk]
    exact hmod
  · rw [adbBlockRawsize, if_pos hext, hhdr, hblk]
    exact hx

theorem adbBlockPadding_eq (h : adbBlockRawsize b + 7 < 2 ^ 64) :
    adbBlockRawsize b + adbBlockPadding b = adbBlockSize b := by
  have h1 := le_roundUp (x := adbBlockRawsize b) (show 0 < 8 by norm_num)
  have h2 := roundUp_lt (x := adbBlockRawsize b) (show 0 < 8 by norm_num)
  unfold adbBlockPadding
  rw [adbBlockSize_eq h]
  omega

theorem blockBytes_eq {type : ℕ} (htype : type < 3) (val : Blob) :
    ∃ hdr pad : Bytes, blockBytes type val = hdr ++ (val.1 ++ pad) ∧
      ∀ rest, let b := ofBytes (hdr ++ rest)
        adbBlockType b = type ∧ adbBlockHdrsize b = hdr.length ∧
          adbBlockRawsize b = hdr.length + val.1.length ∧
          adbBlockSize b = (blockBytes type val).length := by
  have hval := val.2
  have hblk := ofBytes_header htype val
  have hhdr := adbBlockHdrsize_cases (adbBlockInit type val.1.length)
  have hbytes : (adbBlockInit type val.1.length).bytes.length = 16 := rfl
  have hlen : ((adbBlockInit type val.1.length).bytes.take
      (adbBlockHdrsize (adbBlockInit type val.1.length))).length =
        adbBlockHdrsize (adbBlockInit type val.1.length) := by
    rw [length_take]
    omega
  refine ⟨(adbBlockInit type val.1.length).bytes.take (adbBlockHdrsize (adbBlockInit type val.1.length)),
    replicate (adbBlockPadding (adbBlockInit type val.1.length)) 0,
    by simp [blockBytes, adbCBlock], fun rest => ?_⟩
  obtain ⟨h1, h2, h3, h4⟩ := hblk rest
  have hfit : adbBlockRawsize (adbBlockInit type val.1.length) + 7 < 2 ^ 64 := by
    omega
  have hpad := adbBlockPadding_eq hfit
  refine ⟨h1, by rw [h2, hlen], by rw [h3, hlen], ?_⟩
  rw [adbBlockSize_congr h4, ← hpad, ← h4, h3]
  simp only [blockBytes, adbCBlock, nil_append, length_append, hlen, length_replicate]

theorem adbBlockValidate_block {type : ℕ} (htype : type < 3)
    (hpos : data.drop pos = blockBytes type val ++ rest) :
    ∃ b, adbBlockValidate data pos = .ok (some b) ∧ adbBlockType b = type ∧
      adbBlockSize b = (blockBytes type val).length ∧ adbBlockBlob data pos b = val.1 := by
  obtain ⟨hdr, pad, heq, hread⟩ := blockBytes_eq htype val
  obtain ⟨h1, h2, h3, h4⟩ := hread (val.1 ++ pad ++ rest)
  have hdata : data.drop pos = hdr ++ (val.1 ++ pad ++ rest) := by
    rw [hpos, heq]
    simp
  have hlen := congrArg List.length hpos
  rw [length_drop, length_append] at hlen
  have hblock := congrArg List.length heq
  rw [length_append] at hblock
  have hcases := adbBlockHdrsize_cases (ofBytes (hdr ++ (val.1 ++ pad ++ rest)))
  have hval := val.2
  refine ⟨ofBytes (hdr ++ (val.1 ++ pad ++ rest)), ?_, h1, h4, ?_⟩
  · unfold adbBlockValidate
    simp only [hdata]
    rw [if_neg (by omega), if_neg (by omega), if_neg (by omega), if_neg (by omega), if_neg (by omega)]
  have hlength := adbBlockLength_eq (b := ofBytes (hdr ++ (val.1 ++ pad ++ rest)))
  have hpayload : data.drop (pos + hdr.length) = val.1 ++ (pad ++ rest) := by
    rw [← drop_drop, hdata, drop_left, append_assoc]
  unfold adbBlockBlob
  rw [h2, hpayload]
  exact take_left' (by omega)

theorem adbForeachBlock_written (hle : pos ≤ data.length)
    (hpos : data.drop pos = l.flatMap fun x => blockBytes x.1.type x.2) :
    ∃ bs, adbForeachBlock data (l.length + 1) pos = some (bs, 0) ∧
      bs.map (fun x => (adbBlockType x.2, adbBlockBlob data x.1 x.2)) =
        l.map fun x => (x.1.type, x.2.1) := by
  induction l generalizing pos with
  | nil =>
    have hend : pos = data.length := by
      have := congrArg List.length hpos
      rw [length_drop, flatMap_nil, length_nil] at this
      omega
    refine ⟨[], ?_, rfl⟩
    rw [adbForeachBlock, adbBlockValidate]
    simp [if_pos hend]
  | cons x l ih =>
    rw [flatMap_cons] at hpos
    obtain ⟨b, hv, htype, hsize, hblob⟩ := adbBlockValidate_block x.1.type_lt hpos
    have hnext : data.drop (pos + adbBlockSize b) = l.flatMap fun x => blockBytes x.1.type x.2 := by
      rw [← drop_drop, hpos, hsize, drop_left]
    have hin := (adbBlockValidate_some hv).2.2.1
    obtain ⟨bs, hbs, hmap⟩ := ih (by omega) hnext
    refine ⟨(pos, b) :: bs, ?_, ?_⟩
    · rw [adbForeachBlock, hv]
      simp [hbs]
    · rw [map_cons, map_cons, hmap, htype, hblob]

/-- the blocks of a written container are found in their order, and the enumeration ends without
an error -/
theorem container_round_trip (l : List (AdbBlockKind × Blob)) :
    ∃ bs, adbForeachBlock (writeBlocks l) (l.length + 1) 0 = some (bs, 0) ∧
      bs.map (fun x => (adbBlockType x.2, adbBlockBlob (writeBlocks l) x.1 x.2)) =
        l.map fun x => (x.1.type, x.2.1) := by
  rw [writeBlocks_eq]
  exact adbForeachBlock_written (Nat.zero_le _) rfl

end Alpine
