import Alpine.Sanity.Blob

/-! What the two ADB readers keep true from block to block. Both go through the same few
changes of the reader (`readerIdentity`, `readerSignature`, `readerCall`), so the invariant
is proved for those and then carried through each loop. -/

namespace Alpine

open List

theorem adbBlockPadding_lt (b : AdbBlock) : adbBlockPadding b < 2 ^ 31 := by
  unfold adbBlockPadding adbBlockSize adbBlockAlignment
  omega

section digests

variable {K : Type} (crypto : Crypto K)

/-- the digest of a whole blob under the number of an algorithm -/
def algDigest (alg : ℕ) (data : Bytes) : Option Bytes :=
  if alg = apkDigestSha256_160 ∨ alg = apkDigestSha256 then
    (crypto.digestCalc apkDigestSha256 data).map (List.take (apkDigestAlgLen alg))
  else if alg = apkDigestSha512 then
    (crypto.digestCalc apkDigestSha512 data).map (List.take (apkDigestAlgLen alg))
  else none

structure VfyOk (vfy : AdbVerifyCtx) (adb : Option Bytes) : Prop where
  sha256 : ∀ md, vfy.sha256 = some md → ∃ d, adb = some d ∧ crypto.digestCalc apkDigestSha256 d = some md
  sha512 : ∀ md, vfy.sha512 = some md → ∃ d, adb = some d ∧ crypto.digestCalc apkDigestSha512 d = some md

theorem vfyOk_empty {adb : Option Bytes} : VfyOk crypto ⟨none, none⟩ adb :=
  ⟨fun _ h => absurd h (by simp), fun _ h => absurd h (by simp)⟩

variable {crypto}

variable {adb : Option Bytes} {alg : ℕ} {r : ℤ} {vfy vfy' : AdbVerifyCtx}

variable {d : Option Bytes} {db : Adb} {sigb : Bytes}

theorem adbDigestStored_error (h : adbDigestStored crypto d alg adb = .error r) :
    r < 0 ∧ r ≠ -ecanceled := by
  unfold adbDigestStored at h
  split at h
  · cases h
  split at h
  · cases h
    decide
  split at h <;> cases h
  decide

theorem adbDigestStored_ok {md : Bytes}
    (hd : ∀ md, d = some md → ∃ x, adb = some x ∧ crypto.digestCalc alg x = some md)
    (h : adbDigestStored crypto d alg adb = .ok md) :
    ∃ x, adb = some x ∧ crypto.digestCalc alg x = some md := by
  unfold adbDigestStored at h
  split at h
  · exact hd md (congrArg some (Except.ok.inj h))
  split at h
  · cases h
  split at h <;> cases h
  exact ⟨_, rfl, ‹_›⟩

theorem adbDigestAdb_error (h : adbDigestAdb crypto vfy alg adb = (.error r, vfy')) :
    vfy' = vfy ∧ r < 0 ∧ r ≠ -ecanceled := by
  unfold adbDigestAdb at h
  split_ifs at h
  · split at h <;> cases h
    exact ⟨rfl, adbDigestStored_error ‹_›⟩
  · split at h <;> cases h
    exact ⟨rfl, adbDigestStored_error ‹_›⟩
  · cases h
    exact ⟨rfl, by decide⟩

theorem adbDigestAdb_ok {md : Bytes} (hv : VfyOk crypto vfy adb)
    (h : adbDigestAdb crypto vfy alg adb = (.ok md, vfy')) :
    VfyOk crypto vfy' adb ∧ ∃ d, adb = some d ∧ algDigest crypto alg d = some md := by
  unfold adbDigestAdb at h
  split_ifs at h with h1 h2
  · split at h <;> cases h
    obtain ⟨d, hd, hc⟩ := adbDigestStored_ok hv.sha256 ‹_›
    exact ⟨⟨fun m hm => ⟨d, hd, hc.trans hm⟩, hv.sha512⟩, d, hd,
      by rw [algDigest, if_pos h1, hc, Option.map_some]⟩
  · split at h <;> cases h
    obtain ⟨d, hd, hc⟩ := adbDigestStored_ok hv.sha512 ‹_›
    exact ⟨⟨hv.sha256, fun m hm => ⟨d, hd, hc.trans hm⟩⟩, d, hd,
      by rw [algDigest, if_neg h1, if_pos h2, hc, Option.map_some]⟩
  · cases h

/-- the identity of the block is the one that was asked for -/
def IdentityMatches (crypto : Crypto K) (ectx : Option ExtractCtx) (db : Adb) : Prop :=
  ∃ e d, ectx = some e ∧ db.adb = some d ∧ algDigest crypto (identityAlg e) d = some e.verifyDigest

theorem adbHandleIdentity_ok (ectx : Option ExtractCtx) (db : Adb) (hv : VfyOk crypto vfy db.adb)
    (h : adbHandleIdentity crypto ectx vfy db.adb = (r, vfy')) :
    VfyOk crypto vfy' db.adb ∧ (r = 1 → IdentityMatches crypto ectx db) := by
  unfold adbHandleIdentity at h
  have hsame : ∀ {x : ℤ}, (x, vfy) = (r, vfy') → x ≠ 1 →
      VfyOk crypto vfy' db.adb ∧ (r = 1 → IdentityMatches crypto ectx db) := by
    intro x hx h1
    cases hx
    exact ⟨hv, fun h => absurd h h1⟩
  cases ectx with
  | none => exact hsame h (by decide)
  | some e =>
    simp only at h
    by_cases halg : identityAlg e = apkDigestNone ∨ identityAlg e = apkDigestSha1
    · rw [if_pos halg] at h
      exact hsame h (by decide)
    rw [if_neg halg] at h
    obtain ⟨res, v, hres⟩ : ∃ res v, adbDigestAdb crypto vfy (identityAlg e) db.adb = (res, v) :=
      ⟨_, _, rfl⟩
    rw [hres] at h
    cases res with
    | error x =>
      obtain ⟨rfl, hneg, -⟩ := adbDigestAdb_error hres
      exact hsame h (by omega)
    | ok md =>
      obtain ⟨hv', d, hd, ha⟩ := adbDigestAdb_ok hv hres
      simp only at h
      split_ifs at h with hg hc hs
      · cases h
        exact ⟨hv', fun h => absurd h (by decide)⟩
      · cases h
        exact ⟨hv', fun h => absurd h (by decide)⟩
      · cases h
        exact ⟨hv', fun h => absurd h (by decide)⟩
      cases h
      rw [not_not] at hc
      exact ⟨hv', fun _ => ⟨e, d, rfl, hd, by rw [ha, apkBlobCompare_eq_zero hc]⟩⟩

/-- a trusted key signed the schema, the header of the signature and the digest of the block -/
def SignedBy (crypto : Crypto K) (t : Option (Trust K)) (db : Adb) (sigb : Bytes) : Prop :=
  ∃ tr d key md, t = some tr ∧ key ∈ tr.trustedKeyList ∧ db.adb = some d ∧
    adbSignV0Size ≤ sigb.length ∧ (sigb.drop 2).take 16 = crypto.keyId key ∧
    algDigest crypto (sigb.getD 1 0).toNat d = some md ∧
    crypto.verify key (adbDigestV0Signature db.schema sigb md) (sigb.drop adbSignV0Size) = true

theorem verifyKeys_ok {tr : Trust K} {keys : List K} (hkeys : keys ⊆ tr.trustedKeyList)
    (hsize : adbSignV0Size ≤ sigb.length) (hv : VfyOk crypto vfy db.adb)
    (h : verifyKeys crypto db sigb keys vfy = (r, vfy')) :
    VfyOk crypto vfy' db.adb ∧ (r = 0 → SignedBy crypto (some tr) db sigb) := by
  induction keys generalizing vfy with
  | nil =>
    cases h
    exact ⟨hv, fun h => absurd h (by decide)⟩
  | cons key keys ih =>
    obtain ⟨hkey, hkeys⟩ := cons_subset.1 hkeys
    unfold verifyKeys at h
    by_cases hid : (sigb.drop 2).take 16 = crypto.keyId key
    · rw [if_neg (by simpa using hid)] at h
      obtain ⟨res, v, hres⟩ : ∃ res v, adbDigestAdb crypto vfy (sigb.getD 1 0).toNat db.adb =
        (res, v) := ⟨_, _, rfl⟩
      rw [hres] at h
      cases res with
      | error e => exact ih hkeys ((adbDigestAdb_error hres).1 ▸ hv) h
      | ok md =>
        obtain ⟨hv', d, hd, ha⟩ := adbDigestAdb_ok hv hres
        simp only at h
        split_ifs at h with hver
        · cases h
          exact ⟨hv', fun _ => ⟨tr, d, key, md, rfl, hkey, hd, hsize, hid, ha, hver⟩⟩
        · exact ih hkeys hv' h
    · rw [if_pos (by simpa using hid)] at h
      exact ih hkeys hv h

theorem adbTrustVerifySignature_ok {t : Option (Trust K)} (hv : VfyOk crypto vfy db.adb)
    (h : adbTrustVerifySignature crypto t db vfy sigb = (r, vfy')) :
    VfyOk crypto vfy' db.adb ∧ (r = 0 → SignedBy crypto t db sigb) := by
  have hfail : ∀ {x : ℤ}, (x, vfy) = (r, vfy') → x ≠ 0 →
      VfyOk crypto vfy' db.adb ∧ (r = 0 → SignedBy crypto t db sigb) := by
    intro x hx h0
    cases hx
    exact ⟨hv, fun h => absurd h h0⟩
  unfold adbTrustVerifySignature at h
  split_ifs at h with h1 h2 h3 h4
  · exact hfail h (by decide)
  · exact hfail h (by decide)
  · exact hfail h (by decide)
  · exact hfail h (by decide)
  cases t with
  | none => exact hfail h (by decide)
  | some tr => exact verifyKeys_ok (Subset.refl _) (not_lt.1 h4) hv h

end digests

section readers

variable {K κ : Type} (crypto : Crypto K) (t : Option (Trust K)) (ectx : Option ExtractCtx)

/-- why a block may be used, where the callback has seen `calls` so far -/
def Authentic (db : Adb) (calls : List AdbCall) : Prop :=
  trustAllowsUntrusted t = true ∨ IdentityMatches crypto ectx db ∨
    ∃ c ∈ calls, ∃ b, c.block = .sig b ∧ SignedBy crypto t db b

/-- one `ADB` block, signatures, and data blocks -/
def InOrder (calls : List AdbCall) : Prop :=
  calls = [] ∨ ∃ (sigs : List Bytes) (n : ℕ),
    calls.map AdbCall.block = .adb :: (sigs.map .sig ++ List.replicate n .data)

/-- every data block was authentic when the callback saw it -/
def DataAuthentic (calls : List AdbCall) : Prop :=
  ∀ pre c post, calls = pre ++ c :: post → c.block = .data → Authentic crypto t ectx c.db pre

/-- what is known of the order from the mask of allowed blocks -/
inductive Phase : ℕ → Option Bytes → List AdbSeen → Prop
  | start : Phase (2 ^ adbBlockAdb) none []
  | signed (b : Bytes) (sigs : List Bytes) :
      Phase (2 ^ adbBlockSig ||| 2 ^ adbBlockData) (some b) (.adb :: sigs.map .sig)
  | data (b : Bytes) (sigs : List Bytes) (n : ℕ) :
      Phase (2 ^ adbBlockData) (some b) (.adb :: (sigs.map .sig ++ List.replicate n .data))

structure ReaderInv (rd : AdbReader κ) : Prop where
  vfy : VfyOk crypto rd.vfy rd.db.adb
  phase : Phase rd.allowed rd.db.adb (rd.calls.map AdbCall.block)
  trusted : rd.trusted = true → Authentic crypto t ectx rd.db rd.calls
  data : DataAuthentic crypto t ectx rd.calls

theorem readerInv_init {schema : ℕ} {cbs : κ} :
    ReaderInv crypto t ectx (AdbReader.init t schema cbs) where
  vfy := vfyOk_empty crypto
  phase := Phase.start
  trusted := fun h => Or.inl h
  data := by
    intro pre c post h
    simp [AdbReader.init] at h

variable {crypto t ectx}

variable {m : ℕ} {adb : Option Bytes} {rd : AdbReader κ} {l : List AdbSeen}

theorem Phase.inOrder {calls : List AdbCall} (h : Phase m adb (calls.map AdbCall.block)) :
    InOrder calls := by
  generalize hl : calls.map AdbCall.block = l at h
  cases h with
  | start => exact Or.inl (map_eq_nil_iff.1 hl)
  | signed b sigs => exact Or.inr ⟨sigs, 0, by simpa using hl⟩
  | data b sigs n => exact Or.inr ⟨sigs, n, hl⟩

variable {b : Bytes} {db : Adb} {rd' : AdbReader κ} {r : ℤ}

theorem Authentic.append {calls : List AdbCall} (more : List AdbCall)
    (h : Authentic crypto t ectx db calls) : Authentic crypto t ectx db (calls ++ more) := by
  rcases h with h | h | ⟨c, hc, hb⟩
  · exact Or.inl h
  · exact Or.inr (Or.inl h)
  · exact Or.inr (Or.inr ⟨c, mem_append_left _ hc, hb⟩)

theorem authentic_start (h : Authentic crypto t ectx db []) (hn : db.adb = none) :
    trustAllowsUntrusted t = true := by
  rcases h with h | ⟨e, d, -, hd, -⟩ | ⟨c, hc, -⟩
  · exact h
  · rw [hn] at hd
    simp at hd
  · simp at hc

theorem DataAuthentic.snoc {calls : List AdbCall} {c : AdbCall} (h : DataAuthentic crypto t ectx calls)
    (hc : c.block = .data → Authentic crypto t ectx c.db calls) :
    DataAuthentic crypto t ectx (calls ++ [c]) := by
  intro pre d post he hd
  rcases eq_nil_or_concat post with rfl | ⟨post', e, rfl⟩
  · have hlast := append_inj' he rfl
    obtain ⟨rfl, hcd⟩ := hlast
    rw [← (cons.inj hcd).1] at hd ⊢
    exact hc hd
  · rw [concat_eq_append, ← cons_append, ← append_assoc] at he
    exact h pre d post' (append_inj' he rfl).1 hd

/-- the calls made so far are as they should be, whatever comes next -/
structure CallsOk (crypto : Crypto K) (t : Option (Trust K)) (ectx : Option ExtractCtx)
    (calls : List AdbCall) : Prop where
  order : InOrder calls
  data : DataAuthentic crypto t ectx calls

theorem ReaderInv.calls (h : ReaderInv crypto t ectx rd) :
    CallsOk crypto t ectx rd.calls := ⟨h.phase.inOrder, h.data⟩

/-- a reader that is about to show `seen` to the callback -/
structure Pending (crypto : Crypto K) (t : Option (Trust K)) (ectx : Option ExtractCtx)
    (rd : AdbReader κ) (seen : AdbSeen) : Prop where
  vfy : VfyOk crypto rd.vfy rd.db.adb
  phase : Phase rd.allowed rd.db.adb (rd.calls.map AdbCall.block ++ [seen])
  trusted : rd.trusted = true → Authentic crypto t ectx rd.db (rd.calls ++ [⟨rd.db, seen⟩])
  data : DataAuthentic crypto t ectx rd.calls
  next : seen = .data → Authentic crypto t ectx rd.db rd.calls

theorem readerCall_inv {τ : Type} {ops : IstreamOps τ} {cb : AdbCallback κ} {blk : AdbBlock}
    {seen : AdbSeen} {is is' : Istream τ} (hp : Pending crypto t ectx rd seen)
    (h : readerCall cb ops rd blk seen is = (r, is', rd')) : ReaderInv crypto t ectx rd' := by
  obtain ⟨-, -, rfl⟩ := h
  refine ⟨hp.vfy, ?_, hp.trusted, hp.data.snoc hp.next⟩
  simpa using hp.phase

theorem phase_adb (h : Phase m adb l) (hm : m.testBit adbBlockAdb = true) : adb = none ∧ l = [] := by
  cases h with
  | start => exact ⟨rfl, rfl⟩
  | signed b sigs => exact absurd hm (by decide)
  | data b sigs n => exact absurd hm (by decide)

theorem pending_adb (hi : ReaderInv crypto t ectx rd) (hm : rd.allowed.testBit adbBlockAdb = true)
    (h : readerIdentity crypto ectx { rd with allowed := 2 ^ adbBlockSig ||| 2 ^ adbBlockData } b = (r, rd')) :
    Pending crypto t ectx rd' .adb ∧ rd'.calls = rd.calls := by
  obtain ⟨hn, hl⟩ := phase_adb hi.phase hm
  have hcalls : rd.calls = [] := map_eq_nil_iff.1 hl
  have hv : VfyOk crypto rd.vfy (some b) := by
    -- nothing was cached before there was a block
    refine ⟨fun md hmd => ?_, fun md hmd => ?_⟩
    · obtain ⟨d, hd, -⟩ := hi.vfy.sha256 md hmd
      rw [hn] at hd
      simp at hd
    · obtain ⟨d, hd, -⟩ := hi.vfy.sha512 md hmd
      rw [hn] at hd
      simp at hd
  obtain ⟨-, rfl⟩ := h
  obtain ⟨hv', h1⟩ := adbHandleIdentity_ok ectx { rd.db with adb := some b } hv rfl
  refine ⟨⟨hv', ?_, ?_, hi.data, fun h => absurd h (by simp)⟩, rfl⟩
  · simp only [hcalls]
    exact Phase.signed b []
  intro ht
  rcases Bool.or_eq_true_iff.1 ht with ht | ht
  · have hauth := hi.trusted ht
    rw [hcalls] at hauth
    exact Or.inl (authentic_start hauth hn)
  · exact Or.inr (Or.inl (h1 (of_decide_eq_true ht)))

theorem phase_sig (h : Phase m adb l) (hm : m.testBit adbBlockSig = true) :
    Phase m adb (l ++ [.sig b]) := by
  cases h with
  | start => exact absurd hm (by decide)
  | signed c sigs =>
    have := Phase.signed c (sigs ++ [b])
    simpa using this
  | data c sigs n => exact absurd hm (by decide)

theorem pending_sig (hi : ReaderInv crypto t ectx rd) (hm : rd.allowed.testBit adbBlockSig = true) :
    Pending crypto t ectx (readerSignature crypto t rd b) (.sig b) ∧
      (readerSignature crypto t rd b).calls = rd.calls := by
  unfold readerSignature
  split_ifs with ht
  · exact ⟨⟨hi.vfy, phase_sig hi.phase hm, fun h => (hi.trusted h).append _, hi.data,
      fun h => absurd h (by simp)⟩, rfl⟩
  obtain ⟨hv', h0⟩ := adbTrustVerifySignature_ok hi.vfy rfl
  refine ⟨⟨hv', phase_sig hi.phase hm, ?_, hi.data, fun h => absurd h (by simp)⟩, rfl⟩
  intro hr
  exact Or.inr (Or.inr ⟨_, mem_append_right _ (mem_singleton.2 rfl), b, rfl, h0 (of_decide_eq_true hr)⟩)

theorem phase_data (h : Phase m adb l) (hm : m.testBit adbBlockData = true) :
    Phase (2 ^ adbBlockData) adb (l ++ [.data]) := by
  cases h with
  | start => exact absurd hm (by decide)
  | signed b sigs => exact Phase.data b sigs 1
  | data b sigs n =>
    have := Phase.data b sigs (n + 1)
    rw [replicate_succ', ← append_assoc] at this
    exact this

theorem pending_data (hi : ReaderInv crypto t ectx rd) (hm : rd.allowed.testBit adbBlockData = true)
    (ht : rd.trusted = true) :
    Pending crypto t ectx { rd with allowed := 2 ^ adbBlockData } .data :=
  ⟨hi.vfy, phase_data hi.phase hm, fun h => (hi.trusted h).append _, hi.data, fun _ => hi.trusted ht⟩

end readers

section frame

variable {K κ : Type} (crypto : Crypto K) (t : Option (Trust K)) (ectx : Option ExtractCtx)

def seenOf (type : ℕ) (b : Bytes) : AdbSeen :=
  if type = adbBlockAdb then .adb else if type = adbBlockSig then .sig b else .data

variable {type : ℕ}

/-- a type of block that is not allowed -/
abbrev RefusedType (m type : ℕ) : Prop := adbBlockMax ≤ type ∨ (!m.testBit type) = true

theorem type_cases {m : ℕ} (h : ¬ RefusedType m type) : m.testBit type = true ∧
      (type = adbBlockAdb ∨ type = adbBlockSig ∨ type = adbBlockData ∨ type = adbBlockExt) := by
  rw [not_or, Bool.not_eq_true, Bool.not_eq_false'] at h
  refine ⟨h.2, ?_⟩
  simp only [adbBlockMax, adbBlockAdb, adbBlockSig, adbBlockData, adbBlockExt] at *
  omega

theorem adbFileHeader_error {expectedSchema : ℕ} {data : Bytes} {e : ℤ}
    (h : adbFileHeader expectedSchema data = .error e) : e < 0 ∧ e ≠ -ecanceled := by
  unfold adbFileHeader at h
  simp only at h
  split_ifs at h <;> cases h <;> decide

theorem adbHandleIdentity_ne_canceled (vfy : AdbVerifyCtx) (b : Option Bytes) :
    (adbHandleIdentity crypto ectx vfy b).1 ≠ -ecanceled := by
  have h0 : (0 : ℤ) ≠ -ecanceled := by decide
  unfold adbHandleIdentity
  cases ectx with
  | none => exact h0
  | some e =>
    simp only
    by_cases halg : identityAlg e = apkDigestNone ∨ identityAlg e = apkDigestSha1
    · rw [if_pos halg]
      exact h0
    rw [if_neg halg]
    split
    · exact (adbDigestAdb_error ‹_›).2.2
    split_ifs
    · exact h0
    · exact h0
    · exact show -apkeAdbIntegrity ≠ -ecanceled by decide
    · exact show (1 : ℤ) ≠ -ecanceled by decide

theorem parseSwitch_frame {rd : AdbReader κ} {b : Bytes} :
    (parseSwitch crypto t ectx rd type b).2.1 = seenOf type b ∧
      (parseSwitch crypto t ectx rd type b).2.2.calls = rd.calls ∧
      (parseSwitch crypto t ectx rd type b).2.2.cbs = rd.cbs ∧
      (parseSwitch crypto t ectx rd type b).1 ≠ -ecanceled := by
  have h0 : (0 : ℤ) ≠ -ecanceled := by decide
  unfold parseSwitch seenOf
  by_cases hadb : type = adbBlockAdb
  · simp only
    split_ifs
    · exact ⟨rfl, rfl, rfl, show -apkeAdbBlock ≠ -ecanceled by decide⟩
    · exact ⟨rfl, rfl, rfl, show -apkeAdbVersion ≠ -ecanceled by decide⟩
    · exact ⟨rfl, rfl, rfl, adbHandleIdentity_ne_canceled crypto ectx _ _⟩
    · exact ⟨rfl, rfl, rfl, h0⟩
  simp only [hadb]
  by_cases hsig : type = adbBlockSig
  · simp only [hsig, reduceIte]
    unfold readerSignature
    split_ifs <;> exact ⟨trivial, rfl, rfl, h0⟩
  simp only [hsig, reduceIte]
  split_ifs
  · exact ⟨rfl, rfl, rfl, h0⟩
  · exact ⟨rfl, rfl, rfl, show -apkeSignatureUntrusted ≠ -ecanceled by decide⟩

variable {σ : Type}

theorem apkIstreamCloseError_neg (ops : IstreamOps σ) (is : Istream σ) {r : ℤ} (h : r < 0) :
    apkIstreamCloseError ops is r < 0 := by
  apply ops.close_neg
  unfold apkIstreamError
  simp only
  split_ifs with h1
  · exact h
  · push Not at h1
    omega

end frame

end Alpine
