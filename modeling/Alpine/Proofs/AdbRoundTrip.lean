import Alpine.Sanity.AdbWriter

/-! Every value that a writer returns reads back as what was written, after all writes that follow,
as long as the database stays within the offsets of an `adb_val_t`. A write either returns a value
that holds it all or adds some data to the database, through the cache or past it; the run is
carried by where the data of each value is, which no later write changes. -/

namespace Alpine

open List AdbWrite Option

structure AdbData where
  type : ℕ
  vec : List Bytes
  alignment : ℕ
  cached : Bool

def blobData (b : List Bytes) : Option AdbData :=
  let sz := b.flatten.length
  if 0xffff < sz then some ⟨adbTypeBlob32, htole32 sz :: b, 4, true⟩
  else if 0xff < sz then some ⟨adbTypeBlob16, (htole32 sz).take 2 :: b, 2, true⟩
  else if 0 < sz then some ⟨adbTypeBlob8, (htole32 sz).take 1 :: b, 1, true⟩
  else none

def objData (type : ℕ) (vals : List ℕ) : Option AdbData :=
  let vals := vals.rdropWhile (· = adbNull)
  if vals = [] then none
  else some ⟨type, [((vals.length + 1) :: vals).flatMap htole32], 4, true⟩

/-- a database as a block, in pieces -/
def blockVec (valdb : Blob) : List Bytes :=
  let blk := adbBlockInit adbBlockAdb valdb.1.length
  [blk.bytes.take (adbBlockHdrsize blk), valdb.1, List.replicate (adbBlockPadding blk) 0]

theorem blockVec_flatten {valdb : Blob} : (blockVec valdb).flatten = adbCBlock [] adbBlockAdb valdb := by
  simp [blockVec, adbCBlock]

def AdbWrite.data : AdbWrite → Option AdbData
  | .int val =>
    if 0x100000000 ≤ val.toNat then some ⟨adbTypeInt64, [htole64 val.toNat], 4, true⟩
    else if 0x10000000 ≤ val.toNat then some ⟨adbTypeInt32, [htole32 val.toNat], 4, true⟩
    else none
  | .blobVec b => blobData b.1
  | .blobRaw b => (blobData [b]).map fun d => { d with cached := false }
  | .obj vals => objData adbTypeObject (vals.map UInt32.toNat)
  | .arr vals => objData adbTypeArray (vals.map UInt32.toNat)
  | .adb valdb =>
    let vec := blockVec valdb
    if valdb.1.length ≤ 8 then none
    else some ⟨adbTypeBlob32, htole32 vec.flatten.length :: vec, 4, false⟩
  | .root _ => none

def AdbWrite.immediate : AdbWrite → ℕ
  | .int val => adbVal adbTypeInt val.toNat
  | _ => adbNull

/-- the alignment the readers rely on -/
def adbAlignment (type : ℕ) : ℕ :=
  if type = adbTypeBlob16 then 2
  else if type = adbTypeInt32 ∨ type = adbTypeInt64 ∨ type = adbTypeBlob32 ∨ type = adbTypeArray ∨
    type = adbTypeObject then 4
  else 1

/-- the types that come with an offset, each with its alignment -/
def adbKinds : List (ℕ × ℕ) :=
  [(adbTypeInt32, 4), (adbTypeInt64, 4), (adbTypeBlob8, 1), (adbTypeBlob16, 2), (adbTypeBlob32, 4),
    (adbTypeObject, 4), (adbTypeArray, 4)]

theorem adbKinds_ok : ∀ k ∈ adbKinds,
    k.1 % 2 ^ 28 = 0 ∧ k.1 < 2 ^ 32 ∧ k.2 ∣ 8 ∧ adbAlignment k.1 = k.2 := by
  decide

def AdbData.kind (d : AdbData) : ℕ × ℕ := (d.type, d.alignment)

variable {b : List Bytes} {d : AdbData} {type o v : ℕ} {vals : List ℕ} {w : AdbWrite} {adb : Bytes}

theorem blobData_kind (h : blobData b = some d) : d.kind ∈ adbKinds := by
  unfold blobData at h
  simp only at h
  split_ifs at h
  all_goals
    cases h
    simp [AdbData.kind, adbKinds]

theorem blobData_cached (h : blobData b = some d) : d.cached = true := by
  unfold blobData at h
  simp only at h
  split_ifs at h
  all_goals
    cases h
    rfl

theorem objData_kind (h : objData type vals = some d)
    (ht : type = adbTypeObject ∨ type = adbTypeArray) : d.kind ∈ adbKinds := by
  unfold objData at h
  simp only at h
  split_ifs at h
  cases h
  rcases ht with rfl | rfl
  all_goals simp [AdbData.kind, adbKinds]

theorem AdbWrite.data_kind (h : w.data = some d) : d.kind ∈ adbKinds := by
  cases w with
  | int val =>
    simp only [data] at h
    split_ifs at h
    all_goals
      cases h
      simp [AdbData.kind, adbKinds]
  | blobVec b => exact blobData_kind h
  | blobRaw b =>
    obtain ⟨d', hd, rfl⟩ := map_eq_some_iff.1 h
    have hkind := blobData_kind hd
    exact hkind
  | obj vals => exact objData_kind h (Or.inl rfl)
  | arr vals => exact objData_kind h (Or.inr rfl)
  | adb valdb =>
    simp only [data] at h
    split_ifs at h
    cases h
    simp [AdbData.kind, adbKinds]
  | root val => cases h

theorem AdbWrite.data_ne_nil (h : w.data = some d) : d.vec.flatten ≠ [] := by
  cases w with
  | root val => cases h
  | blobRaw b =>
    obtain ⟨d', hd, rfl⟩ := map_eq_some_iff.1 h
    simp only [blobData] at hd
    split_ifs at hd
    all_goals
      cases hd
      exact cons_ne_nil _ _
  | _ =>
    simp only [data, blobData, objData] at h
    split_ifs at h
    all_goals
      cases h
      exact cons_ne_nil _ _

section

variable (fresh : ℕ → UInt8) (hash : List Bytes → ℕ)

def adbStore (db : AdbWriter) (d : AdbData) : Option (ℕ × AdbWriter) :=
  if d.cached then adbWData fresh hash db d.vec d.alignment
  else adbWRaw fresh db d.vec d.alignment

theorem adbWBlobVec_eq {db : AdbWriter} (hb : b.length ≤ 4) : adbWBlobVec fresh hash db b =
      (blobData b).elim (some (adbNull, db)) fun d => adbWVal fresh hash db d.type d.vec d.alignment := by
  unfold adbWBlobVec blobData
  simp only [if_neg (Nat.not_lt.2 hb)]
  split_ifs <;> rfl

variable {vec : List Bytes} {alignment : ℕ}

theorem adbWRaw_noCache {db : AdbWriter} {n : ℕ} : adbWRaw fresh { db with noCache := n } vec alignment =
      (adbWRaw fresh db vec alignment).map fun r => (r.1, { r.2 with noCache := n }) := by
  unfold adbWRaw
  simp only
  cases poke db.mem db.len (replicate (roundUp db.len alignment - db.len) 0) with
  | none => rfl
  | some mem =>
    have hres : adbWReserve fresh { db with noCache := n } mem = adbWReserve fresh db mem := rfl
    rw [bind_some, bind_some, hres]
    cases adbWReserve fresh db mem (roundUp db.len alignment + vec.flatten.length) with
    | none => rfl
    | some mem =>
      rw [bind_some, bind_some]
      cases poke mem (roundUp db.len alignment) vec.flatten <;> rfl

variable {db : AdbWriter} {d : AdbData} {w : AdbWrite}

theorem adbWVal_noCache (hc : db.noCache = 0) :
    ((adbWVal fresh hash { db with noCache := (db.noCache + 1) % 2 ^ 8 } type vec alignment).map
        fun r => (r.1, { r.2 with noCache := (r.2.noCache + 2 ^ 8 - 1) % 2 ^ 8 })) =
      (adbWRaw fresh db vec alignment).map fun r => (adbVal type r.1, r.2) := by
  have hone : (db.noCache + 1) % 2 ^ 8 ≠ 0 := by omega
  rw [adbWVal, adbWData, if_pos hone, adbWRaw_noCache]
  cases h : adbWRaw fresh db vec alignment with
  | none => rfl
  | some r =>
    have hr : r.2.noCache = 0 := by
      unfold adbWRaw at h
      simp only [bind_eq_some_iff, map_eq_some_iff] at h
      obtain ⟨_, _, _, _, _, _, rfl⟩ := h
      exact hc
    have hback : ((db.noCache + 1) % 2 ^ 8 + 2 ^ 8 - 1) % 2 ^ 8 = r.2.noCache := by omega
    simp only [map_some, hback]

theorem adbWObj_eq : adbWObj fresh hash db type vals = (objData type vals).elim (some (adbNull, db))
        fun d => adbWVal fresh hash db d.type d.vec d.alignment := by
  unfold adbWObj objData
  simp only
  split_ifs <;> rfl

theorem adbWObj_of_data (h : objData type vals = some d) : adbWObj fresh hash db type vals =
      (adbStore fresh hash db d).map fun r => (adbVal d.type r.1, r.2) := by
  have hcached : d.cached = true := by
    unfold objData at h
    simp only at h
    split_ifs at h
    cases h
    rfl
  rw [adbWObj_eq, h, elim_some, adbWVal, adbStore, if_pos hcached]

theorem adbWrite_of_data (hc : db.noCache = 0) (h : w.data = some d) : adbWrite fresh hash db w =
      (adbStore fresh hash db d).map fun r => (adbVal d.type r.1, r.2) := by
  cases w with
  | int val =>
    simp only [data] at h
    split_ifs at h with h64 h32
    · cases h
      simp only [adbWrite, adbWInt, if_pos h64]
      rfl
    · cases h
      simp only [adbWrite, adbWInt, if_neg h64, if_pos h32]
      rfl
  | blobVec b =>
    rw [adbWrite, adbWBlobVec_eq fresh hash b.2, show blobData b.1 = some d from h,
      elim_some, adbWVal, adbStore, if_pos (blobData_cached h)]
  | blobRaw b =>
    obtain ⟨d', hd, rfl⟩ := map_eq_some_iff.1 h
    rw [adbWrite, adbWBlobRaw, adbWBlob, adbWBlobVec_eq fresh hash (by simp), hd]
    exact adbWVal_noCache fresh hash hc
  | obj vals => exact adbWObj_of_data fresh hash h
  | arr vals => exact adbWObj_of_data fresh hash h
  | adb valdb =>
    simp only [data] at h
    split_ifs at h with h8
    cases h
    simp only [adbWrite, adbWAdb, if_neg h8]
    rfl
  | root val => cases h

theorem adbWrite_of_no_data (hc : db.noCache = 0) (h : w.data = none) (hroot : ∀ val, w ≠ .root val) :
    adbWrite fresh hash db w = some (w.immediate, db) := by
  cases w with
  | int val =>
    simp only [data] at h
    split_ifs at h with h64 h32
    simp only [adbWrite, adbWInt, if_neg h64, if_neg h32]
    rfl
  | blobVec b =>
    rw [adbWrite, adbWBlobVec_eq fresh hash b.2, show blobData b.1 = none from h]
    rfl
  | blobRaw b =>
    have hback : ((db.noCache + 1) % 2 ^ 8 + 2 ^ 8 - 1) % 2 ^ 8 = db.noCache := by omega
    rw [adbWrite, adbWBlobRaw, adbWBlob, adbWBlobVec_eq fresh hash (by simp),
      map_eq_none_iff.1 h, elim_none, map_some]
    simp only [hback]
    rfl
  | obj vals =>
    rw [adbWrite, adbWObj_eq, show objData _ _ = none from h]
    rfl
  | arr vals =>
    rw [adbWrite, adbWObj_eq, show objData _ _ = none from h]
    rfl
  | adb valdb =>
    simp only [data] at h
    split_ifs at h with h8
    simp only [adbWrite, adbWAdb, if_pos h8]
    rfl
  | root val => exact absurd rfl (hroot val)

def AdbWriter.lenAfter (db : AdbWriter) (w : AdbWrite) : ℕ :=
  match w.data with
  | none => db.len
  | some d =>
    if d.cached then db.lenWith hash d.vec d.alignment
    else roundUp db.len d.alignment + d.vec.flatten.length

/-- the database stays within the offsets of 28 bits all along some writes -/
def WithinRange (db : AdbWriter) : List AdbWrite → Prop
  | [] => True
  | w :: ws =>
    db.lenAfter hash w ≤ 2 ^ 28 ∧ ∀ r ∈ adbWrite fresh hash db w, WithinRange r.2 ws

instance decidableWithinRange : ∀ (db : AdbWriter) (ws : List AdbWrite),
    Decidable (WithinRange fresh hash db ws)
  | _, [] => .isTrue trivial
  | db, w :: ws =>
    have : ∀ r : ℕ × AdbWriter, Decidable (WithinRange fresh hash r.2 ws) :=
      fun r => decidableWithinRange r.2 ws
    inferInstanceAs (Decidable (db.lenAfter hash w ≤ 2 ^ 28 ∧ ∀ r ∈ adbWrite fresh hash db w, _))

structure AdbWriter.Ready (db : AdbWriter) : Prop where
  ok : db.Ok
  noCache : db.noCache = 0
  hdr : 8 ≤ db.len

structure AdbData.At (d : AdbData) (adb : Bytes) (o : ℕ) : Prop where
  offs : 8 ≤ o
  aligned : o % d.alignment = 0
  bound : o + d.vec.flatten.length ≤ 2 ^ 28
  data : d.vec.flatten <+: adb.drop o

def AdbWrite.At (w : AdbWrite) (adb : Bytes) (v : ℕ) : Prop :=
  match w.data with
  | none => v = w.immediate
  | some d => ∃ o, v = adbVal d.type o ∧ d.At adb o

theorem AdbWrite.At.mono {adb' : Bytes} (h : w.At adb v) (hkept : adb.drop 8 <+: adb'.drop 8) :
    w.At adb' v := by
  unfold AdbWrite.At at h ⊢
  cases hd : w.data with
  | none =>
    rw [hd] at h
    exact h
  | some d =>
    rw [hd] at h
    obtain ⟨o, hv, hat⟩ := h
    refine ⟨o, hv, hat.offs, hat.aligned, hat.bound, hat.data.trans ?_⟩
    have hdrop := hkept.drop (o - 8)
    rwa [drop_drop, drop_drop, Nat.add_sub_cancel' hat.offs] at hdrop

theorem adbStore_stored (h : db.Ready) (hd : w.data = some d) (hn : db.lenAfter hash w ≤ 2 ^ 28) :
    ∃ o db', adbStore fresh hash db d = some (o, db') ∧
      db.Stored d.vec.flatten d.alignment o db' ∧ db'.len = db.lenAfter hash w := by
  have halign := (adbKinds_ok _ (data_kind hd)).2.2.1
  rw [AdbWriter.lenAfter, hd] at hn ⊢
  unfold adbStore
  by_cases hcached : d.cached = true
  · simp only [hcached] at hn ⊢
    exact adbWData_stored fresh hash h.ok h.noCache h.hdr halign hn
  · simp only [hcached] at hn ⊢
    obtain ⟨db', heq, hst, -, hlen⟩ := adbWRaw_stored fresh h.ok h.hdr halign hn
    exact ⟨_, db', heq, hst, hlen⟩

theorem adbWRoot_some (h : db.Ready) {val : ℕ} :
    ∃ db', adbWRoot db val = some db' ∧ db'.Ready ∧ db'.adb.drop 8 = db.adb.drop 8 ∧
      db'.len = db.len := by
  have hroom := h.ok.room
  have hhdr := h.hdr
  have hpoke : poke db.mem 4 (htole32 val) = some (db.mem.take 4 ++ htole32 val ++ db.mem.drop 8) :=
    poke_eq (by rw [htole32_length]; omega)
  have h8 : (db.mem.take 4 ++ htole32 val).length = 8 := by
    rw [length_append, length_take, htole32_length]
    omega
  have hlen : (db.mem.take 4 ++ htole32 val ++ db.mem.drop 8).length = db.mem.length := by
    rw [length_append, length_drop]
    omega
  refine ⟨{ db with mem := db.mem.take 4 ++ htole32 val ++ db.mem.drop 8 }, ?_, ⟨⟨?_, ?_, ?_,
    h.ok.buckets, h.ok.entries⟩, h.noCache, hhdr⟩, ?_, rfl⟩
  · rw [adbWRoot, if_neg (by omega), hpoke]
    rfl
  · rw [hlen]
    exact hroom
  · rw [hlen]
    exact h.ok.aligned
  · rw [hlen]
    exact h.ok.alloc
  · rw [AdbWriter.adb, AdbWriter.adb, drop_take, drop_take, drop_left' h8]

theorem adbWrite_some (h : db.Ready) (hn : db.lenAfter hash w ≤ 2 ^ 28) :
    ∃ v db', adbWrite fresh hash db w = some (v, db') ∧ db'.Ready ∧
      db.adb.drop 8 <+: db'.adb.drop 8 ∧ w.At db'.adb v ∧ db'.len = db.lenAfter hash w := by
  cases hd : w.data with
  | some d =>
    obtain ⟨o, db', heq, hst, hlen⟩ := adbStore_stored fresh hash h hd hn
    refine ⟨adbVal d.type o, db', ?_, ⟨hst.ok, hst.noCache.trans h.noCache, ?_⟩, hst.kept.drop 8,
      ?_, hlen⟩
    · rw [adbWrite_of_data fresh hash h.noCache hd, heq, map_some]
    · have := hst.offs
      have := hst.inside
      omega
    · rw [AdbWrite.At, hd]
      exact ⟨o, rfl, hst.offs, hst.aligned, hst.bound, hst.data⟩
  | none =>
    have hsame : db.len = db.lenAfter hash w := by rw [AdbWriter.lenAfter, hd]
    by_cases hroot : ∃ val, w = .root val
    · obtain ⟨val, rfl⟩ := hroot
      obtain ⟨db', heq, hready, hadb, hlen⟩ := adbWRoot_some h
      refine ⟨adbNull, db', ?_, hready, ?_, rfl, hlen.trans hsame⟩
      · rw [adbWrite, heq, map_some]
      · exact hadb ▸ prefix_rfl
    · refine ⟨w.immediate, db, ?_, h, prefix_rfl, ?_, hsame⟩
      · exact adbWrite_of_no_data fresh hash h.noCache hd fun val heq => hroot ⟨val, heq⟩
      · rw [AdbWrite.At, hd]

theorem adbWrites_some (h : db.Ready) {ws : List AdbWrite} (hr : WithinRange fresh hash db ws) :
    ∃ vals db', adbWrites fresh hash db ws = some (vals, db') ∧
      db.adb.drop 8 <+: db'.adb.drop 8 ∧ List.Forall₂ (fun w v => w.At db'.adb v) ws vals := by
  induction ws generalizing db with
  | nil => exact ⟨[], db, rfl, prefix_rfl, List.Forall₂.nil⟩
  | cons w ws ih =>
    obtain ⟨v, db1, heq, hready, hkept, hat, -⟩ := adbWrite_some fresh hash h hr.1
    obtain ⟨vals, db2, hrun, hkept2, hall⟩ := ih hready (hr.2 _ heq)
    refine ⟨v :: vals, db2, ?_, hkept.trans hkept2, List.Forall₂.cons (hat.mono hkept2) hall⟩
    rw [adbWrites, heq, bind_some, hrun, map_some]

end

theorem AdbData.At.value (h : d.At adb o) (hd : w.data = some d) :
    adbValValue (adbVal d.type o) = o ∧ adbValType (adbVal d.type o) = d.type := by
  obtain ⟨ht, hlt, -⟩ := adbKinds_ok _ (data_kind hd)
  have hb := h.bound
  have hpos := length_pos_of_ne_nil (data_ne_nil hd)
  exact ⟨adbValValue_adbVal ht hlt (by omega), adbValType_adbVal ht hlt (by omega)⟩

theorem blob_reads {b : Bytes} (width : ℕ) (hv : adbValValue v = o) (ht : adbValType v = type)
    (htype : (type, width) ∈ [(adbTypeBlob8, 1), (adbTypeBlob16, 2), (adbTypeBlob32, 4)])
    (hb : b.length < 256 ^ width) (h : (htole32 b.length).take width ++ b <+: adb.drop o) :
    adbRBlob adb v = some b := by
  have hof : 0 < width → width ≤ 4 → adbRBlobOf adb v width = some b :=
    fun h0 h4 => adbRBlobOf_some hv h0 h4 hb h
  simp only [mem_cons, not_mem_nil, or_false] at htype
  rw [adbRBlob, ht]
  rcases htype with ⟨rfl, rfl⟩ | ⟨rfl, rfl⟩ | ⟨rfl, rfl⟩
  · rw [if_pos rfl]
    exact hof (by decide) (by decide)
  · rw [if_neg (by decide)]
    exact hof (by decide) (by decide)
  · rw [if_neg (by decide)]
    exact hof (by decide) (by decide)

theorem blobData_reads (hd : blobData b = some d) (h : d.At adb o) (hv : adbValValue v = o)
    (ht : adbValType v = d.type) : adbRBlob adb v = some b.flatten := by
  have hb := h.bound
  have hdata := h.data
  unfold blobData at hd
  simp only at hd
  split_ifs at hd with h32 h16 h8
  · cases hd
    rw [flatten_cons, length_append] at hb
    exact blob_reads 4 hv ht (by simp) (by omega) hdata
  · cases hd
    exact blob_reads 2 hv ht (by simp) (by omega) hdata
  · cases hd
    exact blob_reads 1 hv ht (by simp) (by omega) hdata

theorem blobData_ne_none (hne : b.flatten ≠ []) : blobData b ≠ none := by
  have hpos := length_pos_of_ne_nil hne
  unfold blobData
  simp only
  split_ifs <;> simp

/-- an object or an array holds the entries, as many as there are up to the last that is not null -/
def ObjReads (adb : Bytes) (v : ℕ) (vals : List ℕ) : Prop :=
  (adbRObj adb v).num = (vals.rdropWhile (· = adbNull)).length + 1 ∧
    ∀ i, adbRoVal (adbRObj adb v) (i + 1) = vals.getD i adbNull

theorem getD_rdropWhile (vals : List ℕ) (i : ℕ) :
    (vals.rdropWhile (· = adbNull)).getD i adbNull = vals.getD i adbNull := by
  induction vals using reverseRecOn with
  | nil => rfl
  | append_singleton vals x ih =>
    by_cases hx : x = adbNull
    · rw [rdropWhile_concat_pos _ _ _ (by simpa using hx), ih]
      rcases Nat.lt_trichotomy i vals.length with hi | rfl | hi
      · rw [getD_append _ _ _ _ hi]
      · simp [hx]
      · rw [getD_eq_default _ _ (by omega), getD_eq_default _ _ (by simp; omega)]
    · rw [rdropWhile_concat_neg _ _ _ (by simpa using hx)]

theorem objReads_of_eq
    (h : adbRObj adb v = ⟨(vals.rdropWhile (· = adbNull)).length + 1,
      ((vals.rdropWhile (· = adbNull)).length + 1) :: vals.rdropWhile (· = adbNull)⟩) :
    ObjReads adb v vals := by
  refine ⟨by rw [h], fun i => ?_⟩
  rw [h, adbRoVal, ← getD_rdropWhile vals]
  simp only
  split_ifs with hi
  · exact (getD_eq_default _ _ (by omega)).symm
  · exact getD_cons_succ

theorem objData_reads (htype : type = adbTypeObject ∨ type = adbTypeArray)
    (hvals : ∀ x ∈ vals, x < 2 ^ 32) (hd : objData type vals = some d) (h : d.At adb o)
    (hv : adbValValue v = o) (ht : adbValType v = d.type) : ObjReads adb v vals := by
  have hb := h.bound
  have hdata := h.data
  unfold objData at hd
  simp only at hd
  split_ifs at hd with hnil
  cases hd
  rw [flatten_singleton] at hdata hb
  rw [flatMap_htole32_length, length_cons] at hb
  refine objReads_of_eq (adbRObj_some hv ?_ hdata ?_ (by omega))
  · rw [ht]
    exact htype.symm
  · exact fun x hx => hvals x ((List.rdropWhile_prefix _ _).subset hx)

theorem objReads_null (hd : objData type vals = none) : ObjReads adb adbNull vals := by
  unfold objData at hd
  simp only at hd
  split_ifs at hd with hnil
  refine ⟨by rw [hnil]; rfl, fun i => ?_⟩
  rw [← getD_rdropWhile vals, hnil]
  exact if_pos (Nat.le_add_left 1 i)

theorem toNat_map_lt {vals : List UInt32} : ∀ x ∈ vals.map UInt32.toNat, x < 2 ^ 32 := by
  intro x hx
  obtain ⟨y, -, rfl⟩ := mem_map.1 hx
  exact y.toNat_lt

def AdbWrite.ReadsBack (adb : Bytes) (v : ℕ) : AdbWrite → Prop
  | .int val => adbRInt adb v = val.toNat
  | .blobVec b => b.1.flatten ≠ [] → adbRBlob adb v = some b.1.flatten
  | .blobRaw b => b ≠ [] → adbRBlob adb v = some b
  | .obj vals => ObjReads adb v (vals.map UInt32.toNat)
  | .arr vals => ObjReads adb v (vals.map UInt32.toNat)
  | .adb valdb => 8 < valdb.1.length → adbRBlob adb v = some (adbCBlock [] adbBlockAdb valdb)
  | .root _ => True

theorem AdbWrite.At.readsBack (h : w.At adb v) : w.ReadsBack adb v := by
  unfold AdbWrite.At at h
  cases hd : w.data with
  | none =>
    rw [hd] at h
    subst h
    cases w with
    | int val =>
      simp only [data] at hd
      split_ifs at hd with h64 h32
      have ht : adbValType (adbVal adbTypeInt val.toNat) = adbTypeInt :=
        adbValType_adbVal (by decide) (by decide) (by omega)
      have hv : adbValValue (adbVal adbTypeInt val.toNat) = val.toNat :=
        adbValValue_adbVal (by decide) (by decide) (by omega)
      exact (if_pos ht).trans hv
    | blobVec b => exact fun hne => absurd hd (blobData_ne_none hne)
    | blobRaw b =>
      refine fun hne => absurd (map_eq_none_iff.1 hd) (blobData_ne_none ?_)
      rwa [flatten_singleton]
    | obj vals => exact objReads_null hd
    | arr vals => exact objReads_null hd
    | adb valdb =>
      intro h8
      simp only [data] at hd
      split_ifs at hd
      omega
    | root val => trivial
  | some d =>
    rw [hd] at h
    obtain ⟨o, rfl, hat⟩ := h
    obtain ⟨hv, ht⟩ := hat.value hd
    have hdata := hat.data
    cases w with
    | int val =>
      have hlt := val.toNat_lt
      simp only [data] at hd
      split_ifs at hd with h64 h32
      · cases hd
        exact adbRInt_int64 hv ht hdata hlt
      · cases hd
        exact adbRInt_int32 hv ht hdata (by omega)
    | blobVec b => exact fun _ => blobData_reads hd hat hv ht
    | blobRaw b =>
      obtain ⟨d', hd', rfl⟩ := map_eq_some_iff.1 hd
      intro _
      rw [blobData_reads hd' ⟨hat.offs, hat.aligned, hat.bound, hdata⟩ hv ht, flatten_singleton]
    | obj vals => exact objData_reads (Or.inl rfl) toNat_map_lt hd hat hv ht
    | arr vals => exact objData_reads (Or.inr rfl) toNat_map_lt hd hat hv ht
    | adb valdb =>
      have hb := hat.bound
      simp only [data] at hd
      split_ifs at hd
      cases hd
      rw [flatten_cons, length_append] at hb
      intro _
      rw [← blockVec_flatten]
      exact blob_reads 4 hv ht (by simp) (by omega) hdata
    | root val => trivial

theorem AdbWrite.At.aligned (h : w.At adb v) : adbValValue v % adbAlignment (adbValType v) = 0 := by
  unfold AdbWrite.At at h
  cases hd : w.data with
  | none =>
    rw [hd] at h
    subst h
    cases w with
    | int val =>
      simp only [data] at hd
      split_ifs at hd with h64 h32
      rw [immediate, adbValType_adbVal (by decide) (by decide) (by omega)]
      exact Nat.mod_one _
    | _ => exact show adbValValue adbNull % adbAlignment (adbValType adbNull) = 0 by decide
  | some d =>
    rw [hd] at h
    obtain ⟨o, rfl, hat⟩ := h
    obtain ⟨hv, ht⟩ := hat.value hd
    have halign : adbAlignment d.type = d.alignment := (adbKinds_ok _ (data_kind hd)).2.2.2
    rw [hv, ht, halign]
    exact hat.aligned

theorem adbWInitDynamic_some {fresh : ℕ → UInt8} {numBuckets : ℕ} (hb : 0 < numBuckets) :
    ∃ db, adbWInitDynamic fresh numBuckets = some db ∧ db.Ready := by
  have hok : (⟨[], 0, numBuckets, 0, fun _ => []⟩ : AdbWriter).Ok :=
    ⟨Nat.le_refl 0, rfl, Nat.two_pow_pos 32, hb, fun _ _ he => absurd he not_mem_nil⟩
  obtain ⟨db, heq, hdb, -, hlen, -, hcache⟩ := adbWRaw_some fresh hok (Nat.dvd_refl 8)
    (show roundUp 0 8 + [adbHdr].flatten.length ≤ 2 ^ 28 by decide)
  have h8 : roundUp 0 8 + [adbHdr].flatten.length = 8 := by decide
  refine ⟨db, ?_, hdb, hcache, (h8.symm.trans hlen.symm).le⟩
  rw [adbWInitDynamic, if_neg (by omega), heq, map_some]

/-- the values of all writes read back after the last one, and no write is outside the allocation -/
theorem adb_writes_read_back (fresh : ℕ → UInt8) (hash : List Bytes → ℕ) {numBuckets : ℕ}
    (hb : 0 < numBuckets) (ws : List AdbWrite)
    (hr : ∀ db ∈ adbWInitDynamic fresh numBuckets, WithinRange fresh hash db ws) :
    ∃ db vals db', adbWInitDynamic fresh numBuckets = some db ∧
      adbWrites fresh hash db ws = some (vals, db') ∧
      List.Forall₂ (fun w v => w.ReadsBack db'.adb v ∧
        adbValValue v % adbAlignment (adbValType v) = 0) ws vals := by
  obtain ⟨db, hinit, hready⟩ := adbWInitDynamic_some hb
  obtain ⟨vals, db', hrun, -, hall⟩ := adbWrites_some fresh hash hready (hr db hinit)
  exact ⟨db, vals, db', hinit, hrun, hall.imp fun w v h => ⟨h.readsBack, h.aligned⟩⟩

theorem adb_writes_read_back_cached :
    let ws := [.blobVec ⟨[[97], [98]], by decide⟩, .int 0x10000000, .blobRaw [97, 98],
      .blobVec ⟨[[97, 98]], by decide⟩, .arr [0, 5]]
    ∃ db vals db', adbWInitDynamic (fun _ => 0) 1 = some db ∧
      adbWrites (fun _ => 0) List.length db ws = some (vals, db') ∧
      List.Forall₂ (fun w v => w.ReadsBack db'.adb v ∧
        adbValValue v % adbAlignment (adbValType v) = 0) ws vals :=
  adb_writes_read_back (fun _ => 0) List.length (by decide) _ (by decide +kernel)

end Alpine
