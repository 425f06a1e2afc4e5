import Alpine.Sanity.Bytes

/-! What a write does to a database: its data goes to the end, what was there stays, and the cache
refers only to data that is there. The allocation is a multiple of 8 bytes long, which is why the
padding before some data fits into it. -/

namespace Alpine

open List Option

variable {need o type : ℕ} {mem : Bytes} {fresh : ℕ → UInt8} {db : AdbWriter}

section

variable (ht : type % 2 ^ 28 = 0) (hlt : type < 2 ^ 32) (ho : o < 2 ^ 28)
include ht hlt ho

theorem adbVal_eq : adbVal type o = type + o := by
  obtain ⟨t, rfl⟩ := Nat.dvd_of_mod_eq_zero ht
  unfold adbVal
  rw [← Nat.two_pow_add_eq_or_of_lt ho]
  omega

theorem adbValValue_adbVal : adbValValue (adbVal type o) = o := by
  rw [adbVal_eq ht hlt ho, adbValValue, show 0x0fffffff = 2 ^ 28 - 1 from rfl,
    Nat.and_two_pow_sub_one_eq_mod]
  omega

theorem adbValType_adbVal : adbValType (adbVal type o) = type := by
  rw [adbVal_eq ht hlt ho, adbValType]
  -- the mask has the upper four bits only
  have hlow : (type + o &&& 0xf0000000) % 2 ^ 28 = 0 := by
    rw [Nat.and_mod_two_pow]
    exact Nat.and_zero _
  have hhigh : (type + o &&& 0xf0000000) / 2 ^ 28 = type / 2 ^ 28 := by
    rw [Nat.and_div_two_pow, show 0xf0000000 / 2 ^ 28 = 2 ^ 4 - 1 from rfl,
      Nat.and_two_pow_sub_one_eq_mod]
    omega
  omega

end

theorem poke_eq {b : Bytes} {offs : ℕ} (h : offs + b.length ≤ mem.length) :
    poke mem offs b = some (mem.take offs ++ b ++ mem.drop (offs + b.length)) :=
  if_neg (by omega)

/-- the doubling ends with room for what is needed, and the allocation stays a multiple of 8 -/
theorem growAlloc_some (hn : need ≤ 2 ^ 28) {k : ℕ} {alloc : ℕ} (ha : alloc % 8 = 0)
    (hlt : alloc < 2 ^ 32) (hk : need ≤ alloc * 2 ^ k) :
    ∃ a, growAlloc need (k + 1) alloc = some a ∧ need ≤ a ∧ a % 8 = 0 ∧ a < 2 ^ 32 := by
  induction k generalizing alloc with
  | zero =>
    have hle : ¬ alloc < need := by omega
    exact ⟨alloc, if_neg hle, by omega, ha, hlt⟩
  | succ k ih =>
    by_cases hle : alloc < need
    · rw [growAlloc, if_pos hle, Nat.mod_eq_of_lt (by omega)]
      refine ih (by omega) (by omega) ?_
      calc need ≤ alloc * 2 ^ (k + 1) := hk
        _ = alloc * 2 * 2 ^ k := by rw [pow_succ]; ring
    · exact ⟨alloc, if_neg hle, by omega, ha, hlt⟩

theorem reallocMem_length {size : ℕ} (h : mem.length ≤ size) :
    (reallocMem fresh mem size).length = size := by
  rw [reallocMem, length_append, length_map, length_range]
  omega

theorem adbWReserve_some (hb : 0 < db.numBuckets) (ha : mem.length % 8 = 0)
    (hlt : mem.length < 2 ^ 32) (hn : need ≤ 2 ^ 28) :
    ∃ mem', adbWReserve fresh db mem need = some mem' ∧ mem <+: mem' ∧ need ≤ mem'.length ∧
      mem'.length % 8 = 0 ∧ mem'.length < 2 ^ 32 := by
  unfold adbWReserve
  by_cases hroom : mem.length < need
  · rw [if_pos hroom, if_neg (by omega)]
    obtain ⟨a, hgrow, hneed, ha8, halt⟩ : ∃ a, growAlloc need 33
        (if mem.length = 0 then 8192 else mem.length) = some a ∧ need ≤ a ∧ a % 8 = 0 ∧ a < 2 ^ 32 :=
      growAlloc_some hn (by split_ifs <;> omega) (by split_ifs <;> omega) (by split_ifs <;> omega)
    rw [hgrow]
    have hlen : (reallocMem fresh mem a).length = a := reallocMem_length (by omega)
    exact ⟨_, rfl, prefix_append _ _, by omega, by omega, by omega⟩
  · rw [if_neg hroom]
    exact ⟨mem, rfl, prefix_rfl, by omega, ha, hlt⟩

structure AdbWriter.Ok (db : AdbWriter) : Prop where
  room : db.len ≤ db.mem.length
  aligned : db.mem.length % 8 = 0
  alloc : db.mem.length < 2 ^ 32
  buckets : 0 < db.numBuckets
  entries : ∀ no, ∀ e ∈ db.bucket no, 8 ≤ e.offs ∧ e.offs + e.len ≤ db.len

theorem AdbWriter.Ok.adb_length (h : db.Ok) : db.adb.length = db.len := by
  rw [AdbWriter.adb, length_take]
  exact Nat.min_eq_left h.room

/-- some data is added to a database: at an offset as it has to be, and after what is there -/
structure AdbWriter.Stored (db : AdbWriter) (data : Bytes) (alignment o : ℕ) (db' : AdbWriter) :
    Prop where
  ok : db'.Ok
  noCache : db'.noCache = db.noCache
  kept : db.adb <+: db'.adb
  offs : 8 ≤ o
  aligned : o % alignment = 0
  inside : o + data.length ≤ db'.len
  bound : o + data.length ≤ 2 ^ 28
  data : data <+: db'.adb.drop o

section

variable (fresh : ℕ → UInt8) (hash : List Bytes → ℕ)

variable {db : AdbWriter} {vec : List Bytes} {alignment i : ℕ}

theorem adbWRaw_some (h : db.Ok) (ha : alignment ∣ 8)
    (hn : roundUp db.len alignment + vec.flatten.length ≤ 2 ^ 28) :
    ∃ db', adbWRaw fresh db vec alignment = some (roundUp db.len alignment, db') ∧ db'.Ok ∧
      db'.adb = db.adb ++ replicate (roundUp db.len alignment - db.len) 0 ++ vec.flatten ∧
      db'.len = roundUp db.len alignment + vec.flatten.length ∧
      db'.bucket = db.bucket ∧ db'.noCache = db.noCache := by
  set offs := roundUp db.len alignment with hoffs
  have hpos : 0 < alignment := Nat.pos_of_dvd_of_pos ha (by norm_num)
  have hle : db.len ≤ offs := le_roundUp hpos
  -- the allocation is a multiple of the alignment, so the padding is inside of it
  have hin : offs ≤ db.mem.length := roundUp_le hpos h.room
    (Nat.mod_eq_zero_of_dvd (ha.trans (Nat.dvd_of_mod_eq_zero h.aligned)))
  have hpoke : poke db.mem db.len (replicate (offs - db.len) 0) =
      some (db.adb ++ replicate (offs - db.len) 0 ++ db.mem.drop offs) := by
    have hlen : db.len + (replicate (offs - db.len) (0 : UInt8)).length = offs := by
      rw [length_replicate]
      omega
    rw [poke_eq (by omega), hlen]
    rfl
  have hpad : (db.adb ++ replicate (offs - db.len) 0).length = offs := by
    rw [length_append, h.adb_length, length_replicate]
    omega
  have hmem : (db.adb ++ replicate (offs - db.len) 0 ++ db.mem.drop offs).length =
      db.mem.length := by
    rw [length_append, length_drop]
    omega
  obtain ⟨mem, hres, ⟨rest, hrest⟩, hneed, ha8, halt⟩ := adbWReserve_some h.buckets
    (by rw [hmem]; exact h.aligned) (by rw [hmem]; exact h.alloc) hn
  have htake : mem.take offs = db.adb ++ replicate (offs - db.len) 0 := by
    rw [← hrest, append_assoc, take_left' hpad]
  refine ⟨{ db with mem := mem.take offs ++ vec.flatten ++ mem.drop (offs + vec.flatten.length)
                    len := offs + vec.flatten.length }, ?_, ?_, ?_, rfl, rfl, rfl⟩
  · rw [adbWRaw, hpoke, bind_some, hres, bind_some, poke_eq hneed, map_some]
  · have hnew : (mem.take offs ++ vec.flatten ++
        mem.drop (offs + vec.flatten.length)).length = mem.length := by
      rw [length_append, length_append, length_take, length_drop]
      omega
    refine ⟨?_, ?_, ?_, h.buckets, fun no e he => ?_⟩
    · rw [hnew]
      exact hneed
    · rw [hnew]
      exact ha8
    · rw [hnew]
      exact halt
    · obtain ⟨h8, hend⟩ := h.entries no e he
      exact ⟨h8, by change e.offs + e.len ≤ offs + vec.flatten.length; omega⟩
  · have hlen : (mem.take offs ++ vec.flatten).length = offs + vec.flatten.length := by
      rw [htake, length_append, hpad]
    rw [AdbWriter.adb, take_left' hlen, htake]

theorem adbWRaw_stored (h : db.Ok) (h8 : 8 ≤ db.len) (ha : alignment ∣ 8)
    (hn : roundUp db.len alignment + vec.flatten.length ≤ 2 ^ 28) :
    ∃ db', adbWRaw fresh db vec alignment = some (roundUp db.len alignment, db') ∧
      db.Stored vec.flatten alignment (roundUp db.len alignment) db' ∧ db'.bucket = db.bucket ∧
      db'.len = roundUp db.len alignment + vec.flatten.length := by
  obtain ⟨db', heq, hok, hadb, hlen, hbucket, hcache⟩ := adbWRaw_some fresh h ha hn
  have hle : db.len ≤ roundUp db.len alignment :=
    le_roundUp (Nat.pos_of_dvd_of_pos ha (by norm_num))
  refine ⟨db', heq, ⟨hok, hcache, ?_, by omega, roundUp_mod, hlen.ge, hn, ?_⟩, hbucket, hlen⟩
  · rw [hadb, append_assoc]
    exact prefix_append _ _
  have hpad : (db.adb ++ replicate (roundUp db.len alignment - db.len) 0).length =
      roundUp db.len alignment := by
    rw [length_append, h.adb_length, length_replicate]
    omega
  rewrite [hadb, drop_left' hpad]
  exact prefix_rfl

variable {h : ℕ} {es : List AdbEntry} {e x : AdbEntry}

theorem findSlot_found {adb data : Bytes} (hf : findSlot adb h data alignment es i = .found o) :
    ∃ e ∈ es, e.offs = o ∧ e.len = data.length ∧ (adb.drop o).take data.length = data ∧
      o % alignment = 0 := by
  induction es generalizing i with
  | nil => cases hf
  | cons e es ih =>
    rw [findSlot] at hf
    split_ifs at hf with hmatch halign
    · obtain rfl : e.offs = o := by injection hf
      exact ⟨e, mem_cons_self, rfl, hmatch.2.1, hmatch.2.2, not_not.1 halign⟩
    · obtain ⟨e', hmem, rest⟩ := ih hf
      exact ⟨e', mem_cons_of_mem _ hmem, rest⟩

theorem mem_storeEntry (h : x ∈ storeEntry es i e) : x ∈ es ∨ x = e := by
  rw [storeEntry, mem_append, mem_cons] at h
  rcases h with h | h | h
  · exact Or.inl (mem_of_mem_take h)
  · exact Or.inr h
  · exact Or.inl (mem_of_mem_drop h)

def storeInBucket (db : AdbWriter) (h i : ℕ) (e : AdbEntry) : ℕ → List AdbEntry :=
  Function.update db.bucket (h % db.numBuckets) (storeEntry (db.bucket (h % db.numBuckets)) i e)

theorem mem_storeInBucket {no : ℕ} (hx : x ∈ storeInBucket db h i e no) : x ∈ db.bucket no ∨ x = e := by
  unfold storeInBucket at hx
  by_cases hno : no = h % db.numBuckets
  · subst hno
    rw [Function.update_self] at hx
    exact mem_storeEntry hx
  · rw [Function.update_of_ne hno] at hx
    exact Or.inl hx

/-- the length of the database once it holds some data, which it may already do -/
def AdbWriter.lenWith (db : AdbWriter) (vec : List Bytes) (alignment : ℕ) : ℕ :=
  match findSlot db.mem (hash vec) vec.flatten alignment (db.bucket (hash vec % db.numBuckets)) 0 with
  | .found _ => db.len
  | .store _ => roundUp db.len alignment + vec.flatten.length

theorem adbWData_stored (h : db.Ok) (hc : db.noCache = 0) (h8 : 8 ≤ db.len) (ha : alignment ∣ 8)
    (hn : db.lenWith hash vec alignment ≤ 2 ^ 28) :
    ∃ o db', adbWData fresh hash db vec alignment = some (o, db') ∧
      db.Stored vec.flatten alignment o db' ∧ db'.len = db.lenWith hash vec alignment := by
  rw [adbWData, if_neg (by omega)]
  unfold AdbWriter.lenWith at hn ⊢
  cases hslot : findSlot db.mem (hash vec) vec.flatten alignment
      (db.bucket (hash vec % db.numBuckets)) 0 with
  | found o =>
    rw [hslot] at hn
    obtain ⟨e, hmem, rfl, hlen, hdata, halign⟩ := findSlot_found hslot
    obtain ⟨he8, hend⟩ := h.entries _ e hmem
    change db.len ≤ 2 ^ 28 at hn
    refine ⟨e.offs, db, by simp [hslot], ⟨h, rfl, prefix_rfl, he8, halign, by omega, by omega, ?_⟩, rfl⟩
    rw [← hdata, AdbWriter.adb, drop_take]
    exact take_prefix_take_left (by omega)
  | store i =>
    rw [hslot] at hn
    change roundUp db.len alignment + vec.flatten.length ≤ 2 ^ 28 at hn
    obtain ⟨db', heq, hst, hbucket, hdblen⟩ := adbWRaw_stored fresh h h8 ha hn
    have hmod : roundUp db.len alignment % 2 ^ 32 = roundUp db.len alignment := by omega
    have hlen : vec.flatten.length % 2 ^ 32 = vec.flatten.length := by omega
    let e : AdbEntry := ⟨hash vec, roundUp db.len alignment, vec.flatten.length⟩
    refine ⟨roundUp db.len alignment, { db' with bucket := storeInBucket db (hash vec) i e },
      by simp only [hslot, heq, map_some, hmod, hlen, storeInBucket, e],
      ⟨⟨hst.ok.room, hst.ok.aligned, hst.ok.alloc, hst.ok.buckets, fun no x hx => ?_⟩,
      hst.noCache, hst.kept, hst.offs, hst.aligned, hst.inside, hst.bound, hst.data⟩,
      hdblen⟩
    rcases mem_storeInBucket hx with hx | rfl
    · exact hst.ok.entries no x (hbucket ▸ hx)
    · exact ⟨hst.offs, hst.inside⟩

end

section

variable {adb : Bytes} {v o : ℕ}

variable {n : ℕ} {data : Bytes}

theorem add_length_le_of_prefix_drop (h : data <+: adb.drop o) (hne : data ≠ []) :
    o + data.length ≤ adb.length := by
  have hlen := h.length_le
  have hpos := length_pos_of_ne_nil hne
  rw [length_drop] at hlen
  omega

theorem adbRDeref_some {k s : ℕ} (hv : adbValValue v = o) (hin : k + o + s ≤ adb.length) :
    adbRDeref adb v k s = some (adb.drop (k + o)) := by
  rw [adbRDeref, hv, if_neg (by omega)]

theorem leNat_take_of_data (h : data <+: adb.drop o) (hn : data.length = n) :
    leNat ((adb.drop o).take n) = leNat data := by
  rw [prefix_iff_eq_take.1 h, hn]

theorem adbRInt_int32 (hv : adbValValue v = o) (ht : adbValType v = adbTypeInt32)
    (h : htole32 n <+: adb.drop o) (hn : n < 2 ^ 32) : adbRInt adb v = n := by
  have hin := add_length_le_of_prefix_drop h (cons_ne_nil _ _)
  rw [htole32_length] at hin
  rw [adbRInt, ht, if_neg (by decide), if_pos rfl, adbRDeref_some hv (by omega), Nat.zero_add,
    elim_some, leNat_take_of_data h htole32_length, leNat_htole32,
    Nat.mod_eq_of_lt hn]

theorem adbRInt_int64 (hv : adbValValue v = o) (ht : adbValType v = adbTypeInt64)
    (h : htole64 n <+: adb.drop o) (hn : n < 2 ^ 64) : adbRInt adb v = n := by
  have hin := add_length_le_of_prefix_drop h (cons_ne_nil _ _)
  rw [htole64_length] at hin
  rw [adbRInt, ht, if_neg (by decide), if_neg (by decide), if_pos rfl,
    adbRDeref_some hv (by omega), Nat.zero_add, elim_some,
    leNat_take_of_data h htole64_length, leNat_htole64, Nat.mod_eq_of_lt hn]

theorem adbRBlobOf_some {b : Bytes} {width : ℕ} (hv : adbValValue v = o) (hw : 0 < width)
    (hw4 : width ≤ 4) (hb : b.length < 256 ^ width)
    (h : (htole32 b.length).take width ++ b <+: adb.drop o) : adbRBlobOf adb v width = some b := by
  have hlen : ((htole32 b.length).take width).length = width := by
    rw [length_take, htole32_length]
    omega
  have hne : (htole32 b.length).take width ++ b ≠ [] := by
    intro h0
    have := congrArg List.length h0
    rw [length_append, length_nil] at this
    omega
  have hin := add_length_le_of_prefix_drop h hne
  rw [length_append] at hin
  have hnum : leNat ((adb.drop o).take width) = b.length := by
    have h32 : (256 : ℕ) ^ width ≤ 2 ^ 32 := by
      calc (256 : ℕ) ^ width ≤ 256 ^ 4 := Nat.pow_le_pow_right (by norm_num) hw4
        _ = 2 ^ 32 := by norm_num
    rw [leNat_take_of_data ((prefix_append _ _).trans h) hlen, leNat_take, hlen,
      leNat_htole32, Nat.mod_eq_of_lt (lt_of_lt_of_le hb h32), Nat.mod_eq_of_lt hb]
  obtain ⟨q, hq⟩ := h
  have hdata : (adb.drop (width + o)).take b.length = b := by
    rw [Nat.add_comm, ← drop_drop, ← hq, append_assoc, drop_left' hlen, take_left]
  rw [adbRBlobOf, adbRDeref_some hv (by omega), Nat.zero_add, bind_some, hnum]
  simp [adbRDeref_some hv (show width + o + b.length ≤ adb.length by omega), hdata]

theorem wordsOf_flatMap {ws : List ℕ} (h : ∀ w ∈ ws, w < 2 ^ 32) {q : Bytes} :
    wordsOf ws.length (ws.flatMap htole32 ++ q) = ws := by
  induction ws with
  | nil => rfl
  | cons w ws ih =>
    rw [flatMap_cons, append_assoc, length_cons, wordsOf,
      take_left' htole32_length, drop_left' htole32_length, leNat_htole32,
      Nat.mod_eq_of_lt (h w mem_cons_self), ih fun x hx => h x (mem_cons_of_mem _ hx)]

theorem flatMap_htole32_length (ws : List ℕ) : (ws.flatMap htole32).length = 4 * ws.length := by
  induction ws with
  | nil => rfl
  | cons w ws ih =>
    rw [flatMap_cons, length_append, htole32_length, length_cons]
    omega

theorem adbRObj_some {vals : List ℕ} (hv : adbValValue v = o)
    (ht : adbValType v = adbTypeArray ∨ adbValType v = adbTypeObject)
    (h : ((vals.length + 1) :: vals).flatMap htole32 <+: adb.drop o)
    (hvals : ∀ x ∈ vals, x < 2 ^ 32) (hn : vals.length + 1 < 2 ^ 32) :
    adbRObj adb v = ⟨vals.length + 1, (vals.length + 1) :: vals⟩ := by
  have hin := add_length_le_of_prefix_drop h (by simp [htole32])
  rw [flatMap_htole32_length, length_cons] at hin
  have hnum : leNat ((adb.drop o).take 4) = vals.length + 1 := by
    have hp : htole32 (vals.length + 1) <+: adb.drop o := by
      exact (prefix_append _ _).trans h
    rw [leNat_take_of_data hp htole32_length, leNat_htole32, Nat.mod_eq_of_lt hn]
  obtain ⟨q, hq⟩ := h
  have hwords : wordsOf (vals.length + 1) (adb.drop o) = (vals.length + 1) :: vals := by
    rw [← hq]
    exact wordsOf_flatMap (forall_mem_cons.2 ⟨hn, hvals⟩)
  rw [adbRObj, if_neg (by tauto), adbRDeref_some hv (by omega)]
  simp [hnum, adbRDeref_some hv (show 0 + o + 4 * (vals.length + 1) ≤ adb.length by omega), hwords]

end

end Alpine
