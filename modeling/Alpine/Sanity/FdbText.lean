import Alpine.Sanity.DepParts

/-! The texts of numbers, digests and dependencies are read back as what they were written for, and
a text made of lines falls apart into them. -/

namespace Alpine

open List

theorem dx_xd : ∀ d < 16, dx (xd d) = d ∧ xd d ≠ 0 := by decide

variable {radix : ℕ} {rest : Bytes} {d : Dependency Bytes} {ds : List (Dependency Bytes)}

variable {room val value : ℕ} {acc hash text : Bytes}

theorem pullUintLoop_digit {d : ℕ} (hd : d < radix) (hr : radix ≤ 16) {b : Bytes} :
    pullUintLoop radix val (xd d :: b) = pullUintLoop radix ((val * radix + d) % 2 ^ 64) b := by
  obtain ⟨hdx, hne⟩ := dx_xd d (by omega)
  rw [pullUintLoop, if_neg hne, hdx, if_neg (by omega)]

theorem pullUintLoop_uintLoop (hr : 2 ≤ radix ∧ radix ≤ 16) (hroom : value < radix ^ room)
    (hval : value < 2 ^ 64) :
    pullUintLoop radix 0 (uintLoop radix room value acc) = pullUintLoop radix value acc := by
  induction room generalizing value acc with
  | zero =>
    have : value = 0 := by simpa using hroom
    rw [this, uintLoop]
  | succ room ih =>
    rw [uintLoop]
    split_ifs with h
    · rw [h]
    have hdiv : value / radix < radix ^ room := Nat.div_lt_of_lt_mul (by rwa [pow_succ'] at hroom)
    have hle : value / radix ≤ value := Nat.div_le_self _ _
    rw [ih hdiv (by omega), pullUintLoop_digit (Nat.mod_lt _ (by omega)) hr.2,
      Nat.div_add_mod', Nat.mod_eq_of_lt hval]

/-- what ends a number: the end of the text, or a byte that is no digit -/
def EndsNumber (rest : Bytes) : Prop := rest = [] ∨ ∃ b, rest = asc ':' :: b

theorem pullUintLoop_end (hrest : ∀ c ∈ rest.head?, radix ≤ dx c) :
    pullUintLoop radix val rest = (val, rest) := by
  cases rest with
  | nil => rfl
  | cons c b =>
    rw [pullUintLoop]
    split_ifs with hzero hdigit
    · rfl
    · rfl
    · exact absurd (hrest c rfl) hdigit

theorem uintLoop_append :
    uintLoop radix room value acc ++ rest = uintLoop radix room value (acc ++ rest) := by
  induction room generalizing value acc with
  | zero => rfl
  | succ room ih =>
    rw [uintLoop, uintLoop]
    split_ifs
    · rfl
    · rw [ih, cons_append]

theorem apkBlobPullUint_radix (hr : 2 ≤ radix ∧ radix ≤ 16) (hval : value < 2 ^ 64)
    (hrest : ∀ c ∈ rest.head?, radix ≤ dx c) :
    apkBlobPullUint (uintText value radix ++ rest) radix = (value, rest) := by
  unfold apkBlobPullUint uintText
  split_ifs with h
  · have hzero : asc '0' = xd 0 := by decide
    rw [h, hzero, singleton_append, pullUintLoop_digit (by omega) hr.2]
    simpa using pullUintLoop_end hrest
  have hroom : value < radix ^ 64 := by
    refine hval.trans_le ?_
    exact Nat.pow_le_pow_left hr.1 64
  rw [uintLoop_append, pullUintLoop_uintLoop hr hroom hval]
  exact pullUintLoop_end hrest

theorem apkBlobPullUint_uintText (hradix : radix = 8 ∨ radix = 10) (hval : value < 2 ^ 64)
    (hrest : EndsNumber rest) :
    apkBlobPullUint (uintText value radix ++ rest) radix = (value, rest) := by
  refine apkBlobPullUint_radix (by omega) hval ?_
  rcases hrest with rfl | ⟨b, rfl⟩
  · simp
  · have hcolon : dx (asc ':') = 0xff := by decide
    rintro c ⟨⟩
    omega

theorem uintLoop_digit (hr : 2 ≤ radix ∧ radix ≤ 10) (room value : ℕ)
    (hacc : ∀ c ∈ acc, ∃ d < 10, c = xd d) :
    ∀ c ∈ uintLoop radix room value acc, ∃ d < 10, c = xd d := by
  induction room generalizing value acc with
  | zero => exact hacc
  | succ room ih =>
    rw [uintLoop]
    split_ifs
    · exact hacc
    · have hlt : value % radix < 10 := (Nat.mod_lt _ (by omega)).trans_le hr.2
      exact ih _ (forall_mem_cons.2 ⟨⟨_, hlt, rfl⟩, hacc⟩)

theorem uintText_digit (hradix : radix = 8 ∨ radix = 10) :
    ∀ c ∈ uintText value radix, ∃ d < 10, c = xd d := by
  unfold uintText
  split_ifs
  · simpa using ⟨0, by decide, by decide⟩
  · exact uintLoop_digit (by omega) _ _ (by simp)

theorem uintText_no_newline (hradix : radix = 8 ∨ radix = 10) : asc '\n' ∉ uintText value radix := by
  intro h
  obtain ⟨d, hd, hc⟩ := uintText_digit hradix _ h
  exact absurd hc ((show ∀ d < 10, asc '\n' ≠ xd d by decide) d hd)

theorem forall_byte {P : UInt8 → Prop} (h : ∀ i : Fin 256, P (UInt8.ofNat i)) (a : UInt8) : P a := by
  have := h ⟨a.toNat, a.toNat_lt⟩
  simpa using this

theorem b64_letter {i : UInt8} (h : i < 64) :
    (b64decode (b64encode i) = i ∧ i ≠ 0xff) ∧ b64encode i ≠ asc '\n' ∧ b64encode i ≠ asc '=' := by
  revert i
  apply forall_byte
  decide +kernel

theorem byte_split2 : ∀ a : UInt8, a >>> 2 < 64 ∧ a &&& 0x03 < 4 ∧
    (a >>> 2) <<< 2 ||| (a &&& 0x03) = a := forall_byte (by decide +kernel)

theorem byte_split4 : ∀ b : UInt8, (b &&& 0xf0) >>> 4 < 16 ∧ b &&& 0x0f < 16 ∧
    ((b &&& 0xf0) >>> 4) <<< 4 ||| (b &&& 0x0f) = b := forall_byte (by decide +kernel)

theorem byte_split6 : ∀ c : UInt8, (c &&& 0xc0) >>> 6 < 4 ∧ c &&& 0x3f < 64 ∧
    (((c &&& 0xc0) >>> 6) <<< 6) ||| (c &&& 0x3f) = c := forall_byte (by decide +kernel)

theorem forall_below {P : UInt8 → UInt8 → Prop} {m n : UInt8}
    (h : ∀ (i : Fin m.toNat) (j : Fin n.toNat), P (UInt8.ofNat i) (UInt8.ofNat j)) (x : UInt8) (hx : x < m)
    (y : UInt8) (hy : y < n) : P x y := by
  simpa using h ⟨x.toNat, hx⟩ ⟨y.toNat, hy⟩

theorem letter_join24 {x y : UInt8} (hx : x < 4) (hy : y < 16) :
    (x <<< 4 ||| y) < 64 ∧ (x <<< 4 ||| y) >>> 4 = x ∧ (x <<< 4 ||| y) <<< 4 = y <<< 4 := by
  apply forall_below _ x hx y hy
  decide +kernel

theorem letter_join42 {z w : UInt8} (hz : z < 16) (hw : w < 4) :
    (z <<< 2 ||| w) < 64 ∧ (z <<< 2 ||| w) >>> 2 = z ∧
      ((z <<< 2 ||| w) <<< 6) &&& (0xc0 : UInt8) = w <<< 6 := by
  apply forall_below _ z hz w hw
  decide +kernel

theorem b64group_letters {s0 s1 s2 s3 t0 t1 t2 t3 : UInt8} (h0 : b64decode s0 = t0 ∧ t0 ≠ 0xff)
    (h1 : b64decode s1 = t1 ∧ t1 ≠ 0xff) (h2 : b64decode s2 = t2 ∧ t2 ≠ 0xff)
    (h3 : b64decode s3 = t3 ∧ t3 ≠ 0xff) : b64group s0 s1 s2 s3 =
      some ((t0 <<< 2) ||| (t1 >>> 4), (t1 <<< 4) ||| (t2 >>> 2), ((t2 <<< 6) &&& 0xc0) ||| t3) := by
  simp [b64group, h0, h1, h2, h3]

theorem b64_pad : b64decode (asc '=') = 0 ∧ (0 : UInt8) ≠ 0xff := by decide

theorem b64group_bytes {a b c : UInt8} :
    b64group (b64encode (a >>> 2)) (b64encode (((a &&& 0x03) <<< 4) ||| ((b &&& 0xf0) >>> 4)))
      (b64encode (((b &&& 0x0f) <<< 2) ||| ((c &&& 0xc0) >>> 6))) (b64encode (c &&& 0x3f)) =
      some (a, b, c) := by
  obtain ⟨ha, hx, hajoin⟩ := byte_split2 a
  obtain ⟨hy, hz, hbjoin⟩ := byte_split4 b
  obtain ⟨hw, hc, hcjoin⟩ := byte_split6 c
  obtain ⟨h1, h1hi, h1lo⟩ := letter_join24 hx hy
  obtain ⟨h2, h2hi, h2lo⟩ := letter_join42 hz hw
  rw [b64group_letters (b64_letter ha).1 (b64_letter h1).1 (b64_letter h2).1 (b64_letter hc).1,
    h1hi, h1lo, h2hi, h2lo, hajoin, hbjoin, hcjoin]

theorem b64group_two (a b : UInt8) : ∃ g, b64group (b64encode (a >>> 2))
      (b64encode (((a &&& 0x03) <<< 4) ||| ((b &&& 0xf0) >>> 4)))
      (b64encode ((b &&& 0x0f) <<< 2)) (asc '=') = some (a, b, g) := by
  obtain ⟨ha, hx, hajoin⟩ := byte_split2 a
  obtain ⟨hy, hz, hbjoin⟩ := byte_split4 b
  obtain ⟨h1, h1hi, h1lo⟩ := letter_join24 hx hy
  obtain ⟨h2, h2hi, -⟩ := letter_join42 hz (show (0 : UInt8) < 4 by decide)
  rw [UInt8.or_zero] at h2 h2hi
  rw [b64group_letters (b64_letter ha).1 (b64_letter h1).1 (b64_letter h2).1 b64_pad, h1hi, h1lo, h2hi,
    hajoin, hbjoin]
  exact ⟨_, rfl⟩

theorem b64group_one (a : UInt8) :
    ∃ g, b64group (b64encode (a >>> 2)) (b64encode ((a &&& 0x03) <<< 4)) (asc '=') (asc '=') =
      some (a, g) := by
  obtain ⟨ha, hx, hajoin⟩ := byte_split2 a
  obtain ⟨h1, h1hi, -⟩ := letter_join24 hx (show (0 : UInt8) < 16 by decide)
  rw [UInt8.or_zero] at h1 h1hi
  rw [b64group_letters (b64_letter ha).1 (b64_letter h1).1 b64_pad b64_pad, h1hi, hajoin]
  exact ⟨_, rfl⟩

theorem apkBlobPullBase64_base64Text (bytes rest : Bytes) :
    apkBlobPullBase64 bytes.length (base64Text bytes ++ rest) = some (bytes, rest) := by
  induction bytes using base64Text.induct with
  | case1 => rfl
  | case2 a =>
    obtain ⟨g, hg⟩ := b64group_one a
    simp [base64Text, apkBlobPullBase64, hg]
  | case3 a b =>
    obtain ⟨g, hg⟩ := b64group_two a b
    simp [base64Text, apkBlobPullBase64, hg]
  | case4 a b c bytes ih =>
    simp [base64Text, apkBlobPullBase64, b64group_bytes, ih]

theorem apkBlobPullDigest_digestText (h : digestText hash = some text) :
    apkBlobPullDigest text = some (apkDigestSha1, hash, []) := by
  unfold digestText at h
  split_ifs at h with hlen
  cases h
  have hpull := apkBlobPullBase64_base64Text hash []
  rw [hlen, append_nil] at hpull
  simp only [cons_append, nil_append, apkBlobPullDigest, pullLong, hpull]
  rfl

theorem base64Text_no_newline {bytes : Bytes} : asc '\n' ∉ base64Text bytes := by
  have hletter : ∀ i : UInt8, i < 64 → ¬ asc '\n' = b64encode i := fun i h =>
    (b64_letter h).2.1.symm
  have heq : ¬ asc '\n' = asc '=' := by decide
  have hpad : ∀ z : UInt8, z < 16 → z <<< 2 < 64 := by
    intro z hz
    simpa using (letter_join42 hz (show (0 : UInt8) < 4 by decide)).1
  have hpad' : ∀ x : UInt8, x < 4 → x <<< 4 < 64 := by
    intro x hx
    simpa using (letter_join24 hx (show (0 : UInt8) < 16 by decide)).1
  fun_induction base64Text bytes with
  | case1 => simp
  | case2 a =>
    obtain ⟨ha, hx, -⟩ := byte_split2 a
    simp [hletter _ ha, hletter _ (hpad' _ hx), heq]
  | case3 a b =>
    obtain ⟨ha, hx, -⟩ := byte_split2 a
    obtain ⟨hy, hz, -⟩ := byte_split4 b
    simp [hletter _ ha, hletter _ (letter_join24 hx hy).1, hletter _ (hpad _ hz), heq]
  | case4 a b c rest ih =>
    obtain ⟨ha, hx, -⟩ := byte_split2 a
    obtain ⟨hy, hz, -⟩ := byte_split4 b
    obtain ⟨hw, hc, -⟩ := byte_split6 c
    simp [hletter _ ha, hletter _ (letter_join24 hx hy).1, hletter _ (letter_join42 hz hw).1,
      hletter _ hc, ih]

theorem digestText_no_newline (h : digestText hash = some text) : asc '\n' ∉ text := by
  unfold digestText at h
  split_ifs at h
  cases h
  simp only [cons_append, mem_cons, not_or]
  exact ⟨by decide, by decide, base64Text_no_newline⟩

/-- a dependency whose text says all of it: no byte of the name or the version is taken for another
part, and the operator has a text -/
structure PlainDep (d : Dependency Bytes) : Prop where
  name_ne : d.name ≠ []
  name_bytes : ∀ c ∈ d.name, c ≠ 0 ∧ c ≠ asc '@' ∧ apkCtype .dependencyComparer c = false ∧
    apkCtype .dependencySeparator c = false
  name_head : apkDepConflict d = false → d.name.head? ≠ some (asc '!')
  untagged : d.repositoryTag = 0
  op : match d.version with
    | none => d.op = apkDepmaskAny ∨ d.op = apkVersionConflict ||| apkDepmaskAny
    | some v => (d.op ∈ plainOps ∨ ∃ m ∈ plainOps, d.op = apkVersionConflict ||| m) ∧ v ≠ [] ∧
      (∀ c ∈ v, apkCtype .dependencySeparator c = false) ∧
      ∀ c, v.head? = some c → apkCtype .dependencyComparer c = false

/-- the dependency as the text is read: whether it is broken is decided anew -/
def normalDep (d : Dependency Bytes) : Dependency Bytes :=
  ⟨d.name, d.version, d.op,
    d.op &&& apkDepmaskChecksum ≠ apkDepmaskChecksum ∧ !d.version.any apkVersionValidate, 0, 0⟩

def depText (d : Dependency Bytes) : Bytes := (depPieces none d).flatten

def depMark (d : Dependency Bytes) : Bytes := if apkDepConflict d then [asc '!'] else []

def depTail (d : Dependency Bytes) : Bytes :=
  match d.version with
  | none => []
  | some v => apkVersionOpString d.op ++ v

section

variable (h : PlainDep d)
include h

theorem PlainDep.cstr_name : cstr d.name = d.name := by
  unfold cstr
  rw [takeWhile_eq_self_iff]
  intro c hc
  simpa using (h.name_bytes c hc).1

theorem PlainDep.depTail_eq : apkVersionOpString d.op ++ d.version.getD [] = depTail d := by
  have hop := h.op
  unfold depTail
  cases hv : d.version with
  | some v => rfl
  | none =>
    rw [hv] at hop
    rcases hop with hop | hop
    all_goals
      rw [hop]
      decide

theorem PlainDep.depText_eq : depText d = depMark d ++ (d.name ++ depTail d) := by
  rw [← h.depTail_eq]
  unfold depText depPieces depMark
  rw [h.cstr_name]
  split_ifs <;> simp

theorem PlainDep.depPieces_some {tags : List Bytes} :
    depPieces (some tags) d = depPieces none d := by
  unfold depPieces
  simp [h.untagged]

theorem PlainDep.op_cases {v : Bytes} (hv : d.version = some v) :
    ∃ m ∈ plainOps, apkVersionOpString d.op = apkVersionOpString m ∧
      (if apkDepConflict d then apkVersionConflict else 0) ||| m = d.op := by
  have hop := h.op
  rw [hv] at hop
  rcases hop.1 with hm | ⟨m, hm, hd⟩
  · obtain ⟨⟨hz, -⟩, -, -, -, hor, -⟩ := plainOps_spec _ hm
    refine ⟨d.op, hm, rfl, ?_⟩
    simp [apkDepConflict, hz]
  obtain ⟨⟨-, hc⟩, hstr, -⟩ := plainOps_spec m hm
  refine ⟨m, hm, by rw [hd, hstr], ?_⟩
  have hconflict : apkDepConflict d = true := by
    rw [← hd] at hc
    simpa [apkDepConflict] using hc
  rw [if_pos hconflict, hd]

theorem PlainDep.no_separator : ∀ c ∈ depText d, apkCtype .dependencySeparator c = false := by
  intro c hc
  rw [h.depText_eq, mem_append, mem_append] at hc
  rcases hc with hc | hc | hc
  · unfold depMark at hc
    split_ifs at hc
    · rw [mem_singleton.1 hc]
      decide
    · exact absurd hc not_mem_nil
  · exact (h.name_bytes c hc).2.2.2
  unfold depTail at hc
  cases hv : d.version with
  | none => simp [hv] at hc
  | some v =>
    obtain ⟨m, hm, hstr, -⟩ := h.op_cases hv
    have hop := h.op
    rw [hv] at hop
    rw [hv] at hc
    simp only [hstr, mem_append] at hc
    rcases hc with hc | hc
    · exact ((plainOps_spec m hm).2.2.2.2.2.2 c hc).2
    · exact hop.2.2.1 c hc

theorem depText_ne_nil : depText d ≠ [] := by
  rw [h.depText_eq]
  simp [h.name_ne]

end

def PlainDep.parts {d : Dependency Bytes} (h : PlainDep d) : DepParts where
  conflict := apkDepConflict d
  name := d.name
  version := d.version.map fun v => (apkVersionOpString d.op, v)
  name_bytes := fun c hc => (h.name_bytes c hc).2.2.1
  name_head := h.name_head
  op_bytes := by
    rintro p hp
    obtain ⟨v, hv, rfl⟩ := Option.map_eq_some_iff.1 hp
    obtain ⟨m, hm, hstr, -⟩ := h.op_cases hv
    obtain ⟨-, -, -, -, -, hsne, hscomp⟩ := plainOps_spec m hm
    rw [hstr]
    exact ⟨hsne, fun c hc => (hscomp c hc).1⟩
  version_bytes := by
    rintro p hp
    obtain ⟨v, hv, rfl⟩ := Option.map_eq_some_iff.1 hp
    have hop := h.op
    rw [hv] at hop
    exact ⟨hop.2.1, hop.2.2.2⟩

theorem PlainDep.parts_op (h : PlainDep d) : h.parts.op = d.op := by
  have hop := h.op
  change (if apkDepConflict d then apkVersionConflict else 0) |||
    (d.version.map fun v => (apkVersionOpString d.op, v)).elim apkDepmaskAny
      (fun v => apkVersionResultMaskBlob v.1) = d.op
  cases hv : d.version with
  | none =>
    rw [hv] at hop
    unfold apkDepConflict
    rcases hop with hop | hop <;> rw [hop] <;> decide
  | some v =>
    obtain ⟨m, hm, hstr, hor⟩ := h.op_cases hv
    simp [hstr, (plainOps_spec m hm).2.2.1, hor]

theorem apkDepParse_depText (h : PlainDep d) :
    apkDepParse (depText d) = some (d.name, d.op, d.version) := by
  have htail : depTail d = h.parts.tail := by
    change depTail d = (d.version.map fun v => (apkVersionOpString d.op, v)).elim [] fun v => v.1 ++ v.2
    unfold depTail
    cases d.version <;> rfl
  have htext : depText d = h.parts.text := by
    rw [h.depText_eq, htail]
    rfl
  have hversion : h.parts.version.map (·.2) = d.version := by
    change (d.version.map fun v => (apkVersionOpString d.op, v)).map (·.2) = d.version
    cases d.version <;> rfl
  rw [htext, apkDepParse_parts, h.parts_op, hversion]
  rfl

/-- what may follow a dependency in a list: nothing, or one blank and the next -/
def EndsDep (rest next : Bytes) : Prop :=
  rest = [] ∧ next = [] ∨
    rest = asc ' ' :: next ∧ ∀ c, next.head? = some c → apkCtype .dependencySeparator c = false

theorem apkBlobPullDep_depText (h : PlainDep d) {next : Bytes} (hrest : EndsDep rest next) :
    apkBlobPullDep (depText d ++ rest) = some (normalDep d, next) := by
  have hrun : ∀ c ∈ depText d, (!apkCtype .dependencySeparator c) = true := by
    intro c hc
    rw [h.no_separator c hc]
    rfl
  have hstop : rest.takeWhile (fun c => !apkCtype .dependencySeparator c) = [] := by
    rcases hrest with ⟨rfl, -⟩ | ⟨rfl, -⟩
    · rfl
    · exact takeWhile_cons_of_neg (by decide)
  have hskip : rest.dropWhile (apkCtype .dependencySeparator) = next := by
    rcases hrest with ⟨rfl, rfl⟩ | ⟨rfl, hnext⟩
    · rfl
    rw [dropWhile_cons_of_pos (by decide)]
    cases next with
    | nil => rfl
    | cons x l => exact dropWhile_cons_of_neg (by simp [hnext x rfl])
  obtain ⟨h1, h2⟩ := takeWhile_append_run hrun hstop
  have hat : asc '@' ∉ d.name := fun hc => (h.name_bytes _ hc).2.1 rfl
  unfold apkBlobPullDep
  simp only [h1, h2, apkDepParse_depText h, Option.bind_some, apkBlobSplit_none hat, apkBlobSpn, hskip]
  rfl

def depsText (ds : List (Dependency Bytes)) : Bytes := [asc ' '].intercalate (ds.map depText)

theorem depsText_cons (h : ds ≠ []) : depsText (d :: ds) = depText d ++ asc ' ' :: depsText ds := by
  obtain ⟨d', l, rfl⟩ := exists_cons_of_ne_nil h
  simp [depsText]

theorem depsText_singleton : depsText [d] = depText d := by
  simp [depsText]

theorem depsText_head (h : ∀ d ∈ ds, PlainDep d) (c : UInt8) (hc : (depsText ds).head? = some c) :
    apkCtype .dependencySeparator c = false := by
  cases ds with
  | nil => simp [depsText] at hc
  | cons d ds =>
    have hd := h d mem_cons_self
    refine hd.no_separator c (mem_of_mem_head? ?_)
    by_cases hds : ds = []
    · rw [hds, depsText_singleton] at hc
      exact hc
    · rw [depsText_cons hds, List.head?_append_of_ne_nil _ (depText_ne_nil hd)] at hc
      exact hc

theorem pullDepsLoop_depsText (h : ∀ d ∈ ds, PlainDep d) (hroom : (depsText ds).length ≤ room) :
    pullDepsLoop room (depsText ds) = (true, ds.map normalDep) := by
  induction ds generalizing room with
  | nil => cases room <;> rfl
  | cons d ds ih =>
    have hd := h d mem_cons_self
    have hrest : ∃ rest, depsText (d :: ds) = depText d ++ rest ∧ EndsDep rest (depsText ds) ∧
        ((depsText ds).length ≤ rest.length) := by
      by_cases hds : ds = []
      · subst hds
        exact ⟨[], by rw [depsText_singleton, append_nil], Or.inl ⟨rfl, rfl⟩, le_rfl⟩
      · refine ⟨_, depsText_cons hds, Or.inr ⟨rfl, ?_⟩, by simp⟩
        exact depsText_head fun d' hd' => h d' (mem_cons_of_mem _ hd')
    obtain ⟨rest, htext, hends, hlen⟩ := hrest
    have hpos := length_pos_of_ne_nil (depText_ne_nil hd)
    rw [htext, length_append] at hroom
    obtain ⟨room, rfl⟩ : ∃ r, room = r + 1 := ⟨room - 1, by omega⟩
    rw [htext, pullDepsLoop, if_neg (by simp [depText_ne_nil hd]), apkBlobPullDep_depText hd hends]
    simp only
    rw [ih (fun d' hd' => h d' (mem_cons_of_mem _ hd')) (by omega)]
    rfl

theorem apkBlobPullDeps_depsText (h : ∀ d ∈ ds, PlainDep d) :
    apkBlobPullDeps (depsText ds) = (true, ds.map normalDep) :=
  pullDepsLoop_depsText h le_rfl

end Alpine
