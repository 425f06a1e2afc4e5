import Alpine.Proofs.AdbRoundTrip
import Alpine.Proofs.DepConflict

/-! A dependency that goes from its text into a database and back is provided by the same packages
as the one that is read from the text, as long as no separator gets into its version: the text is
read up to the first separator, but all of it goes into the database. -/

namespace Alpine

open List DepParts

section

variable (fresh : ℕ → UInt8) (hash : List Bytes → ℕ)

variable {m n : ℕ} {p : DepParts} {r r' : Bytes → Prop} {w : AdbWrite} {adb : Bytes}

theorem lenAfter_le (db : AdbWriter) (h : ∀ d ∈ w.data, d.vec.flatten.length + 3 ≤ n) :
    db.lenAfter hash w ≤ db.len + n := by
  unfold AdbWriter.lenAfter
  cases hd : w.data with
  | none => exact Nat.le_add_right _ _
  | some d =>
    have hn := h d hd
    have hround : roundUp db.len d.alignment ≤ db.len + 3 := by
      have hk := AdbWrite.data_kind hd
      have hpos : ∀ k ∈ adbKinds, 0 < k.2 ∧ k.2 ≤ 4 := by decide
      obtain ⟨h0, h4⟩ := hpos _ hk
      have hlt := roundUp_lt (x := db.len) (show 0 < d.alignment from h0)
      have h4' : d.alignment ≤ 4 := h4
      omega
    simp only
    unfold AdbWriter.lenWith
    split_ifs
    · split <;> omega
    · omega

theorem adbVal_lt {type val : ℕ} : adbVal type val < 2 ^ 32 := Nat.mod_lt _ (by norm_num)

theorem AdbWrite.At.lt {v : ℕ} (h : w.At adb v) : v < 2 ^ 32 := by
  unfold AdbWrite.At at h
  cases hd : w.data with
  | none =>
    rw [hd] at h
    subst h
    cases w with
    | int val => exact adbVal_lt
    | _ => exact Nat.two_pow_pos 32
  | some d =>
    rw [hd] at h
    obtain ⟨o, rfl, -⟩ := h
    exact adbVal_lt

/-- what one write adds to a database, as it is read from then on -/
structure AdbWriter.Adds (db db' : AdbWriter) (n : ℕ) (reads : Bytes → Prop) : Prop where
  ready : db'.Ready
  kept : db.adb.drop 8 <+: db'.adb.drop 8
  len : db'.len ≤ db.len + n
  reads : ∀ adb : Bytes, db'.adb.drop 8 <+: adb.drop 8 → reads adb

theorem adbRBlob_null (adb : Bytes) : adbRBlob adb adbNull = none := by
  rw [adbRBlob, if_neg (by decide), if_neg (by decide), if_neg (by decide)]

theorem adbRInt_null : adbRInt adb adbNull = 0 := by
  rw [adbRInt, if_neg (by decide), if_neg (by decide), if_neg (by decide)]

theorem blob_adds {db : AdbWriter} (h : db.Ready) {b : Bytes} (hroom : db.len + (b.length + 7) ≤ 2 ^ 28) :
    ∃ v db', adbWBlob fresh hash db b = some (v, db') ∧ v < 2 ^ 32 ∧
      db.Adds db' (b.length + 7) fun adb => adbRBlob adb v = if b = [] then none else some b := by
  have hw : adbWBlob fresh hash db b = adbWrite fresh hash db (.blobVec ⟨[b], by simp⟩) := rfl
  have hdata : ∀ d ∈ (AdbWrite.blobVec ⟨[b], by simp⟩).data, d.vec.flatten.length + 3 ≤ b.length + 7 := by
    intro d hd
    simp only [AdbWrite.data, blobData, Option.mem_def] at hd
    split_ifs at hd
    all_goals
      cases hd
      simp [htole32]
  have hle := lenAfter_le hash db hdata
  obtain ⟨v, db', heq, hready, hkept, hat, hlen⟩ := adbWrite_some fresh hash h (hle.trans hroom)
  refine ⟨v, db', hw.trans heq, hat.lt, hready, hkept, hlen.trans_le hle, fun adb hadb => ?_⟩
  have hreads := (hat.mono hadb).readsBack
  by_cases hb : b = []
  · subst hb
    obtain rfl : v = adbNull := hat
    rw [if_pos rfl, adbRBlob_null]
  · rw [if_neg hb]
    simpa using hreads (by simpa using hb)

theorem obj_adds {db : AdbWriter} (h : db.Ready) {vals : List ℕ} (hvals : ∀ v ∈ vals, v < 2 ^ 32)
    (hroom : db.len + (4 * vals.length + 7) ≤ 2 ^ 28) :
    ∃ v db', adbWObj fresh hash db adbTypeObject vals = some (v, db') ∧ db.Adds db' (4 * vals.length + 7)
        fun adb => ∀ i, adbRoVal (adbRObj adb v) (i + 1) = vals.getD i adbNull := by
  have hmap : (vals.map UInt32.ofNat).map UInt32.toNat = vals := by
    rw [map_map]
    refine (map_congr_left fun v hv => ?_).trans (map_id _)
    exact UInt32.toNat_ofNat_of_lt' (hvals v hv)
  have hw : adbWObj fresh hash db adbTypeObject vals =
      adbWrite fresh hash db (.obj (vals.map UInt32.ofNat)) := by
    rw [adbWrite, hmap]
  have hdata : ∀ d ∈ (AdbWrite.obj (vals.map UInt32.ofNat)).data,
      d.vec.flatten.length + 3 ≤ 4 * vals.length + 7 := by
    intro d hd
    rw [AdbWrite.data, hmap, objData, Option.mem_def] at hd
    split_ifs at hd
    cases hd
    have hle := (List.rdropWhile_prefix (p := fun x => decide (x = adbNull)) (l := vals)).length_le
    rw [flatten_singleton, flatMap_htole32_length, length_cons]
    omega
  have hle := lenAfter_le hash db hdata
  obtain ⟨v, db', heq, hready, hkept, hat, hlen⟩ := adbWrite_some fresh hash h (hle.trans hroom)
  refine ⟨v, db', hw.trans heq, hready, hkept, hlen.trans_le hle, fun adb hadb i => ?_⟩
  have hreads : ObjReads adb v ((vals.map UInt32.ofNat).map UInt32.toNat) :=
    (hat.mono hadb).readsBack
  rw [hmap] at hreads
  exact hreads.2 i

theorem adbWInt_small {db : AdbWriter} (hn : n < 2 ^ 28) :
    adbWInt fresh hash db n = some (adbVal adbTypeInt n, db) ∧
      ∀ adb, adbRInt adb (adbVal adbTypeInt n) = n := by
  constructor
  · rw [adbWInt, if_neg (by omega), if_neg (by omega)]
  · intro adb
    rw [adbRInt, adbValType_adbVal (by decide) (by decide) hn, if_pos rfl,
      adbValValue_adbVal (by decide) (by decide) hn]

theorem AdbWriter.Adds.trans {db db1 db2 : AdbWriter} (h : db.Adds db1 m r) (h' : db1.Adds db2 n r') :
    db.Adds db2 (m + n) fun adb => r adb ∧ r' adb where
  ready := h'.ready
  kept := h.kept.trans h'.kept
  len := by
    have := h.len
    have := h'.len
    omega
  reads := fun adb hadb => ⟨h.reads adb (h'.kept.trans hadb), h'.reads adb hadb⟩

theorem AdbWriter.Adds.imp {db db' : AdbWriter} (h : db.Adds db' m r) (hmn : m ≤ n)
    (hr : ∀ adb, r adb → r' adb) : db.Adds db' n r' :=
  ⟨h.ready, h.kept, h.len.trans (Nat.add_le_add_left hmn _), fun adb hadb => hr adb (h.reads adb hadb)⟩

/-- the fields that are left out stand for the operator that needs none -/
def storedVersion (p : DepParts) : Option Bytes :=
  if p.op = apkDepmaskAny then none else p.version.map (·.2)

def storedMatch (p : DepParts) : ℕ :=
  if p.op = apkDepmaskAny ∨ p.op = apkVersionEqual then 0 else p.op

theorem DepParts.op_lt : p.op < 2 ^ 28 := by
  have hall : ∀ m ∈ depMasks, m < 2 ^ 28 ∧ apkVersionConflict ||| m < 2 ^ 28 := by decide +kernel
  obtain ⟨h0, h1⟩ := hall _ p.mask_mem
  unfold op
  split_ifs
  · exact h1
  · rwa [Nat.zero_or]

theorem DepParts.op_ne_zero : p.op ≠ 0 := by
  have hall : ∀ m ∈ depMasks, m ≠ 0 ∧ apkVersionConflict ||| m ≠ 0 := by decide +kernel
  obtain ⟨h0, h1⟩ := hall _ p.mask_mem
  unfold op
  split_ifs
  · exact h1
  · rwa [Nat.zero_or]

theorem stored_op (p : DepParts) : (if storedVersion p = none then storedMatch p ||| apkDepmaskAny
      else if storedMatch p = 0 then apkVersionEqual else storedMatch p) = p.op := by
  have hnone : p.version = none → p.op = apkDepmaskAny ∨ p.op = apkVersionConflict ||| apkDepmaskAny := by
    intro hv
    unfold op mask
    rw [hv]
    cases p.conflict
    · exact Or.inl rfl
    · exact Or.inr rfl
  unfold storedVersion storedMatch
  by_cases hany : p.op = apkDepmaskAny
  · simp [hany]
  rw [if_neg hany]
  cases hv : p.version with
  | none =>
    have hop := (hnone hv).resolve_left hany
    rw [hop]
    decide
  | some v =>
    by_cases heq : p.op = apkVersionEqual
    · simp [heq]
    · simp [hany, heq, p.op_ne_zero]

theorem forall_three {v1 v2 v3 : ℕ} (h1 : v1 < n) (h2 : v2 < n) (h3 : v3 < n) :
    ∀ v ∈ [v1, v2, v3], v < n :=
  forall_mem_cons.2 ⟨h1, forall_mem_cons.2 ⟨h2, forall_mem_singleton.2 h3⟩⟩

theorem DepParts.text_length :
    p.name.length + ((p.version.map (·.2)).getD []).length ≤ p.text.length := by
  unfold text tail
  cases p.version with
  | none => simp
  | some v =>
    simp
    omega

variable {db : AdbWriter}

theorem fields_add (h : db.Ready) (p : DepParts) (hroom : db.len + (p.text.length + 14) ≤ 2 ^ 28) :
    ∃ v1 v2 v3 db', dependencyFields fresh hash db p.name p.op (p.version.map (·.2)) =
        some ([v1, v2, v3], db') ∧ (∀ v ∈ [v1, v2, v3], v < 2 ^ 32) ∧
      db.Adds db' (p.text.length + 14) fun adb =>
        adbRBlob adb v1 = (if p.name = [] then none else some p.name) ∧
        adbRBlob adb v2 = storedVersion p ∧ adbRInt adb v3 = storedMatch p := by
  have hlen := p.text_length
  obtain ⟨v1, db1, h1, hv1, a1⟩ := blob_adds fresh hash h (b := p.name) (by omega)
  have hw1 : adbWoBlob fresh hash ([0, 0, 0], db) adbiDepName (some p.name) = some ([v1, 0, 0], db1) := by
    rw [adbWoBlob, Option.getD_some, h1]
    rfl
  rw [dependencyFields, hw1, Option.bind_some]
  by_cases hany : p.op = apkDepmaskAny
  · refine ⟨v1, 0, 0, db1, if_pos hany, forall_three hv1 (by decide) (by decide),
      a1.imp (by omega) fun adb hadb => ⟨hadb, ?_, ?_⟩⟩
    · rw [storedVersion, if_pos hany]
      exact adbRBlob_null adb
    · rw [storedMatch, if_pos (Or.inl hany)]
      exact adbRInt_null
  have hlen1 := a1.len
  obtain ⟨v2, db2, h2, hv2, a2⟩ := blob_adds fresh hash a1.ready
    (b := (p.version.map (·.2)).getD []) (by omega)
  have hw2 : adbWoBlob fresh hash ([v1, 0, 0], db1) adbiDepVersion (p.version.map (·.2)) =
      some ([v1, v2, 0], db2) := by
    rw [adbWoBlob, h2]
    rfl
  have hversion : (if (p.version.map (·.2)).getD [] = [] then none
      else some ((p.version.map (·.2)).getD [])) = storedVersion p := by
    rw [storedVersion, if_neg hany]
    cases hv : p.version with
    | none => rfl
    | some v => exact if_neg (p.version_bytes v hv).1
  rw [if_neg hany, hw2, Option.bind_some]
  by_cases heq : p.op = apkVersionEqual
  · refine ⟨v1, v2, 0, db2, if_pos heq, forall_three hv1 hv2 (by decide),
      (a1.trans a2).imp (by omega) fun adb hadb => ⟨hadb.1, hadb.2.trans hversion, ?_⟩⟩
    rw [storedMatch, if_pos (Or.inr heq)]
    exact adbRInt_null
  obtain ⟨h3, hread3⟩ := adbWInt_small fresh hash p.op_lt
  refine ⟨v1, v2, adbVal adbTypeInt p.op, db2, ?_, forall_three hv1 hv2 adbVal_lt,
    (a1.trans a2).imp (by omega) fun adb hadb => ⟨hadb.1, hadb.2.trans hversion, ?_⟩⟩
  · rw [if_neg heq, adbWoInt, h3]
    rfl
  · rw [hread3, storedMatch, if_neg (by tauto)]

theorem adbWDependency_accepted {r : Option (ℕ × AdbWriter)}
    (hr : adbWDependency fresh hash db p.text = .ok r) :
    (∀ c ∈ p.name, dependencyName c = true) ∧
      r = (dependencyFields fresh hash db p.name p.op (p.version.map (·.2))).bind
        fun o => adbWObj fresh hash o.2 adbTypeObject o.1 := by
  unfold adbWDependency dependencyFromstring at hr
  simp only [apkDepParse_parts] at hr
  split_ifs at hr with h1 h2
  · cases hr
  · cases hr
  · cases hr
    exact ⟨by simpa using h2, rfl⟩

theorem dependency_adds (h : db.Ready) {r : Option (ℕ × AdbWriter)}
    (hroom : db.len + (p.text.length + 33) ≤ 2 ^ 28)
    (hr : adbWDependency fresh hash db p.text = .ok r) :
    ∃ v db', r = some (v, db') ∧ db.Adds db' (p.text.length + 33) fun adb =>
      apkDepFromAdb adb (adbRObj adb v) =
        ⟨p.name, (storedVersion p).filter (· ≠ []), p.op, false, 0, 0⟩ := by
  obtain ⟨v1, v2, v3, db1, hchain, hvals, a1⟩ := fields_add fresh hash h p (by omega)
  have hlen1 := a1.len
  obtain ⟨v, db2, hobj, a2⟩ := obj_adds fresh hash a1.ready hvals (by simp; omega)
  refine ⟨v, db2, ?_, (a1.trans a2).imp (by simp) fun adb hadb => ?_⟩
  · rw [(adbWDependency_accepted fresh hash hr).2, hchain, Option.bind_some, hobj]
  obtain ⟨⟨hr1, hr2, hr3⟩, hobj⟩ := hadb
  have h1 : adbRoVal (adbRObj adb v) adbiDepName = v1 := hobj 0
  have h2 : adbRoVal (adbRObj adb v) adbiDepVersion = v2 := hobj 1
  have h3 : adbRoVal (adbRObj adb v) adbiDepMatch = v3 := hobj 2
  unfold apkDepFromAdb
  simp only [h1, h2, h3, hr1, hr2, hr3, stored_op]
  by_cases hname : p.name = []
  · simp [hname]
  · simp [hname]

end

theorem DepParts.name_eq (p : DepParts) :
    (p.name ++ p.tail).takeWhile (fun c => !apkCtype .dependencyComparer c) = p.name := by
  refine (takeWhile_append_run p.name_run ?_).1
  unfold tail
  cases hv : p.version with
  | none => rfl
  | some v =>
    obtain ⟨hne, hall⟩ := p.op_bytes v hv
    obtain ⟨c, l, hcl⟩ := exists_cons_of_ne_nil hne
    have hc := hall c (by rw [hcl]; exact mem_cons_self)
    simp [hcl, hc]

theorem dependencyName_separator :
    ∀ c, apkCtype .dependencySeparator c = true → dependencyName c = false := by
  intro c hc
  simp only [apkCtype, decide_eq_true_eq] at hc
  rcases hc with rfl | rfl <;> decide

/-- a text of a dependency, and the whole of which it is the first token: they have the same
operator, and the same version unless there is a separator -/
theorem parts_of_whole {s : Bytes} {p p' : DepParts} (htoken : depToken s = p.text)
    (hs : p'.text = s) (hname : ∀ c ∈ p'.name, dependencyName c = true) :
    p'.op = p.op ∧ ((∀ c ∈ s, apkCtype .dependencySeparator c = false) →
      p'.version.map (·.2) = p.version.map (·.2)) := by
  have hsplit : p.text ++ s.dropWhile (fun c => !apkCtype .dependencySeparator c) = s := by
    rw [← htoken]
    exact takeWhile_append_dropWhile
  have hparse := apkDepParse_parts p'
  cases hrest : s.dropWhile (fun c => !apkCtype .dependencySeparator c) with
  | nil =>
    rw [hrest, append_nil] at hsplit
    rw [hs, ← hsplit, apkDepParse_parts] at hparse
    obtain ⟨-, hop, hver⟩ : p.name = p'.name ∧ p.op = p'.op ∧ _ := by simpa using hparse
    exact ⟨hop.symm, fun _ => hver.symm⟩
  | cons c r =>
    have hc : apkCtype .dependencySeparator c = true := by
      have hstop := dropWhile_head (show _ = some c by rw [hrest]; rfl)
      simpa using hstop
    rw [hrest] at hsplit
    have hmem : c ∈ s := by
      rw [← hsplit]
      exact mem_append_right _ mem_cons_self
    refine ⟨?_, fun hno => absurd (hno c hmem) (by simp [hc])⟩
    cases hv : p.version with
    | some v =>
      -- the rest belongs to the version
      obtain ⟨hvne, hhead⟩ := p.version_bytes v hv
      let q : DepParts := ⟨p.conflict, p.name, some (v.1, v.2 ++ c :: r), p.name_bytes, p.name_head,
        by rintro _ ⟨⟩; exact p.op_bytes v hv, by
          rintro _ ⟨⟩
          refine ⟨by simp, fun x hx => hhead x ?_⟩
          rwa [head?_append_of_ne_nil _ hvne] at hx⟩
      have hq : q.text = s := by
        rw [← hsplit]
        unfold DepParts.text DepParts.tail
        rw [hv]
        simp [q, mark]
      have hparse' := apkDepParse_parts q
      rw [hs, ← hq, hparse'] at hparse
      have hop : q.op = p'.op := (Prod.ext_iff.1 (Prod.ext_iff.1 (Option.some.inj hparse)).2).1
      rw [← hop]
      unfold op mask
      rw [hv]
      rfl
    | none =>
      -- the separator would be part of the name
      have hmark : p'.mark = p.mark := by
        have h1 := head_iff_conflict htoken
        have h2 := p'.head_iff
        unfold mark
        cases hc1 : p.conflict <;> cases hc2 : p'.conflict <;> simp_all
      have hbody : p'.name ++ p'.tail = p.name ++ c :: r := by
        have heq : p'.mark ++ (p'.name ++ p'.tail) = p.mark ++ (p.name ++ c :: r) := by
          change p'.text = _
          rw [hs, ← hsplit]
          unfold DepParts.text DepParts.tail
          rw [hv]
          simp
        rw [hmark] at heq
        exact append_cancel_left heq
      have hcname : c ∈ p'.name := by
        have hcomp : apkCtype .dependencyComparer c = false := by
          simp only [apkCtype, decide_eq_true_eq] at hc
          rcases hc with rfl | rfl <;> decide
        rw [← p'.name_eq, hbody, takeWhile_append_of_pos p.name_run]
        simp [hcomp]
      have := hname c hcname
      rw [dependencyName_separator c hc] at this
      cases this

section

variable {P : Type} [DecidableEq P] (pkgs : Database Bytes P)

theorem apkDepIsProvided_congr {a b : Dependency Bytes} (hop : a.op = b.op)
    (hver : a.op &&& apkDepmaskAny = apkDepmaskAny ∨ a.version = b.version) (deppkg : Option P)
    (q : Option (Provider P)) :
    apkDepIsProvided pkgs deppkg a q = apkDepIsProvided pkgs deppkg b q := by
  have hconflict : apkDepConflict a = apkDepConflict b := by rw [apkDepConflict, apkDepConflict, hop]
  cases q with
  | none => exact hconflict
  | some q =>
    rw [apkDepIsProvided, apkDepIsProvided, hconflict, hop]
    rcases hver with hany | hver
    · have hsum : b.op ≠ apkDepmaskChecksum := by
        rintro hsum
        rw [hop, hsum] at hany
        exact absurd hany (by decide)
      rw [hop] at hany
      rw [if_neg hsum, if_neg hsum]
      unfold apkVersionMatch
      simp [hany]
    · unfold apkDepMatchChecksum
      rw [hver]

/-- a dependency is provided by the same packages after its way through a database, and after any
writes that follow, if no separator is in its text or its operator allows every version -/
theorem dep_adb_agrees (fresh : ℕ → UInt8) (hash : List Bytes → ℕ) {db : AdbWriter} (hdb : db.Ready)
    {tags tags' : List Bytes} {s rest : Bytes} {d : Dependency Bytes} {r : Option (ℕ × AdbWriter)}
    (hroom : db.len + (s.length + 33) ≤ 2 ^ 28)
    (hpull : apkBlobPullDepTag false tags s = (some (d, rest), tags'))
    (hr : adbWDependency fresh hash db s = .ok r)
    (hsep : (∀ c ∈ s, apkCtype .dependencySeparator c = false) ∨ d.op &&& apkDepmaskAny = apkDepmaskAny) :
    ∃ v db', r = some (v, db') ∧
      ∀ ws, WithinRange fresh hash db' ws → ∃ vals db'', adbWrites fresh hash db' ws = some (vals, db'') ∧
        ∀ (deppkg : Option P) (q : Option (Provider P)),
          apkDepIsProvided pkgs deppkg (apkDepFromAdb db''.adb (adbRObj db''.adb v)) q =
            apkDepIsProvided pkgs deppkg d q := by
  obtain ⟨p, htoken, hdep, -⟩ := exists_parts_of_pull hpull
  obtain ⟨hop, hver, -⟩ := dep_fields hdep
  obtain ⟨x, hparse⟩ : ∃ x, apkDepParse s = some x := by
    cases hparse : apkDepParse s with
    | none => simp [adbWDependency, dependencyFromstring, hparse, Except.map] at hr
    | some x => exact ⟨x, rfl⟩
  obtain ⟨p', rfl, -⟩ := exists_parts hparse
  obtain ⟨hop', hver'⟩ := parts_of_whole htoken rfl (adbWDependency_accepted fresh hash hr).1
  obtain ⟨v, db', rfl, hadds⟩ := dependency_adds fresh hash hdb hroom hr
  refine ⟨v, db', rfl, fun ws hws => ?_⟩
  obtain ⟨vals, db'', hrun, hkept, -⟩ := adbWrites_some fresh hash hadds.ready hws
  refine ⟨vals, db'', hrun, fun deppkg q => ?_⟩
  rw [hadds.reads _ hkept]
  refine apkDepIsProvided_congr pkgs (hop'.trans hop.symm) ?_ deppkg q
  by_cases hany : p'.op &&& apkDepmaskAny = apkDepmaskAny
  · exact Or.inl hany
  have hno : ∀ c ∈ p'.text, apkCtype .dependencySeparator c = false := by
    refine hsep.resolve_right ?_
    rwa [hop, ← hop']
  have hne : p'.op ≠ apkDepmaskAny := by
    intro h
    rw [h] at hany
    exact hany (by decide)
  refine Or.inr ?_
  rw [storedVersion, if_neg hne, hver, ← hver' hno]
  cases hv : p'.version with
  | none => rfl
  | some x =>
    have hx := (p'.version_bytes x hv).1
    simp [hx]

end

/-- the database is given the blank as a part of the version, and its dependency is not provided -/
theorem separator_in_version :
    (apkBlobPullDepTag false [[]] (ascs ['!', 'a', '>', '<', '1', ' '])).1.map (fun r =>
        (r.1.broken, apkDepIsProvided loneDb none r.1 (some ⟨(), versionOf '1'⟩))) =
      some (false, true) ∧
      ((adbWInitDynamic (fun _ => 0) 1).bind fun db =>
        (adbWDependency (fun _ => 0) List.length db
          (ascs ['!', 'a', '>', '<', '1', ' '])).toOption.join.map fun r =>
            apkDepIsProvided loneDb none (apkDepFromAdb r.2.adb (adbRObj r.2.adb r.1))
              (some ⟨(), versionOf '1'⟩)) = some false := by
  decide +kernel

theorem dep_adb_agrees_versioned : ∃ db, adbWInitDynamic (fun _ => 0) 1 = some db ∧
      ∃ v db', adbWDependency (fun _ => 0) List.length db (ascs ['!', 'a', '>', '1']) =
          .ok (some (v, db')) ∧
        ∀ ws, WithinRange (fun _ => 0) List.length db' ws → ∃ vals db'',
          adbWrites (fun _ => 0) List.length db' ws = some (vals, db'') ∧
            ∀ (deppkg : Option Unit) (q : Option (Provider Unit)),
              apkDepIsProvided loneDb deppkg (apkDepFromAdb db''.adb (adbRObj db''.adb v)) q =
                apkDepIsProvided loneDb deppkg ⟨ascs ['a'], versionOf '1',
                  apkVersionConflict ||| apkVersionGreater, false, 0, 0⟩ q := by
  obtain ⟨db, hinit, hdb⟩ := adbWInitDynamic_some Nat.one_pos
  have hlen : (adbWInitDynamic (fun _ => 0) 1).map (·.len) = some 8 := by decide +kernel
  rw [hinit, Option.map_some, Option.some_inj] at hlen
  obtain ⟨r, hr⟩ : ∃ r, adbWDependency (fun _ => 0) List.length db (ascs ['!', 'a', '>', '1']) =
      .ok r := ⟨_, rfl⟩
  have hpull : apkBlobPullDepTag false [[]] (ascs ['!', 'a', '>', '1']) = (some
      (⟨ascs ['a'], versionOf '1', apkVersionConflict ||| apkVersionGreater, false, 0, 0⟩, []),
      [[]]) := by decide +kernel
  obtain ⟨v, db', rfl, hreads⟩ := dep_adb_agrees loneDb (fun _ => 0) List.length hdb
    (by rw [hlen]; decide) hpull hr (Or.inl (by decide +kernel))
  exact ⟨db, hinit, v, db', hr, hreads⟩

end Alpine
