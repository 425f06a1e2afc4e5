import Alpine.Sanity.ExtractV3
import Alpine.Proofs.AdbTrust

/-! The extraction of a package of version 3 as a whole: the calls of `ops->file` follow the entries that
the loops go through, and the data blocks come in the order of the files that need them. These are the entries
of the paths array as far as the names of the directories fit the path builder: one that does not is taken
for the root. -/

namespace Alpine

open List ExtractV3 ReadsTo

/-- A call for its entry. It has a data block if the entry needs one, and then the block is that of
the entry. -/
structure CallOk (adb : Bytes) (env : TarEnv) (c : V3Call) : Prop extends CallOf adb env c.entry c where
  needs : NeedsData adb c.entry ↔ c.block ≠ none
  block : ∀ b, c.block = some b →
    c.entry = .file b.pathIdx b.fileIdx ∧ b.size = v3FileSize adb b.pathIdx b.fileIdx

def deliveries (calls : List V3Call) : ℕ := (calls.filterMap V3Call.block).length

theorem deliveries_append {a b : List V3Call} : deliveries (a ++ b) = deliveries a + deliveries b := by
  simp [deliveries]

section

variable {χ : Type} {adb : Bytes} {env : TarEnv} {file : FileCallback χ}

variable {es rest : List V3Entry} {c : V3Call} {calls mid : List V3Call} {o : Option ℤ} {n : ℕ}

theorem PlainCall.ok {e : V3Entry} (h : PlainCall adb file env e c) : CallOk adb env c where
  entry := rfl
  info := by rw [h.entry]; exact h.info
  name := by rw [h.entry]; exact h.name
  needs := by simp [h.entry, h.plain, h.block]
  block b hb := by rw [h.block] at hb; cases hb

theorem Walk.deliveries (h : Walk adb file env es mid o rest) : deliveries mid = 0 := by
  have hnone : mid.filterMap V3Call.block = [] := by
    rw [filterMap_eq_nil_iff]
    exact fun c hc => (h.calls c hc).block
  rw [Alpine.deliveries, hnone]
  rfl

structure Progress (adb : Bytes) (env : TarEnv) (calls : List V3Call) (es : List V3Entry) (n : ℕ) :
    Prop where
  order : calls.map V3Call.entry ++ es = v3Visits adb
  ok : ∀ c ∈ calls, CallOk adb env c
  blocks : deliveries calls = n

theorem Progress.walk (h : Progress adb env calls es n) (hw : Walk adb file env es mid o rest) :
    Progress adb env (calls ++ mid) rest n where
  order := by
    rw [map_append, append_assoc, hw.entries]
    exact h.order
  ok c hc := by
    rcases mem_append.1 hc with hc | hc
    · exact h.ok c hc
    · exact (hw.calls c hc).ok
  blocks := by rw [deliveries_append, h.blocks, hw.deliveries, Nat.add_zero]

theorem Progress.deliver {i j : ℕ} {b : V3Block} (h : Progress adb env calls (.file i j :: es) n)
    (hc : CallOk adb env c) (he : c.entry = .file i j) (hb : c.block = some b) :
    Progress adb env (calls ++ [c]) es (n + 1) where
  order := by
    rw [map_append, append_assoc, map_singleton, he]
    exact h.order
  ok x hx := by
    rcases mem_append.1 hx with hx | hx
    · exact h.ok x hx
    · rw [mem_singleton.1 hx]
      exact hc
  blocks := by
    rw [deliveries_append, h.blocks]
    simp [Alpine.deliveries, hb]

end

/-- a callback that uses a stream by reading from it, and does not cancel the extraction: it returns
0 or an error other than `-ECANCELED` -/
structure FileCallback.NonCancelling {χ : Type} (f : FileCallback χ) : Prop where
  null : ∀ s fi, (f.null s fi).1 ≤ 0 ∧ (f.null s fi).1 ≠ -ecanceled
  stream : ∀ (τ : Type) (iops : IstreamOps τ) (s : χ) (fi : V3FileInfo) (is : Istream τ),
    iops.Quiet → is.Quiet → (f.stream τ iops s fi is).1 ≠ -ecanceled ∧
      (f.stream τ iops s fi is).2.2.Quiet ∧ ReadsTo iops is.src (f.stream τ iops s fi is).2.2.src

structure ExtractOps.NonCancelling {χ : Type} (ops : ExtractOps χ) : Prop where
  v3meta : ∀ m, ops.v3meta = some m → ∀ s adb o, (m s adb o).1 ≠ -ecanceled
  file : ∃ f, ops.file = some f ∧ f.NonCancelling

section

variable {K χ : Type} {env : TarEnv} {crypto : Crypto K} {adb : Bytes} {ops : ExtractOps χ}
  {file : FileCallback χ} {q : Prop}

/-- what a data block leaves behind, where `n` blocks were delivered before it: it is delivered, or it
is the last one -/
structure BlockDone (q : Prop) (adb : Bytes) (env : TarEnv) (n : ℕ) (r : ℤ) (c : ExtractV3 χ) : Prop where
  goes : 0 ≤ r → ∃ es, Ahead adb c es ∧ Progress adb env c.calls es (n + 1)
  stops : r < 0 → ∃ es m, Progress adb env c.calls es m ∧ m ≤ n + 1 ∧ n ≤ m
  quiet : q → r ≠ -ecanceled

variable {es : List V3Entry} {n i j : ℕ} {τ : Type}

variable {iops : IstreamOps τ} {c : ExtractV3 χ} {is : Istream τ} {len : ℕ} {db : Adb} {e r : ℤ}
    {blk : AdbBlock}

theorem blockDone_of_error (h : Progress adb env c.calls es n) (hr : r < 0)
    (hq : q → r ≠ -ecanceled) : BlockDone q adb env n r c :=
  ⟨fun h0 => absurd hr (not_lt.2 h0), fun _ => ⟨es, n, h, by omega, le_rfl⟩, hq⟩

theorem apkIstreamGet_error (h : (apkIstreamGet iops is len).1 = .error e) : e < 0 := by
  have hpeek := (apkIstreamPeek_takes len (.refl : IstreamTakes iops is [] is)).2
  unfold apkIstreamGet at h
  generalize apkIstreamPeek iops is len = r at h hpeek
  rcases r with ⟨e1 | b, is1⟩
  · cases h
    exact hpeek
  · cases h

theorem digestOps_quiet (hq : iops.Quiet) : (digestOps iops crypto).Quiet where
  read s n e s' h := by
    simp only [digestOps, digestRead] at h
    cases hr : iops.read s.pis n with
    | mk res s1 =>
      rw [hr] at h
      cases res with
      | error e1 =>
        cases h
        exact hq.read _ _ _ _ hr
      | ok b => cases h
  close s e h := by
    simp only [digestOps, digestClose] at h
    split_ifs at h
    · exact h
    · exact absurd h (by decide)
    · exact absurd h (by decide)

theorem ReadsTo.digest {d d' : DigestStream τ} (h : ReadsTo (digestOps iops crypto) d d') :
    ReadsTo iops d.pis d'.pis := by
  induction h with
  | refl => exact refl
  | @read d1 n _ ih =>
    have hread : ((digestOps iops crypto).read d1 n).2.pis = (iops.read d1.pis n).2 := by
      simp only [digestOps, digestRead]
      cases iops.read d1.pis n with
      | mk res s1 => cases res <;> rfl
    rw [hread]
    exact read n ih

theorem Paused.called (h : Paused adb c i j) (user : χ) (call : V3Call) :
    Paused adb (c.called user call) i j :=
  ⟨⟨⟨h.paths, h.path, h.files, h.curPath⟩, h.curFile, h.file, h.needs, h.ended, h.name⟩, h.path_pos, h.path_le,
    h.file_pos, h.file_le⟩

theorem schema_error : -apkeAdbSchema < 0 ∧ -apkeAdbSchema ≠ -ecanceled := by decide

theorem block_error : -apkeAdbBlock < 0 ∧ -apkeAdbBlock ≠ -ecanceled := by decide

section

variable (h : Paused adb c i j) (hp : Progress adb env c.calls (.file i j :: v3After adb i j) n)
    (hq : q → file.NonCancelling)
include h hp hq

theorem extractV3Stream_done (hquiet : q → iops.Quiet) {blk : V3Block} (hpath : blk.pathIdx = i)
    (hfile : blk.fileIdx = j) (hsize : blk.size = v3FileSize adb i j) :
    BlockDone q adb env n (extractV3Stream env crypto adb file iops c blk is).1
      (extractV3Stream env crypto adb file iops c blk is).2.1 := by
  have htarget : ¬ (adbRoBlob adb c.file adbiFiTarget).isSome = true := by
    rw [h.file, h.needs.2]
    simp
  unfold extractV3Stream
  cases hfi : v3FileInfo env adb c.file (apkPathbuilderCstr c.pb) with
  | none => exact blockDone_of_error hp schema_error.1 fun _ => schema_error.2
  | some fi =>
    have hname := v3FileInfo_name hfi
    rw [h.file] at hfi
    simp only [if_neg htarget]
    have hstream : q → _ := fun hx => (hq hx).stream (DigestStream τ) (digestOps iops crypto) c.user fi
      (apkIstreamVerify is fi.size fi.digestAlg fi.digest) (digestOps_quiet (hquiet hx))
      (show (0 : ℤ) ≠ -ecanceled by decide)
    generalize file.stream (DigestStream τ) (digestOps iops crypto) c.user fi
      (apkIstreamVerify is fi.size fi.digestAlg fi.digest) = out at hstream ⊢
    obtain ⟨r, user, dis⟩ := out
    unfold verifiedCall
    simp only [h.curPath, h.curFile] at hstream ⊢
    have hclose : q → apkIstreamCloseError (digestOps iops crypto) dis r ≠ -ecanceled := fun hx he =>
      (hstream hx).1 (apkIstreamCloseError_quiet (digestOps_quiet (hquiet hx)) (hstream hx).2.1 he)
    generalize apkIstreamCloseError (digestOps iops crypto) dis r = r' at hclose ⊢
    have hok : CallOk adb env ⟨.file i j, fi, some blk, r'⟩ := by
      refine ⟨⟨rfl, ?_, ?_⟩, ?_, ?_⟩
      · rw [hname]
        exact hfi
      · rw [hname]
        exact h.name
      · simp [h.needs]
      intro b hb
      cases hb
      rw [hpath, hfile]
      exact ⟨rfl, hsize⟩
    have hp' : Progress adb env (c.called user ⟨.file i j, fi, some blk, r'⟩).calls (v3After adb i j)
        (n + 1) := hp.deliver hok rfl rfl
    exact ⟨fun _ => ⟨_, Ahead.resume (h.called user _), hp'⟩,
      fun _ => ⟨_, n + 1, hp', le_rfl, by omega⟩, hclose⟩

theorem extractV3Data_done (hquiet : q → iops.Quiet ∧ is.Quiet) :
    BlockDone q adb env n (extractV3Data env crypto adb iops file c len is).1
      (extractV3Data env crypto adb iops file c len is).2.1 := by
  have hgetq : q → _ := fun hx => apkIstreamGet_keeps (hquiet hx).1.keeps (hquiet hx).2 8
  unfold extractV3Data
  generalize hget : apkIstreamGet iops is 8 = p at hgetq ⊢
  obtain ⟨res, is1⟩ := p
  cases res with
  | error e =>
    exact blockDone_of_error hp (apkIstreamGet_error (congrArg Prod.fst hget)) fun hx => (hgetq hx).1 e rfl
  | ok hdr =>
    simp only
    split_ifs with hmatch
    · exact blockDone_of_error hp block_error.1 fun _ => block_error.2
    push Not at hmatch
    obtain ⟨hpath, hfile, hsize⟩ := hmatch
    rw [h.curPath] at hpath
    rw [h.curFile] at hfile
    rw [h.file] at hsize
    exact extractV3Stream_done h hp hq (fun hx => (hquiet hx).1) hpath hfile hsize

end

theorem apkExtractV3DataBlock_done (hq : q → ops.NonCancelling)
    (h : Ahead adb c es) (hp : Progress adb env c.calls es n) (hadb : db.adb.getD [] = adb)
    (htype : adbBlockType blk = adbBlockData) (hquiet : q → iops.Quiet ∧ is.Quiet) :
    BlockDone q adb env n (apkExtractV3DataBlock env crypto ops τ iops c db blk is).1
      (apkExtractV3DataBlock env crypto ops τ iops c db blk is).2.1 := by
  unfold apkExtractV3DataBlock
  rw [if_neg (not_not.2 htype)]
  simp only [hadb]
  by_cases hschema : db.schema ≠ adbSchemaPackage
  · rw [if_pos hschema]
    exact blockDone_of_error hp schema_error.1 fun _ => schema_error.2
  rw [if_neg hschema]
  cases hmeta : ops.v3meta with
  | none =>
    exact blockDone_of_error hp (show -apkeFormatNotSupported < 0 by decide)
      fun _ => show -apkeFormatNotSupported ≠ -ecanceled by decide
  | some v3meta =>
    have hnext := apkExtractV3NextFile_next env ops v3meta h
    obtain ⟨r, c1, hc1⟩ : ∃ r c1, apkExtractV3NextFile env adb ops v3meta c = (r, c1) := ⟨_, _, rfl⟩
    simp only [hc1]
    rw [hc1] at hnext
    cases hnext with
    | failed s o hres hr hcalls =>
      rw [if_pos hr.ne, if_neg (by omega)]
      rw [← hcalls] at hp
      refine blockDone_of_error hp hr fun hx he => (hq hx).v3meta v3meta hmeta s adb o ?_
      rw [← hres]
      exact he
    | canceled hfile hr hcalls =>
      have hneg : -ecanceled ≠ 0 ∧ ¬ 0 < -ecanceled ∧ -ecanceled < 0 := by decide
      subst hr
      rw [← hcalls] at hp
      refine blockDone_of_error hp hneg.2.2 fun hx => ?_
      obtain ⟨f, hf, -⟩ := (hq hx).file
      rw [hfile] at hf
      cases hf
    | walked file hfile o mid rest hcalls hwalk hr hpause =>
      have hp1 := hp.walk hwalk
      rw [← hcalls] at hp1
      have hfileq : q → file.NonCancelling := fun hx => by
        obtain ⟨f, hf, hnc⟩ := (hq hx).file
        rw [hfile] at hf
        cases hf
        exact hnc
      cases o with
      | none =>
        subst hr
        exact blockDone_of_error hp1 block_error.1 fun _ => block_error.2
      | some r1 =>
        obtain rfl : r = r1 := hr
        by_cases h0 : r = 0
        · subst h0
          obtain ⟨i, j, hrest, hat⟩ := hpause rfl
          rw [hrest] at hp1
          simp only [hfile]
          exact extractV3Data_done hat hp1 hfileq hquiet
        rw [if_pos h0]
        split_ifs with hpos
        · exact blockDone_of_error hp1 block_error.1 fun _ => block_error.2
        refine blockDone_of_error hp1 (show r < 0 by omega) fun hx => ?_
        rcases hwalk.stopped rfl h0 with rfl | ⟨s, fi, rfl⟩
        · exact schema_error.2
        · exact ((hfileq hx).null s fi).2

/-- the calls and what is ahead, as long as no call has failed -/
def V3Good (env : TarEnv) (db : Adb) (seen : List AdbSeen) (c : ExtractV3 χ) : Prop :=
  ∃ es, Ahead (db.adb.getD []) c es ∧ Progress (db.adb.getD []) env c.calls es (seen.count .data)

/-- the calls after one has failed: the last data block may be missing among them -/
def V3Bad (q : Prop) (env : TarEnv) (r : ℤ) (db : Adb) (seen : List AdbSeen) (c : ExtractV3 χ) : Prop :=
  (∃ es m, Progress (db.adb.getD []) env c.calls es m ∧ m ≤ seen.count .data ∧
    seen.count .data ≤ m + 1) ∧ (q → r ≠ -ecanceled)

theorem apkExtractV3DataBlock_quiet (hnc : ops.NonCancelling) (hq : iops.Quiet) (h : is.Quiet) :
    (apkExtractV3DataBlock env crypto ops τ iops c db blk is).2.2.Quiet ∧
      ReadsTo iops is.src (apkExtractV3DataBlock env crypto ops τ iops c db blk is).2.2.src := by
  obtain ⟨f, hf, hfnc⟩ := hnc.file
  unfold apkExtractV3DataBlock
  simp only [hf]
  split_ifs
  · exact ⟨h, refl⟩
  · exact ⟨h, refl⟩
  cases ops.v3meta with
  | none => exact ⟨h, refl⟩
  | some v3meta =>
    simp only
    split_ifs
    · exact ⟨h, refl⟩
    · exact ⟨h, refl⟩
    generalize (apkExtractV3NextFile env (db.adb.getD []) ops v3meta c).2 = c1
    unfold extractV3Data
    have hget := (apkIstreamGet_keeps hq.keeps h 8).2
    have hreads := (apkIstreamGet_keeps (keeps iops is.src) .refl 8).2
    generalize apkIstreamGet iops is 8 = p at hget hreads ⊢
    obtain ⟨res, is1⟩ := p
    cases res with
    | error e => exact ⟨hget, hreads⟩
    | ok hdr =>
      simp only
      split_ifs
      · exact ⟨hget, hreads⟩
      unfold extractV3Stream
      cases v3FileInfo env (db.adb.getD []) c1.file (apkPathbuilderCstr c1.pb) with
      | none => exact ⟨hget, hreads⟩
      | some fi =>
        split_ifs
        · obtain ⟨-, h1, h2⟩ := hfnc.stream τ iops c1.user fi is1 hq hget
          exact ⟨h1, hreads.trans h2⟩
        obtain ⟨-, -, h2⟩ := hfnc.stream (DigestStream τ) (digestOps iops crypto) c1.user fi
          (apkIstreamVerify is1 fi.size fi.digestAlg fi.digest) (digestOps_quiet hq)
          (show (0 : ℤ) ≠ -ecanceled by decide)
        exact ⟨hget, hreads.trans h2.digest⟩

variable (env crypto ops) in
theorem extractV3_rule (hq : q → ops.NonCancelling) :
    CallbackRule (apkExtractV3DataBlock env crypto ops) q (V3Good env) (V3Bad q env) where
  call τ iops db seen c blk b is hgood htype hquiet := by
    by_cases hdata : adbBlockType blk = adbBlockData
    · have hseen : seenOf (adbBlockType blk) b = .data := by rw [hdata]; rfl
      have hcount : (seen ++ [AdbSeen.data]).count .data = seen.count .data + 1 := by simp
      rw [hseen]
      obtain ⟨es, hahead, hp⟩ := hgood
      have hdone : BlockDone q (db.adb.getD []) env (seen.count .data)
          (apkExtractV3DataBlock env crypto ops τ iops c db blk is).1
          (apkExtractV3DataBlock env crypto ops τ iops c db blk is).2.1 :=
        apkExtractV3DataBlock_done hq hahead hp rfl hdata hquiet
      unfold V3Good V3Bad
      rw [hcount]
      refine ⟨hdone.goes, fun h0 => ?_⟩
      obtain ⟨es, m, hp, h1, h2⟩ := hdone.stops h0
      exact ⟨⟨es, m, hp, h1, by omega⟩, hdone.quiet⟩
    have hseen : seenOf (adbBlockType blk) b ≠ .data := by
      rcases htype with h | h | h
      · rw [h]
        exact fun h => by cases h
      · rw [h]
        exact fun h => by cases h
      · exact absurd h hdata
    have hout : apkExtractV3DataBlock env crypto ops τ iops c db blk is = (0, c, is) := if_pos hdata
    rw [hout]
    refine ⟨fun _ => ?_, fun h0 => absurd h0 (lt_irrefl (0 : ℤ))⟩
    have hcount : (seen ++ [seenOf (adbBlockType blk) b]).count .data = seen.count .data := by
      simp [hseen]
    unfold V3Good
    rw [hcount]
    exact hgood
  quiet hx τ iops db c blk is hops his := apkExtractV3DataBlock_quiet (hq hx) hops his

def dataBlocks (calls : List AdbCall) : ℕ := (calls.map AdbCall.block).count .data

/-- calls for the first entries of a list, with the data blocks that were seen -/
structure Delivered (entries : List V3Entry) (adb : Bytes) (env : TarEnv) (calls : List V3Call) (blocks : ℕ) :
    Prop where
  order : calls.map V3Call.entry <+: entries
  ok : ∀ c ∈ calls, CallOk adb env c
  blocks : deliveries calls ≤ blocks ∧ blocks ≤ deliveries calls + 1

theorem Progress.delivered {calls : List V3Call} {m : ℕ} (h : Progress adb env calls es m)
    (h1 : m ≤ n) (h2 : n ≤ m + 1) : Delivered (v3Visits adb) adb env calls n where
  order := ⟨es, h.order⟩
  ok := h.ok
  blocks := by
    rw [h.blocks]
    exact ⟨h1, h2⟩

/-- all entries of a list have been delivered, and every data block with them -/
def DeliveredAll (entries : List V3Entry) (calls : List V3Call) (blocks : ℕ) : Prop :=
  calls.map V3Call.entry = entries ∧ deliveries calls = blocks

theorem extractV3Next_done {v3meta : χ → Bytes → AdbObj → ℤ × χ}
    (hmeta : ops.v3meta = some v3meta) (h : Ahead adb c es) (hp : Progress adb env c.calls es n) :
    Delivered (v3Visits adb) adb env (apkExtractV3NextFile env adb ops v3meta c).2.calls n ∧
      (ops.NonCancelling → (apkExtractV3NextFile env adb ops v3meta c).1 = 1 ∨
          (apkExtractV3NextFile env adb ops v3meta c).1 = -ecanceled →
        DeliveredAll (v3Visits adb) (apkExtractV3NextFile env adb ops v3meta c).2.calls n) := by
  have hcan : (1 : ℤ) ≠ -ecanceled ∧ -ecanceled < 0 ∧ -ecanceled ≠ -apkeAdbSchema := by decide
  have hschema : (1 : ℤ) ≠ -apkeAdbSchema := by decide
  cases apkExtractV3NextFile_next env ops v3meta h with
  | failed s o hres hr hcalls =>
    rw [← hcalls] at hp
    refine ⟨hp.delivered le_rfl (by omega), fun hnc hend => ?_⟩
    have hne := hnc.v3meta v3meta hmeta s adb o
    rw [← hres] at hne
    rcases hend with hend | hend
    · omega
    · exact absurd hend hne
  | canceled hfile hr hcalls =>
    rw [← hcalls] at hp
    refine ⟨hp.delivered le_rfl (by omega), fun hnc _ => ?_⟩
    obtain ⟨f, hf, -⟩ := hnc.file
    rw [hfile] at hf
    cases hf
  | walked file hfile o mid rest hcalls hwalk hr hpause =>
    have hp1 := hp.walk hwalk
    rw [← hcalls] at hp1
    refine ⟨hp1.delivered le_rfl (by omega), fun hnc hend => ?_⟩
    have hnull : ∀ s fi, (file.null s fi).1 ≤ 0 ∧ (file.null s fi).1 ≠ -ecanceled := by
      obtain ⟨f, hf, hfnc⟩ := hnc.file
      rw [hfile] at hf
      cases hf
      exact hfnc.null
    cases o with
    | none =>
      have hrest := hp1.order
      rw [hwalk.end, append_nil] at hrest
      exact ⟨hrest, hp1.blocks⟩
    | some r =>
      -- no callback gives a 1 or cancels
      have hr' : (apkExtractV3NextFile env adb ops v3meta c).1 = r := hr
      rw [hr'] at hend
      rcases hwalk.stopped rfl (by omega) with h1 | ⟨s, fi, h1⟩
      · omega
      have := hnull s fi
      rw [← h1] at this
      rcases hend with hend | hend
      · omega
      · exact absurd hend this.2

variable (env ops) in
theorem extractV3End_done {rd : AdbReader (ExtractV3 χ)} (hadb : rd.db.adb.getD [] = adb)
    (h : Ahead adb rd.cbs es) (hp : Progress adb env rd.cbs.calls es n) :
    Delivered (v3Visits adb) adb env (extractV3End env ops rd).2.cbs.calls n ∧
      (ops.NonCancelling → rd.db.schema = adbSchemaPackage →
        ∀ r, (extractV3End env ops rd).1 = some r → r = 0 ∨ r = -ecanceled →
        DeliveredAll (v3Visits adb) (extractV3End env ops rd).2.cbs.calls n) := by
  have hstay := hp.delivered le_rfl (show n ≤ n + 1 by omega)
  unfold extractV3End
  simp only [hadb]
  by_cases hpkg : rd.db.schema = adbSchemaPackage
  · rw [if_pos hpkg]
    cases hmeta : ops.v3meta with
    | none => exact ⟨hstay, fun _ _ r hr => absurd hr (by simp)⟩
    | some v3meta =>
      obtain ⟨hseq, hdone⟩ := extractV3Next_done hmeta h hp
      refine ⟨hseq, fun hnc _ r hr hend => hdone hnc ?_⟩
      have h1 : -apkeAdbBlock ≠ 0 ∧ -apkeAdbBlock ≠ -ecanceled := by decide
      have hr' := Option.some.inj hr
      split_ifs at hr' with h0 hone
      · rw [← hr'] at hend
        rcases hend with hend | hend
        · exact absurd hend h1.1
        · exact absurd hend h1.2
      · exact Or.inl hone
      rw [← hr'] at hend
      rcases hend with hend | hend
      · exact absurd hend h0
      · exact Or.inr hend
  rw [if_neg hpkg]
  refine ⟨?_, fun _ h => absurd h hpkg⟩
  split_ifs
  · cases ops.v3index with
    | none => exact hstay
    | some v3index => exact hstay
  · exact hstay

variable (env ops) in
theorem extractV3End_keep (rd : AdbReader (ExtractV3 χ)) :
    (extractV3End env ops rd).2.calls = rd.calls ∧ (extractV3End env ops rd).2.db = rd.db := by
  unfold extractV3End
  split_ifs
  · cases ops.v3meta <;> exact ⟨rfl, rfl⟩
  · cases ops.v3index <;> exact ⟨rfl, rfl⟩
  · exact ⟨rfl, rfl⟩

theorem extractV3Result_zero (h : extractV3Result r db = 0) : r = 0 ∨ r = -ecanceled := by
  unfold extractV3Result at h
  by_cases hc : r = -ecanceled
  · exact Or.inr hc
  simp only at h
  split_ifs at h with h0
  · exact Or.inl h0.1
  · exact Or.inl h

variable (env crypto ops) in
theorem extractV3_none (hq : q → ops.NonCancelling) :
    CallbackRule (apkExtractV3DataBlock env crypto ops) q
      (fun _ seen c => seen = [] → c.calls = []) (fun _ _ seen _ => seen ≠ []) where
  call _ _ _ _ _ _ _ _ _ _ _ := ⟨fun _ h => absurd h (by simp), fun _ => by simp⟩
  quiet hx _ _ db c blk _ hops his := apkExtractV3DataBlock_quiet (hq hx) hops his

end

section

variable {K χ σ : Type} {env : TarEnv} {crypto : Crypto K} {ops : ExtractOps χ}
  {t : Option (Trust K)} {ectx : Option ExtractCtx} {iops : IstreamOps σ} {is : Istream σ}
  {beyond : Bytes} {fuel : ℕ} {user : χ}

theorem apkExtractV3_eq {run} (hops : ¬ (ops.v3meta.isNone = true ∧ ops.v3index.isNone = true)) :
    adbMProcess crypto t ectx (apkExtractV3DataBlock env crypto ops) iops is beyond 0 fuel (new user) = run →
    apkExtractV3 env crypto ops t ectx iops is beyond fuel user =
      match run with
      | (none, rd) => (none, rd)
      | (some r, rd) =>
        match if r = 0 then extractV3End env ops rd else (some r, rd) with
        | (none, rd) => (none, rd)
        | (some r, rd) => (some (extractV3Result r rd.db), rd) := by
  rintro rfl
  exact if_neg hops

variable (env crypto ops t ectx iops is beyond fuel user) in
theorem apkExtractV3_cases :
    let out := apkExtractV3 env crypto ops t ectx iops is beyond fuel user
    let run := adbMProcess crypto t ectx (apkExtractV3DataBlock env crypto ops) iops is beyond 0 fuel
      (new user)
    (∃ r < 0, out = (some r, AdbReader.init t 0 (new user))) ∨
    (run.1 ≠ some 0 ∧ out.2 = run.2 ∧ (out.1 = some 0 → run.1 = some (-ecanceled))) ∨
    (run.1 = some 0 ∧ out.2 = (extractV3End env ops run.2).2 ∧
      (out.1 = some 0 → ∃ r, (extractV3End env ops run.2).1 = some r ∧ (r = 0 ∨ r = -ecanceled))) := by
  intro out run
  by_cases hops : ops.v3meta.isNone = true ∧ ops.v3index.isNone = true
  · left
    refine ⟨_, apkIstreamCloseError_neg iops is (show -apkeFormatNotSupported < 0 by decide), ?_⟩
    exact if_pos hops
  right
  have hout : out = _ := apkExtractV3_eq hops (rfl : _ = run)
  clear_value out run
  subst hout
  obtain ⟨o, rd⟩ := run
  cases o with
  | none => exact Or.inl ⟨by simp, rfl, fun h => absurd h (by simp)⟩
  | some r =>
    by_cases hr : r = 0
    · right
      subst hr
      dsimp only
      obtain ⟨o1, rd1, he⟩ : ∃ o1 rd1, extractV3End env ops rd = (o1, rd1) := ⟨_, _, rfl⟩
      rw [he]
      cases o1 with
      | none => exact ⟨rfl, rfl, fun h => absurd h (by simp)⟩
      | some r1 => exact ⟨rfl, rfl, fun h => ⟨r1, rfl, extractV3Result_zero (Option.some.inj h)⟩⟩
    left
    dsimp only
    rw [if_neg hr]
    refine ⟨fun h => hr (Option.some.inj h), rfl, fun h => ?_⟩
    rcases extractV3Result_zero (Option.some.inj h) with h0 | h0
    · exact absurd h0 hr
    · rw [h0]

theorem extractV3_before_adb :
    let out := apkExtractV3 env crypto ops t ectx iops is beyond fuel user
    out.2.calls = [] → out.2.cbs.calls = [] := by
  intro out hnil
  have hquiet : False → iops.Quiet := False.elim
  obtain ⟨db, hran, -⟩ := adbMProcess_rule crypto t ectx (extractV3_none env crypto ops False.elim) hquiet
    is False.elim beyond 0 fuel (new user) (fun _ _ => rfl)
  rcases apkExtractV3_cases env crypto ops t ectx iops is beyond fuel user with
    ⟨r, -, hout⟩ | ⟨-, hrd, -⟩ | ⟨hzero, hrd, -⟩
  · have hout' : out = (some r, AdbReader.init t 0 (new user)) := hout
    rw [hout']
    rfl
  · have hrd' : out.2 = _ := hrd
    rw [hrd'] at hnil ⊢
    cases hran with
    | good same hg ho => exact hg (by rw [hnil]; rfl)
    | bad r r' same ho hr hr' hb hcan => exact absurd (by rw [hnil]; rfl) hb
  · have hnil' : out.2 = _ := hrd
    rw [hnil', (extractV3End_keep env ops _).1] at hnil
    exact absurd hnil (adbMProcess_zero hzero).1

/-- a package was extracted, and nothing that was called cancelled the extraction -/
def EndsWell (ops : ExtractOps χ) (iops : IstreamOps σ) (is : Istream σ) (schema : ℕ) (r : Option ℤ) : Prop :=
  r = some 0 ∧ schema = adbSchemaPackage ∧ ops.NonCancelling ∧ iops.Quiet ∧ is.Quiet

/-- the run as a whole, for the database that the callback was given -/
theorem extractV3_sequence {c : AdbCall}
    (hc : c ∈ (apkExtractV3 env crypto ops t ectx iops is beyond fuel user).2.calls) {adb : Bytes}
    (hadb : c.db.adb = some adb) :
    let out := apkExtractV3 env crypto ops t ectx iops is beyond fuel user
    Delivered (v3Visits adb) adb env out.2.cbs.calls (dataBlocks out.2.calls) ∧
      (EndsWell ops iops is c.db.schema out.1 →
        DeliveredAll (v3Visits adb) out.2.cbs.calls (dataBlocks out.2.calls)) := by
  intro out
  have hrule := extractV3_rule env crypto ops
    (q := ops.NonCancelling ∧ iops.Quiet ∧ is.Quiet) (fun hx => hx.1)
  obtain ⟨db, hran, hdb⟩ := adbMProcess_rule crypto t ectx hrule (fun hx => hx.2.1) is
    (fun hx => hx.2.2) beyond 0 fuel (new user)
    (fun db => ⟨_, Ahead.start rfl PathBuilder.new_ended, ⟨rfl, by simp [new], rfl⟩⟩)
  have hcases := apkExtractV3_cases env crypto ops t ectx iops is beyond fuel user
  generalize hrun : adbMProcess crypto t ectx (apkExtractV3DataBlock env crypto ops) iops is beyond 0
    fuel (new user) = run at hran hdb hcases
  change c ∈ out.2.calls at hc
  have hout : apkExtractV3 env crypto ops t ectx iops is beyond fuel user = out := rfl
  rw [hout] at hcases
  clear_value out
  rcases hcases with ⟨r, -, rfl⟩ | ⟨hne, hrd, hres⟩ | ⟨hzero, hrd, hres⟩
  · exact absurd hc (by simp [AdbReader.init])
  · rw [hrd] at hc ⊢
    cases hran with
    | good same hg ho =>
      obtain rfl := same c hc
      obtain ⟨es, hahead, hp⟩ := hg
      rw [hadb] at hp
      refine ⟨hp.delivered le_rfl (Nat.le_succ _), ?_⟩
      rintro ⟨h0, -, hnc, hq1, hq2⟩
      exact absurd (hres h0) (ho ⟨hnc, hq1, hq2⟩)
    | bad r r' same ho hr hr' hb hcan =>
      obtain rfl := same c hc
      obtain ⟨⟨es, m, hp, h1, h2⟩, hnot⟩ := hb
      rw [hadb] at hp
      refine ⟨hp.delivered h1 h2, ?_⟩
      rintro ⟨h0, -, hnc, hq1, hq2⟩
      have hr1 : r = -ecanceled := Option.some.inj (ho.symm.trans (hres h0))
      exact absurd (hcan ⟨hnc, hq1, hq2⟩ hr1) (hnot ⟨hnc, hq1, hq2⟩)
  obtain ⟨hcalls, -⟩ := extractV3End_keep env ops run.2
  rw [hrd, hcalls] at hc ⊢
  cases hran with
  | good same hg ho =>
    obtain rfl := same c hc
    obtain ⟨es, hahead, hp⟩ := hg
    rw [hadb] at hp hahead
    have hbytes : run.2.db.adb.getD [] = adb := by rw [hdb hzero, hadb]; rfl
    obtain ⟨hseq, hdone⟩ := extractV3End_done env ops hbytes hahead hp
    refine ⟨hseq, ?_⟩
    rintro ⟨h0, hschema, hnc, -, -⟩
    obtain ⟨r, hr, hend⟩ := hres h0
    exact hdone hnc (by rw [hdb hzero]; exact hschema) r hr hend
  | bad r r' same ho hr hr' hb hcan =>
    have := Option.some.inj (ho.symm.trans hzero)
    omega

end

section enumeration

variable {adb : Bytes} {i : ℕ}

theorem prefix_before {α : Type} {l a b : List α} {x : α} (h : l <+: a ++ x :: b) (hx : x ∉ l) : l <+: a := by
  rcases prefix_or_prefix_of_prefix h (prefix_append a (x :: b)) with hl | ⟨m, rfl⟩
  · exact hl
  · rw [prefix_append_right_inj] at h
    cases m with
    | nil => rw [append_nil]
    | cons y m =>
      obtain ⟨rfl, -⟩ := cons_prefix_cons.1 h
      exact absurd (by simp) hx

theorem prefix_of_not_mem {α : Type} {l a b : List α} (h : l <+: a ++ b) (hb : ∀ x ∈ b, x ∉ l) : l <+: a := by
  cases b with
  | nil => rwa [append_nil] at h
  | cons x b => exact prefix_before h (hb x mem_cons_self)

theorem path_of_mem {f : ℕ → List V3Entry} (hf : ∀ i, ∀ e ∈ f i, e.path = i) {e : V3Entry} {s n : ℕ}
    (h : e ∈ (List.range' s n).flatMap f) : s ≤ e.path ∧ e.path < s + n := by
  obtain ⟨i, hi, he⟩ := mem_flatMap.1 h
  rw [hf i e he]
  exact mem_range'_1.1 hi

theorem path_entries (i : ℕ) : ∀ e ∈ v3PathEntries adb i, e.path = i := by
  intro e he
  simp only [v3PathEntries, v3DirEntry, v3FilesFrom, mem_append, mem_map] at he
  rcases he with he | ⟨j, -, rfl⟩
  · split_ifs at he
    · cases he
    · rw [mem_singleton.1 he]
      rfl
  · rfl

theorem visits_sublist (i : ℕ) : v3PathVisits adb i <+ v3PathEntries adb i := by
  refine Sublist.append ?_ (Sublist.refl _)
  unfold v3DirVisit
  split_ifs
  · exact Sublist.refl _
  · exact nil_sublist _

theorem visits_eq (h : EntryFits adb (.dir i)) : v3PathVisits adb i = v3PathEntries adb i := by
  rw [v3PathVisits, v3DirVisit, if_pos (show (v3DirName adb i).length + 2 < pathMax from h)]
  rfl

theorem dirEntry_of_long (h : ¬ EntryFits adb (.dir i)) : v3DirEntry adb i = [.dir i] := by
  refine if_neg fun hnil => h ?_
  change (v3DirName adb i).length + 2 < pathMax
  rw [hnil]
  decide

theorem dir_not_visited (h : ¬ EntryFits adb (.dir i)) : V3Entry.dir i ∉ v3Visits adb := by
  intro hmem
  obtain ⟨k, -, hk⟩ := mem_flatMap.1 hmem
  obtain rfl : i = k := path_entries k _ ((visits_sublist k).subset hk)
  simp only [v3PathVisits, v3DirVisit, v3FilesFrom, mem_append, mem_map] at hk
  rw [if_neg (show ¬ (v3DirName adb i).length + 2 < pathMax from h)] at hk
  rcases hk with hk | ⟨j, -, hj⟩
  · cases hk
  · cases hj

/-- the directories from one on -/
theorem range_split {n : ℕ} (h1 : 1 ≤ i) (hn : i ≤ n) :
    List.range' 1 n = List.range' 1 (i - 1) ++ i :: List.range' (i + 1) (n - i) := by
  have hsucc : i :: List.range' (i + 1) (n - i) = List.range' (1 + (i - 1)) (n - i + 1) := by
    rw [range'_succ, show 1 + (i - 1) = i by omega]
  rw [hsucc, range'_append_1]
  congr 1
  omega

theorem entries_split (h1 : 1 ≤ i) (hn : i ≤ adbRaNum (v3Paths adb)) (f : ℕ → List V3Entry) :
    (List.range' adbiFirst (adbRaNum (v3Paths adb))).flatMap f = (List.range' 1 (i - 1)).flatMap f ++
      (f i ++ (List.range' (i + 1) (adbRaNum (v3Paths adb) - i)).flatMap f) := by
  rw [show adbiFirst = 1 from rfl, range_split h1 hn, flatMap_append, flatMap_cons]

theorem visits_eq_of_fits {n : ℕ} (h : ∀ i, 1 ≤ i → i ≤ n → EntryFits adb (.dir i)) :
    (List.range' 1 n).flatMap (v3PathVisits adb) = (List.range' 1 n).flatMap (v3PathEntries adb) := by
  refine flatMap_congr fun i hi => visits_eq (h i ?_ ?_)
  · exact (mem_range'_1.1 hi).1
  · have := (mem_range'_1.1 hi).2
    omega

/-- The first entries that the loops go through are the first entries of the paths array as long as every
directory up to them fits. -/
theorem visits_prefix_iff {l : List V3Entry} (h : l <+: v3Visits adb) : l <+: v3Entries adb ↔
      ∀ i, 1 ≤ i → i ≤ adbRaNum (v3Paths adb) → (∃ e ∈ l, i ≤ e.path) → EntryFits adb (.dir i) := by
  constructor
  · rintro hl i h1 hn ⟨e, he, hpath⟩
    by_contra hlong
    rw [v3Entries, entries_split h1 hn, v3PathEntries, dirEntry_of_long hlong, append_assoc, singleton_append] at hl
    have hbefore := prefix_before hl fun hmem => dir_not_visited hlong (h.subset hmem)
    have hlt := (path_of_mem path_entries (hbefore.subset he)).2
    omega
  · intro hfits
    by_cases hall : ∀ i, 1 ≤ i → i ≤ adbRaNum (v3Paths adb) → EntryFits adb (.dir i)
    · have heq : v3Visits adb = v3Entries adb := visits_eq_of_fits hall
      rwa [← heq]
    classical
    -- the first directory that does not fit
    push Not at hall
    obtain ⟨h1, hn, hlong⟩ := Nat.find_spec hall
    have hmin := fun k (hk : k < Nat.find hall) => Nat.find_min hall hk
    generalize Nat.find hall = i at h1 hn hlong hmin
    have hbehind : ∀ e ∈ l, e.path < i := fun e he => by
      by_contra hge
      exact hlong (hfits i h1 hn ⟨e, he, not_lt.1 hge⟩)
    rw [v3Visits, entries_split h1 hn] at h
    rw [v3Entries, entries_split h1 hn, ← visits_eq_of_fits fun k hk1 hk => ?_]
    · refine (prefix_of_not_mem h fun e he hl => ?_).trans (prefix_append _ _)
      have hpath : i ≤ e.path := by
        rcases mem_append.1 he with he | he
        · exact (path_entries i e ((visits_sublist i).subset he)).ge
        · have hrest := path_of_mem (fun k e hk => path_entries k e ((visits_sublist k).subset hk)) he
          omega
      have := hbehind e hl
      omega
    · have hk' := hmin k (by omega)
      push Not at hk'
      exact hk' hk1 (by omega)

theorem visits_eq_iff : v3Visits adb = v3Entries adb ↔
      ∀ i, 1 ≤ i → i ≤ adbRaNum (v3Paths adb) → EntryFits adb (.dir i) := by
  refine ⟨fun heq i h1 hn => by_contra fun hlong => dir_not_visited hlong ?_, visits_eq_of_fits⟩
  rw [heq, v3Entries, entries_split h1 hn, v3PathEntries, dirEntry_of_long hlong]
  simp

theorem file_visited {j : ℕ} (h : V3Entry.file i j ∈ v3Entries adb) : V3Entry.file i j ∈ v3Visits adb := by
  obtain ⟨k, hk, hmem⟩ := mem_flatMap.1 h
  refine mem_flatMap.2 ⟨k, hk, mem_append_right _ ?_⟩
  rcases mem_append.1 hmem with hdir | hfile
  · unfold v3DirEntry at hdir
    split_ifs at hdir
    · cases hdir
    · cases mem_singleton.1 hdir
  · exact hfile

end enumeration

/-- an object or an array: the number of its words, and the words -/
def objBytes (vals : List ℕ) : Bytes := htole32 (vals.length + 1) ++ (vals.map htole32).flatten

variable (dir : Bytes)

/-- a database with one directory, and in it a link and a file of three bytes -/
def oneDirAdb : Bytes :=
  [0, 0, 0, 0] ++ htole32 (0xe0000000 + 132) ++
  [1, asc 'l', 0, 0] ++ [1, asc 'f', 0, 0] ++ [3, 0, 0xa0, asc 'x'] ++
  [20] ++ List.replicate 20 0 ++ [0, 0, 0] ++
  objBytes [0x80000000 + 8, 0, 0, 0, 0, 0x80000000 + 16] ++
  objBytes [0x80000000 + 12, 0, 0x10000003, 0, 0x80000000 + 20] ++
  objBytes [0xe0000000 + 44, 0xe0000000 + 72] ++
  objBytes [0x90000000 + 144, 0, 0xd0000000 + 96] ++
  objBytes [0xe0000000 + 108] ++
  objBytes [0, 0xd0000000 + 124] ++
  (htole32 dir.length).take 2 ++ dir

def pad8 (b : Bytes) : Bytes := b ++ List.replicate ((8 - b.length % 8) % 8) 0

def oneDirPackage : Bytes :=
  htole32 adbFormatMagic ++ htole32 adbSchemaPackage ++
  pad8 (htole32 ((oneDirAdb dir).length + 4) ++ oneDirAdb dir) ++
  pad8 (htole32 (adbBlockData * 2 ^ 30 + 15) ++ htole32 1 ++ htole32 2 ++ ascs ['a', 'b', 'c'])

def sameIdsEnv : TarEnv := ⟨fun _ n => n, fun _ n => n, fun _ => []⟩

def zeroCrypto : Crypto Unit :=
  ⟨fun _ _ => some (List.replicate 20 0), fun _ => [], fun _ _ _ => false⟩

def acceptFile : FileCallback Unit := ⟨fun _ _ s _ is => (0, s, is), fun s _ => (0, s)⟩

def acceptOps : ExtractOps Unit := ⟨none, some fun s _ _ => (0, s), some acceptFile⟩

theorem acceptOps_nonCancelling : acceptOps.NonCancelling where
  v3meta m hm s adb o := by
    cases hm
    exact show (0 : ℤ) ≠ -ecanceled by decide
  file := ⟨acceptFile, rfl, fun _ _ => ⟨le_rfl, show (0 : ℤ) ≠ -ecanceled by decide⟩,
    fun _ _ _ _ _ _ his => ⟨show (0 : ℤ) ≠ -ecanceled by decide, his, refl⟩⟩

def extractOneDir : Option ℤ × AdbReader (ExtractV3 Unit) :=
  apkExtractV3 sameIdsEnv zeroCrypto acceptOps (some ⟨[], true⟩) none blobOps
    (apkIstreamFromBlob (oneDirPackage dir)) [] 4 ()

theorem extractOneDir_eq {dir : Bytes} : apkExtractV3 sameIdsEnv zeroCrypto acceptOps (some ⟨[], true⟩)
    none blobOps (apkIstreamFromBlob (oneDirPackage dir)) [] 4 () = extractOneDir dir :=
  rfl

theorem extractOneDir_short : (extractOneDir [asc 'd']).1 = some 0 ∧ (extractOneDir [asc 'd']).2.calls =
      [⟨⟨adbSchemaPackage, some (oneDirAdb [asc 'd'])⟩, .adb⟩,
        ⟨⟨adbSchemaPackage, some (oneDirAdb [asc 'd'])⟩, .data⟩] ∧
    (extractOneDir [asc 'd']).2.cbs.calls.map (fun c => (c.entry, c.info.name)) =
      [(.dir 1, ascs ['d']), (.file 1 1, ascs ['d', '/', 'l']), (.file 1 2, ascs ['d', '/', 'f'])] := by
  decide +kernel

theorem oneDir_fits : ∀ i, 1 ≤ i → i ≤ adbRaNum (v3Paths (oneDirAdb [asc 'd'])) →
    EntryFits (oneDirAdb [asc 'd']) (.dir i) := by
  have hpaths : adbRaNum (v3Paths (oneDirAdb [asc 'd'])) = 1 := by decide +kernel
  have hname : v3DirName (oneDirAdb [asc 'd']) 1 = [asc 'd'] := by decide +kernel
  intro i h1 h2
  obtain rfl : i = 1 := by omega
  show (v3DirName (oneDirAdb [asc 'd']) 1).length + 2 < pathMax
  rw [hname]
  decide

/-- a name that is one byte too long for the path builder -/
def longDirName : Bytes := List.replicate 4094 97

theorem extractOneDir_long : (extractOneDir longDirName).1 = some 0 ∧
    (extractOneDir longDirName).2.cbs.calls.map (fun c => (c.entry, c.info.name)) =
      [(.file 1 1, ascs ['l']), (.file 1 2, ascs ['f'])] := by
  decide +kernel

theorem extractOneDir_long_adb :
    ∃ c ∈ (extractOneDir longDirName).2.calls, c.db.adb = some (oneDirAdb longDirName) := by
  -- the databases are compared with `==`, whose evaluation does not nest
  have hcalls : ((extractOneDir longDirName).2.calls.any fun c =>
      c.db.adb == some (oneDirAdb longDirName)) = true := by
    decide +kernel
  obtain ⟨c, hc, heq⟩ := any_eq_true.1 hcalls
  exact ⟨c, hc, eq_of_beq heq⟩

/-- The calls of `ops->file` are the first entries of the paths array, in order and with what the database
says about each, every data block but at most the last went to the file that it names, with the size of that
file, and a result of 0 means that all entries and all data blocks were delivered, unless a callback cancelled
the extraction: exactly if the name of every directory that the extraction came to fits the path builder. -/
theorem extract_v3_in_sequence_iff {K χ σ : Type} (env : TarEnv) (crypto : Crypto K) (ops : ExtractOps χ)
    (t : Option (Trust K)) (ectx : Option ExtractCtx) (iops : IstreamOps σ) (is : Istream σ)
    (beyond : Bytes) (fuel : ℕ) (user : χ) :
    let out := apkExtractV3 env crypto ops t ectx iops is beyond fuel user
    (out.2.calls = [] → out.2.cbs.calls = []) ∧
    ∀ c ∈ out.2.calls, ∀ adb, c.db.adb = some adb →
      (Delivered (v3Entries adb) adb env out.2.cbs.calls (dataBlocks out.2.calls) ∧
        (EndsWell ops iops is c.db.schema out.1 →
          DeliveredAll (v3Entries adb) out.2.cbs.calls (dataBlocks out.2.calls)) ↔
      ∀ i, 1 ≤ i → i ≤ adbRaNum (v3Paths adb) →
        (EndsWell ops iops is c.db.schema out.1 ∨ ∃ x ∈ out.2.cbs.calls, i ≤ x.entry.path) →
        EntryFits adb (.dir i)) := by
  intro out
  refine ⟨extractV3_before_adb, fun c hc adb hadb => ?_⟩
  obtain ⟨hseq, hall⟩ := extractV3_sequence hc hadb
  have hvisits := visits_prefix_iff hseq.order
  simp only [mem_map, exists_exists_and_eq_and] at hvisits
  constructor
  · rintro ⟨hdel, hend⟩ i h1 hn (hwell | hreached)
    · exact visits_eq_iff.1 ((hall hwell).1.symm.trans (hend hwell).1) i h1 hn
    · exact hvisits.1 hdel.order i h1 hn hreached
  · intro hfits
    refine ⟨⟨hvisits.2 fun i h1 hn hx => hfits i h1 hn (Or.inr hx), hseq.ok, hseq.blocks⟩, fun hwell => ?_⟩
    refine ⟨(hall hwell).1.trans (visits_eq_iff.2 fun i h1 hn => hfits i h1 hn (Or.inl hwell)), (hall hwell).2⟩

theorem extract_v3_in_sequence_one_dir :
    let out := extractOneDir [asc 'd']
    out.1 = some 0 ∧ Delivered (v3Entries (oneDirAdb [asc 'd'])) (oneDirAdb [asc 'd']) sameIdsEnv out.2.cbs.calls 1 ∧
      DeliveredAll (v3Entries (oneDirAdb [asc 'd'])) out.2.cbs.calls 1 := by
  obtain ⟨h0, hcalls, -⟩ := extractOneDir_short
  have hall := extract_v3_in_sequence_iff sameIdsEnv zeroCrypto acceptOps (some ⟨[], true⟩) none blobOps
    (apkIstreamFromBlob (oneDirPackage [asc 'd'])) [] 4 ()
  simp only [extractOneDir_eq] at hall
  rw [hcalls] at hall
  obtain ⟨hseq, hdone⟩ := (hall.2 _ mem_cons_self _ rfl).2 fun i h1 hn _ => oneDir_fits i h1 hn
  exact ⟨h0, hseq, hdone ⟨h0, rfl, acceptOps_nonCancelling, blobOps_quiet, fromBlob_quiet _⟩⟩

/-- a directory whose name does not fit is left out, and the extraction succeeds all the same -/
theorem extract_v3_leaves_out :
    let out := extractOneDir longDirName
    out.1 = some 0 ∧ (∃ c ∈ out.2.calls, c.db.adb = some (oneDirAdb longDirName)) ∧
      ¬ out.2.cbs.calls.map V3Call.entry <+: v3Entries (oneDirAdb longDirName) := by
  refine ⟨extractOneDir_long.1, extractOneDir_long_adb, ?_⟩
  have hentries : v3Entries (oneDirAdb longDirName) = [.dir 1, .file 1 1, .file 1 2] := by decide +kernel
  have hcalls := congrArg (List.map Prod.fst) extractOneDir_long.2
  rw [map_map] at hcalls
  rw [hentries]
  intro hpre
  change List.map (Prod.fst ∘ fun c : V3Call => (c.entry, c.info.name)) _ <+: _ at hpre
  rw [hcalls] at hpre
  revert hpre
  decide

/-- Every entry is passed on under the name of its directory and its own, and an extraction that succeeds has
left none out because its path is too long: exactly if every entry that is passed on fits the path builder and
has no zero in its path, and in an extraction that succeeds every directory fits. -/
theorem extract_v3_full_paths_iff {K χ σ : Type} (env : TarEnv) (crypto : Crypto K) (ops : ExtractOps χ)
    (t : Option (Trust K)) (ectx : Option ExtractCtx) (iops : IstreamOps σ) (is : Istream σ)
    (beyond : Bytes) (fuel : ℕ) (user : χ) :
    let out := apkExtractV3 env crypto ops t ectx iops is beyond fuel user
    ∀ c ∈ out.2.calls, ∀ adb, c.db.adb = some adb →
      ((∀ x ∈ out.2.cbs.calls, x.info.name = v3EntryPath adb x.entry) ∧
        (EndsWell ops iops is c.db.schema out.1 → ∀ e ∈ v3Entries adb, EntryFits adb e) ↔
      (∀ x ∈ out.2.cbs.calls, EntryFits adb x.entry ∧ 0 ∉ v3EntryPath adb x.entry) ∧
        (EndsWell ops iops is c.db.schema out.1 →
          ∀ i, 1 ≤ i → i ≤ adbRaNum (v3Paths adb) → EntryFits adb (.dir i))) := by
  intro out c hc adb hadb
  obtain ⟨hseq, hall⟩ := extractV3_sequence hc hadb
  have hname : ∀ x ∈ out.2.cbs.calls, x.info.name = v3EntryPath adb x.entry ↔
      EntryFits adb x.entry ∧ 0 ∉ v3EntryPath adb x.entry := by
    intro x hx
    obtain ⟨hfits, hother⟩ := (hseq.ok x hx).name
    by_cases hfit : EntryFits adb x.entry
    · rw [hfits hfit, cstr_eq_iff, and_iff_right hfit]
    · exact iff_of_false (hother hfit) fun h => hfit h.1
  rw [forall₂_congr hname]
  refine and_congr_right fun hcalls => forall_congr' fun hwell => ⟨fun h i h1 hn => ?_, fun h e he => ?_⟩
  · by_contra hlong
    refine hlong (h (.dir i) ?_)
    rw [v3Entries, entries_split h1 hn, v3PathEntries, dirEntry_of_long hlong]
    simp
  · cases e with
    | dir i =>
      have hpath := path_of_mem path_entries he
      exact h i hpath.1 (Nat.le_of_lt_succ (by rw [Nat.succ_eq_one_add]; exact hpath.2))
    | file i j =>
      have hmem := file_visited he
      rw [← (hall hwell).1] at hmem
      obtain ⟨x, hx, hxe⟩ := mem_map.1 hmem
      rw [← hxe]
      exact (hcalls x hx).1

theorem extract_v3_full_paths_one_dir : ∃ x ∈ (extractOneDir [asc 'd']).2.cbs.calls, x.entry = .file 1 1 ∧
      x.info.name = v3EntryPath (oneDirAdb [asc 'd']) x.entry := by
  obtain ⟨-, hcalls, hnames⟩ := extractOneDir_short
  have hmem : (V3Entry.file 1 1, ascs ['d', '/', 'l']) ∈
      (extractOneDir [asc 'd']).2.cbs.calls.map fun c => (c.entry, c.info.name) := by
    rw [hnames]
    exact mem_cons_of_mem _ mem_cons_self
  obtain ⟨x, hx, hxe⟩ := mem_map.1 hmem
  have hall := extract_v3_full_paths_iff sameIdsEnv zeroCrypto acceptOps (some ⟨[], true⟩) none blobOps
    (apkIstreamFromBlob (oneDirPackage [asc 'd'])) [] 4 ()
  simp only [extractOneDir_eq] at hall
  rw [hcalls] at hall
  refine ⟨x, hx, congrArg Prod.fst hxe, ((hall _ mem_cons_self _ rfl).2 ⟨fun y hy => ?_, fun _ => oneDir_fits⟩).1 x hx⟩
  have hentry : y.entry ∈ [V3Entry.dir 1, .file 1 1, .file 1 2] := by
    have hy' : (y.entry, y.info.name) ∈
        (extractOneDir [asc 'd']).2.cbs.calls.map fun c => (c.entry, c.info.name) := mem_map.2 ⟨y, hy, rfl⟩
    rw [hnames] at hy'
    simpa using mem_map_of_mem (f := Prod.fst) hy'
  have hfit : (v3DirName (oneDirAdb [asc 'd']) 1).length + 2 < pathMax ∧ ∀ j ∈ [1, 2],
      (v3DirName (oneDirAdb [asc 'd']) 1).length + (v3FileName (oneDirAdb [asc 'd']) 1 j).length + 2 < pathMax := by
    decide +kernel
  have hzero : ∀ e ∈ [V3Entry.dir 1, .file 1 1, .file 1 2], 0 ∉ v3EntryPath (oneDirAdb [asc 'd']) e := by
    decide +kernel
  refine ⟨?_, hzero _ hentry⟩
  simp only [mem_cons, not_mem_nil, or_false] at hentry
  rcases hentry with he | he | he
  · rw [he]
    exact hfit.1
  · rw [he]
    exact hfit.2 1 (by decide)
  · rw [he]
    exact hfit.2 2 (by decide)

/-- the files of a directory whose name does not fit are delivered as if they were in the root -/
theorem extract_v3_shortens : (extractOneDir longDirName).1 = some 0 ∧
    (∃ c ∈ (extractOneDir longDirName).2.calls, c.db.adb = some (oneDirAdb longDirName)) ∧
    v3EntryPath (oneDirAdb longDirName) (.file 1 1) = longDirName ++ ascs ['/', 'l'] ∧
    ∃ x ∈ (extractOneDir longDirName).2.cbs.calls, x.entry = .file 1 1 ∧ x.info.name = ascs ['l'] := by
  refine ⟨extractOneDir_long.1, extractOneDir_long_adb, ?_, ?_⟩
  · have hpath : (v3EntryPath (oneDirAdb longDirName) (.file 1 1) == longDirName ++ ascs ['/', 'l']) =
        true := by
      decide +kernel
    exact eq_of_beq hpath
  have hmem : (V3Entry.file 1 1, ascs ['l']) ∈
      (extractOneDir longDirName).2.cbs.calls.map fun c => (c.entry, c.info.name) := by
    rw [extractOneDir_long.2]
    exact mem_cons_self
  obtain ⟨x, hx, hxe⟩ := mem_map.1 hmem
  exact ⟨x, hx, congrArg Prod.fst hxe, congrArg Prod.snd hxe⟩

end Alpine
