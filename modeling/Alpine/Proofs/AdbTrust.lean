import Alpine.Sanity.AdbRun

/-! Trust in ADB files. For any bytes, any stream behind them and any callback, both readers
show the callback one `ADB` block, then signatures, then data blocks, and neither a data
block nor a result of 0 comes out unless the bytes in `db->adb` are the ones that the
identity or a trusted signature covers. -/

namespace Alpine

section

variable {K κ : Type} {crypto : Crypto K} {t : Option (Trust K)} {ectx : Option ExtractCtx}
  {cb : AdbCallback κ} {rd : AdbReader κ}

variable {m : ℕ} {adb : Option Bytes}

theorem phase_not_ext {l : List AdbSeen} (h : Phase m adb l) : m.testBit adbBlockExt = false := by
  cases h <;> decide

theorem phase_nil (h : Phase m adb []) : adb = none := by
  cases h
  rfl

theorem calls_ne_nil (hi : ReaderInv crypto t ectx rd) (hn : rd.db.adb ≠ none) : rd.calls ≠ [] := by
  intro hc
  have hp := hi.phase
  rw [hc] at hp
  exact hn (phase_nil hp)

/-- what a loop leaves behind: good calls, and a good reader unless it failed -/
structure Outcome (crypto : Crypto K) (t : Option (Trust K)) (ectx : Option ExtractCtx)
    (o : Option ℤ) (rd : AdbReader κ) : Prop where
  calls : CallsOk crypto t ectx rd.calls
  inv : o = some 0 → ReaderInv crypto t ectx rd

theorem Pending.called {τ : Type} {ops : IstreamOps τ} {blk : AdbBlock} {seen : AdbSeen}
    {is : Istream τ} (hp : Pending crypto t ectx rd seen) :
    Called False (ReaderInv crypto t ectx) (Outcome crypto t ectx) (readerCall cb ops rd blk seen is) := by
  have hinv : ReaderInv crypto t ectx (readerCall cb ops rd blk seen is).2.2 := readerCall_inv hp rfl
  exact ⟨fun _ => hinv, fun _ _ _ _ => ⟨hinv.calls, fun _ => hinv⟩⟩

theorem readerInv_rule :
    ReaderRule crypto t ectx cb False (ReaderInv crypto t ectx) (Outcome crypto t ectx) where
  ext h := phase_not_ext h.phase
  stop h _ := ⟨h.calls, fun _ => h⟩
  refused h hcalls _ _ hr _ := ⟨hcalls ▸ h.calls, fun h0 => absurd (Option.some.inj h0) hr.ne⟩
  adb _ h hbit _ := (pending_adb h hbit rfl).1.called
  sig _ _ _ _ h hbit _ _ := (pending_sig h hbit).1.called
  data h hbit ht _ _ := (pending_data h hbit ht).called
  quiet := False.elim

end

/-- a result of 0 comes with a database that is trusted, after at least one call -/
theorem adbMProcess_zero {K κ σ : Type} {crypto : Crypto K} {t : Option (Trust K)} {ectx : Option ExtractCtx}
    {cb : AdbCallback κ} {ops : IstreamOps σ} {is : Istream σ} {beyond : Bytes} {expectedSchema fuel : ℕ} {cbs : κ}
    (h : (adbMProcess crypto t ectx cb ops is beyond expectedSchema fuel cbs).1 = some 0) :
    let rd := (adbMProcess crypto t ectx cb ops is beyond expectedSchema fuel cbs).2
    rd.calls ≠ [] ∧ Authentic crypto t ectx rd.db rd.calls := by
  obtain ⟨o, rd, hout, hend⟩ : RunOut False (Outcome crypto t ectx)
      (adbMProcess crypto t ectx cb ops is beyond expectedSchema fuel cbs) :=
    adbMProcess_out readerInv_rule False.elim False.elim fun schema =>
      readerInv_init crypto t ectx
  obtain ⟨rfl, hrd, ht, hn⟩ := hend.zero h
  have hinv := hout.inv rfl
  simp only [hrd]
  exact ⟨calls_ne_nil hinv hn, hinv.trusted ht⟩

/-- No data block and no result of 0 without trust in exactly the bytes of `db->adb`, and the
blocks only in their order. -/
theorem adb_process_trusted {K κ σ : Type} (crypto : Crypto K) (t : Option (Trust K))
    (ectx : Option ExtractCtx) (cb : AdbCallback κ) (ops : IstreamOps σ) (is : Istream σ)
    (beyond : Bytes) (expectedSchema fuel : ℕ) (cbs : κ) :
    let out := adbMProcess crypto t ectx cb ops is beyond expectedSchema fuel cbs
    (∀ pre c post, out.2.calls = pre ++ c :: post → c.block = .data → Authentic crypto t ectx c.db pre) ∧
    (out.1 = some 0 → out.2.calls ≠ [] ∧ Authentic crypto t ectx out.2.db out.2.calls) ∧
    (out.2.calls = [] ∨ ∃ (sigs : List Bytes) (n : ℕ),
      out.2.calls.map AdbCall.block = .adb :: (sigs.map .sig ++ List.replicate n .data)) := by
  obtain ⟨o, rd, hout, hend⟩ : RunOut False (Outcome crypto t ectx)
      (adbMProcess crypto t ectx cb ops is beyond expectedSchema fuel cbs) :=
    adbMProcess_out readerInv_rule False.elim False.elim fun schema =>
      readerInv_init crypto t ectx
  exact ⟨hend.calls ▸ hout.calls.data, adbMProcess_zero, hend.calls ▸ hout.calls.order⟩

end Alpine
