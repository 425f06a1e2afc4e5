import Alpine.Spec.FindFs
import Alpine.Sanity.Blob

/-! cryptsetup is started once at most, for devices that have all been found. No flag says so: a device
node is never taken back, and what is not configured is not found. A message of the kernel is taken as it
comes: it has to end with its last string, and `envp` has room for 62 variables. -/

namespace Alpine

open List

/-- a device that is configured has a node -/
def CryptDev.Resolved (d : CryptDev) : Prop := d.device ≠ none → d.devnode ≠ []

structure CryptConf.Resolved (c : CryptConf) : Prop where
  data : c.data.devnode ≠ []
  key : c.key.Resolved
  header : c.header.Resolved

variable {a : DeviceAnswers} {answers : ℕ → DeviceAnswers} {devname devnode : Bytes} {c : CryptConf} {d : CryptDev}

theorem CryptDev.search_resolved (h : d.Resolved) : d.search a devname devnode = (d, false) := by
  refine if_neg fun ⟨hnil, hfound⟩ => h (fun hnone => hfound ?_) hnil
  simp [hnone, searchdev]

theorem searchCryptdevs_resolved (h : c.Resolved) : searchCryptdevs answers devname devnode c = (false, c) := by
  have hdata : c.data.Resolved := fun _ => h.data
  simp [searchCryptdevs, CryptDev.search_resolved hdata, CryptDev.search_resolved h.key,
    CryptDev.search_resolved h.header]

theorem CryptConf.ready_iff : c.ready = true ↔ c.Resolved := by
  have hdev : ∀ d : CryptDev, (d.device.isNone || decide (d.devnode ≠ [])) = true ↔ d.Resolved := by
    intro d
    cases hd : d.device <;> simp [CryptDev.Resolved, hd]
  rw [CryptConf.ready, Bool.and_eq_true, Bool.and_eq_true, hdev, hdev, decide_eq_true_eq]
  exact ⟨fun ⟨⟨hdata, hheader⟩, hkey⟩ => ⟨hdata, hkey, hheader⟩, fun h => ⟨⟨h.data, h.header⟩, h.key⟩⟩

/-- before the start, or after it: then all devices have their nodes -/
def StartedOnce (conf : FindConf) : Prop :=
  conf.starts = [] ∨ ∃ c, conf.starts = [c] ∧ c.Resolved ∧ conf.crypt.Resolved

theorem startCryptsetup_once {conf : FindConf} (h : conf.starts = []) (hc : conf.crypt.Resolved) (pipefd : ℕ) :
    StartedOnce (startCryptsetup pipefd conf) := by
  refine Or.inr ⟨conf.crypt, by simp [startCryptsetup, h], hc, hc.data, ?_, hc.header⟩
  have hproc : lit "/proc/self/fd/" = asc '/' :: lit "proc/self/fd/" := by decide +kernel
  simp only [startCryptsetup]
  split_ifs
  · simp [CryptDev.Resolved, hproc]
  · exact hc.key

theorem ueventHandle_once {conf : FindConf} (ev : BlockEvent) (h : StartedOnce conf) :
    StartedOnce (ueventHandle conf ev) := by
  simp only [ueventHandle]
  split_ifs with hblock haction hsearch hready
  · exact h
  · exact h
  · exact h
  all_goals rcases h with hnone | ⟨c, hstarts, hc, hcrypt⟩
  · have hfound := CryptConf.ready_iff.1 (Bool.and_eq_true_iff.1 hready).2
    refine startCryptsetup_once ?_ hfound _
    exact hnone
  · rw [searchCryptdevs_resolved hcrypt] at hready
    cases hready
  · exact Or.inl hnone
  · rw [searchCryptdevs_resolved hcrypt]
    exact Or.inr ⟨c, hstarts, hc, hcrypt⟩

theorem ueventHandles_once (evs : List BlockEvent) (conf : FindConf) (h : StartedOnce conf) :
    StartedOnce (evs.foldl ueventHandle conf) := by
  induction evs generalizing conf with
  | nil => exact h
  | cons ev evs ih => exact ih _ (ueventHandle_once ev h)

/-- whatever is configured and whatever the events and the answers to them, cryptsetup is started once
at most, and only when each device that is configured has been found -/
theorem cryptsetup_started_once (search : Option Bytes) (scan : Bool) (crypt : CryptConf) (evs : List BlockEvent) :
    (evs.foldl ueventHandle ⟨search, scan, crypt, []⟩).starts.length ≤ 1 ∧
      ∀ c ∈ (evs.foldl ueventHandle ⟨search, scan, crypt, []⟩).starts, c.data.devnode ≠ [] ∧
        (c.key.device ≠ none → c.key.devnode ≠ []) ∧ (c.header.device ≠ none → c.header.devnode ≠ []) := by
  rcases ueventHandles_once evs ⟨search, scan, crypt, []⟩ (Or.inl rfl) with h | ⟨c, h, hc, -⟩
  · simp [h]
  · rw [h]
    refine ⟨le_rfl, fun c' hc' => ?_⟩
    rw [mem_singleton.1 hc']
    exact ⟨hc.data, hc.key, hc.header⟩

/-- a variable that is handed on -/
def keptVar (s : Bytes) : Bool := decide (asc '=' ∈ s) && !(lit "PATH=").isPrefixOf s

/-- the variables behind the first string of a message -/
def ueventVars (buf : Bytes) : List Bytes := (buf.splitOn 0).tail.filter keptVar

/-- `envp` with the entries `l` taken -/
def Uevent.Holds (ev : Uevent) (l : List (Option Bytes)) : Prop :=
  ∃ k, ev.envp = l ++ replicate k none ∧ l.length + k = 64 ∧ ev.nenvp = l.length

/-- entries that fit are there -/
def Filled (l : List (Option Bytes)) (r : Option Uevent) : Prop :=
  if l.length ≤ 64 then ∃ ev, r = some ev ∧ ev.Holds l else r = none

variable {ev : Uevent} {l l' : List (Option Bytes)} {r : Option Uevent} {n : ℕ} {first : Bool} {buf key : Bytes}

theorem Uevent.Holds.filled (h : ev.Holds l) : Filled l (some ev) := by
  obtain ⟨k, -, hk, -⟩ := id h
  rw [Filled, if_pos (by omega)]
  exact ⟨ev, rfl, h⟩

theorem Filled.bind {f : Uevent → Option Uevent} (h : Filled l r) (hf : ∀ ev, ev.Holds l → Filled (l ++ l') (f ev)) :
    Filled (l ++ l') (r.bind f) := by
  unfold Filled at h
  split_ifs at h with hl
  · obtain ⟨ev, rfl, hev⟩ := h
    exact hf ev hev
  · rw [h, Filled, if_neg (by rw [length_append]; omega)]
    rfl

theorem Uevent.Holds.push (h : ev.Holds l) (e : Option Bytes) : Filled (l ++ [e]) (ev.push e) := by
  obtain ⟨k, henvp, hk, hn⟩ := h
  rw [Uevent.push, hn, henvp]
  cases k with
  | zero => rw [Filled, if_neg (by simp; omega), if_neg (by omega)]
  | succ k =>
    rw [if_pos (by omega)]
    refine Uevent.Holds.filled ⟨k, ?_, by simp; omega, by simp⟩
    simp [replicate_succ]

theorem ueventVar_filled (h : ev.Holds l) (key : Bytes) :
    Filled (l ++ ([key].filter keptVar).map some) (ueventVar key ev) := by
  have hnote : ∀ value, (ev.note key value).Holds l := by
    intro value
    unfold Uevent.note
    split_ifs <;> exact h
  unfold ueventVar
  split_ifs with hkey hpath
  · have hnone : keptVar key = false := by
      rcases hkey with rfl | hkey
      · simp [keptVar]
      · simp [keptVar, hkey]
    simpa [hnone] using h.filled
  · simpa [keptVar, hpath] using (hnote _).filled
  · rw [not_or, not_not] at hkey
    simpa [keptVar, hpath, hkey.2] using (hnote _).push (some key)

/-- the string at the start of a message, and what follows it -/
theorem ueventLoop_cons (first : Bool) (ev : Uevent) (h : 0 ∈ buf) (hn : buf.length ≤ n + 1) :
    ∃ key rest, buf = key ++ 0 :: rest ∧ 0 ∉ key ∧ rest.length ≤ n ∧
      rest.getLast?.getD 0 = buf.getLast?.getD 0 ∧ ueventLoop (n + 1) first buf ev =
      if first ∧ key ≠ [] then ueventLoop n false rest { ev with message := some key }
      else (ueventVar key ev).bind (ueventLoop n false rest) := by
  obtain ⟨key, rest, hbuf, hkey⟩ := eq_append_cons_of_mem h
  have hc : cstr buf = key := by rw [hbuf, cstr_append_zero, (cstr_eq_iff key).2 hkey]
  have hdrop : buf.drop (key.length + 1) = rest := by rw [hbuf, ← drop_drop, drop_left, drop_one, tail_cons]
  refine ⟨key, rest, hbuf, hkey, ?_, by simp [hbuf, getLast?_cons], ?_⟩
  · rw [hbuf, length_append, length_cons] at hn
    omega
  · rw [ueventLoop, if_neg (ne_nil_of_mem h), if_neg (not_not.2 h)]
    simp [hc, hdrop]

theorem ueventLoop_filled (n : ℕ) : ∀ (first : Bool) {buf ev l}, buf.length ≤ n → buf.getLast?.getD 0 = 0 → ev.Holds l →
    Filled (l ++ ((if first then (buf.splitOn 0).tail else buf.splitOn 0).filter keptVar).map some)
      (ueventLoop n first buf ev) := by
  have hempty : ∀ {first : Bool} {ev l}, ev.Holds l → Filled (l ++ ((if first then (([] : Bytes).splitOn 0).tail
      else [].splitOn 0).filter keptVar).map some) (some ev) := by
    intro first ev l h
    cases first <;> simpa [keptVar] using h.filled
  induction n with
  | zero =>
    intro first buf ev l hn _ h
    rw [length_eq_zero_iff.1 (Nat.le_zero.1 hn)]
    exact hempty h
  | succ n ih =>
    intro first buf ev l hn hend h
    by_cases hnil : buf = []
    · rw [hnil]
      exact hempty h
    have h0 : 0 ∈ buf := by
      rw [getLast?_eq_some_getLast hnil] at hend
      exact hend ▸ getLast_mem hnil
    obtain ⟨key, rest, rfl, hkey, hle, hlast, hstep⟩ := ueventLoop_cons first ev h0 hn
    rw [hstep, splitOn_cut hkey]
    have hrest : ∀ {ev l}, ev.Holds l → Filled (l ++ ((rest.splitOn 0).filter keptVar).map some)
        (ueventLoop n false rest ev) := by
      intro ev l h
      exact ih false hle (hlast.trans hend) h
    cases first with
    | true =>
      rw [if_pos rfl]
      split_ifs with hfirst
      · exact hrest h
      · obtain rfl : key = [] := by simpa using hfirst
        exact hrest h
    | false =>
      rw [if_neg (by simp), ← singleton_append, filter_append, map_append, ← append_assoc]
      exact (ueventVar_filled h key).bind fun ev h => hrest h

/-- a last string without an end is read on beyond the message -/
theorem ueventLoop_none (n : ℕ) : ∀ {first buf ev}, buf.length ≤ n → buf.getLast?.getD 0 ≠ 0 →
    ueventLoop n first buf ev = none := by
  induction n with
  | zero =>
    intro first buf ev hn hend
    rw [length_eq_zero_iff.1 (Nat.le_zero.1 hn)] at hend
    exact absurd rfl hend
  | succ n ih =>
    intro first buf ev hn hend
    by_cases h0 : 0 ∈ buf
    · obtain ⟨key, rest, -, -, hle, hlast, hstep⟩ := ueventLoop_cons first ev h0 hn
      have hrest : ∀ ev, ueventLoop n false rest ev = none := fun ev => ih hle (hlast ▸ hend)
      rw [hstep, hrest]
      split_ifs
      · rfl
      · cases ueventVar key ev with
        | none => rfl
        | some ev => exact hrest ev
    · have hnil : buf ≠ [] := by
        rintro rfl
        exact hend rfl
      rw [ueventLoop, if_neg hnil, if_pos h0]

/-- `envp` after a message: the path, the variables and the end, if the message ends with its last
string and has 62 variables at most -/
theorem uevent_process_envp (path : Option Bytes) (buf : Bytes) : (ueventProcess path buf).map Uevent.envp =
    if buf.getLast?.getD 0 = 0 ∧ (ueventVars buf).length ≤ 62 then
      some (path :: (ueventVars buf).map some ++ none :: replicate (62 - (ueventVars buf).length) none)
    else none := by
  unfold ueventProcess
  by_cases hend : buf.getLast?.getD 0 = 0
  · have hstart : Uevent.Holds { envp := path :: replicate 63 none, nenvp := 1 } [path] := ⟨63, rfl, rfl, rfl⟩
    have h := (ueventLoop_filled buf.length true le_rfl hend hstart).bind fun ev h => h.push none
    change Filled ([path] ++ (ueventVars buf).map some ++ [none]) _ at h
    have hlen : ([path] ++ (ueventVars buf).map some ++ [none]).length = (ueventVars buf).length + 2 := by simp
    rw [Filled] at h
    by_cases hfit : (ueventVars buf).length ≤ 62
    · rw [if_pos (by omega)] at h
      obtain ⟨ev, hev, k, henvp, hk, -⟩ := h
      rw [hev, if_pos ⟨hend, hfit⟩, Option.map_some, henvp, show 62 - (ueventVars buf).length = k by omega]
      simp
    · rw [if_neg (by omega)] at h
      rw [h, if_neg fun h => hfit h.2]
      rfl
  · rw [ueventLoop_none _ le_rfl hend, if_neg fun h => hend h.1]
    rfl

/-- 63 variables leave no room for the end of `envp`, and a message may go on without an end -/
theorem uevent_process_overflows :
    (ueventProcess none ([asc 'a', 0] ++ (replicate 63 [asc 'A', asc '=', 0]).flatten)).isNone = true ∧
      (ueventProcess none (replicate 32 (asc 'a'))).isNone = true := by
  decide +kernel

end Alpine
