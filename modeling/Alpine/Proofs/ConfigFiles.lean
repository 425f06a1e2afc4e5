import Alpine.Sanity.Blob
import Alpine.Spec.ConfigFiles

/-! A configuration file is taken from the first directory that has one of its name. The names that
hide others are looked up by halving, so the files are kept in order from one directory to the next. -/

namespace Alpine

open List

variable {filter : Bytes → Bool} {bs : Bsearch} {ctx : DirConfig} {d : ConfigDir}

theorem strcmp_eq_zero (a b : FileName) : strcmp a.1 b.1 = 0 ↔ a = b := by
  rw [strcmp_eq_zero_iff, (cstr_eq_iff _).2 a.2, (cstr_eq_iff _).2 b.2, Subtype.ext_iff]

def shows (filter : Bytes → Bool) (name : FileName) (d : ConfigDir) : Bool := name ∈ d.visible filter

/-- the files so far are in order, and each belongs to the first directory with its name -/
structure Listed (filter : Bytes → Bool) (ctx : DirConfig) : Prop where
  index : ctx.index = ctx.source.length
  nodup : ctx.files.Nodup
  sorted : ctx.files.Pairwise fun a b => apkAtfileCmp a b ≤ 0
  mem : ∀ f, f ∈ ctx.files ↔ ctx.source.findIdx? (shows filter f.name) = some f.index

theorem Listed.mem_names (h : Listed filter ctx) (name : FileName) :
    name ∈ ctx.files.map ApkAtfile.name ↔ ctx.source.findIdx? (shows filter name) ≠ none := by
  rw [mem_map, Option.ne_none_iff_exists']
  constructor
  · rintro ⟨f, hf, rfl⟩
    exact ⟨f.index, (h.mem f).1 hf⟩
  · rintro ⟨i, hi⟩
    exact ⟨⟨i, name⟩, (h.mem ⟨i, name⟩).2 hi, rfl⟩

/-- the names of earlier directories are found -/
theorem Listed.found (h : Listed filter ctx) (bs : Bsearch) (key : ApkAtfile) :
    (bs.search (apkAtfileCmp key) ctx.files).isSome ↔ key.name ∈ ctx.files.map ApkAtfile.name := by
  rw [bs.finds _ _ (h.sorted.imp fun {a b} hab => ?_), mem_map]
  · exact exists_congr fun f => and_congr_right fun _ => (strcmp_eq_zero _ _).trans eq_comm
  · have hb := strcmp_neg key.name.1 b.name.1
    have ha := strcmp_neg key.name.1 a.name.1
    simp only [apkAtfileCmp] at hab ⊢
    refine ⟨fun h => ?_, fun h => ?_⟩
    · by_contra hge
      have := strcmp_trans _ _ _ hab (show strcmp b.name.1 key.name.1 ≤ 0 by omega)
      omega
    · by_contra hle
      have := strcmp_trans _ _ _ (show strcmp key.name.1 a.name.1 ≤ 0 by omega) hab
      omega

theorem Listed.amend (h : Listed filter ctx) (bs : Bsearch) (names : List FileName) (new : List ApkAtfile)
    (source : List ConfigDir) : names.foldl (apkDirConfigFileAmend bs)
        ⟨ctx.files.length, ctx.index, ctx.files ++ new, source⟩ = ⟨ctx.files.length, ctx.index,
      ctx.files ++ (new ++ (names.filter fun n => n ∉ ctx.files.map ApkAtfile.name).map
        (ApkAtfile.mk ctx.index)), source⟩ := by
  induction names generalizing new with
  | nil => rw [foldl_nil, filter_nil, map_nil, append_nil]
  | cons name names ih =>
    rw [foldl_cons, apkDirConfigFileAmend]
    simp only [take_left, h.found]
    split_ifs with hmem
    · rw [ih, filter_cons_of_neg (by simpa using hmem)]
    · rw [append_assoc, ih, filter_cons_of_pos (by simpa using hmem), map_cons, append_assoc, singleton_append]

theorem Listed.amendDir (h : Listed filter ctx) (bs : Bsearch) (d : ConfigDir) :
    ∃ ctx', amendDir filter bs { ctx with num := ctx.files.length } d = ctx' ∧ Listed filter ctx' ∧
      ctx'.source = ctx.source ++ [d] := by
  have hamend := h.amend bs (d.visible filter) [] (ctx.source ++ [d])
  rw [append_nil, nil_append] at hamend
  unfold Alpine.amendDir
  simp only [hamend]
  refine ⟨_, rfl, ⟨by simp [h.index], (mergeSort_perm _ _).nodup_iff.2 ?_, ?_, fun f => ?_⟩, rfl⟩
  · refine nodup_append'.2 ⟨h.nodup, ((d.nodup.filter _).filter _).map fun _ _ => by simp, fun f hf hnew => ?_⟩
    obtain ⟨n, hn, rfl⟩ := mem_map.1 hnew
    exact of_decide_eq_true (mem_filter.1 hn).2 (mem_map_of_mem hf)
  · refine (pairwise_mergeSort ?_ ?_ _).imp of_decide_eq_true
    · intro a b c hab hbc
      exact decide_eq_true (strcmp_trans _ _ _ (of_decide_eq_true hab) (of_decide_eq_true hbc))
    · intro a b
      have := strcmp_neg a.name.1 b.name.1
      rw [Bool.or_eq_true_iff, decide_eq_true_iff, decide_eq_true_iff, apkAtfileCmp, apkAtfileCmp]
      omega
  · obtain ⟨i, n⟩ := f
    rw [(mergeSort_perm _ _).mem_iff, mem_append, h.mem, findIdx?_append, Option.or_eq_some_iff, findIdx?_singleton]
    refine or_congr_right ?_
    simp only [mem_map, mem_filter, decide_eq_true_eq, h.mem_names, not_not, ApkAtfile.mk.injEq]
    constructor
    · rintro ⟨n, ⟨hv, hnone⟩, rfl, rfl⟩
      exact ⟨hnone, by simp [shows, hv, h.index]⟩
    · rintro ⟨hnone, hi⟩
      by_cases hv : n ∈ d.visible filter
      · exact ⟨n, ⟨hv, hnone⟩, by simpa [shows, hv, h.index] using hi, rfl⟩
      · simp [shows, hv] at hi

theorem amendDirs_listed (bs : Bsearch) (dirs : List ConfigDir) (h : Listed filter ctx)
    (hlen : ctx.source.length + dirs.length ≤ 8) : ∃ ctx', amendDirs filter bs dirs ctx = some ctx' ∧
      Listed filter ctx' ∧ ctx'.source = ctx.source ++ dirs.filter fun d => d.entries.isSome := by
  induction dirs generalizing ctx with
  | nil => exact ⟨ctx, rfl, h, (append_nil _).symm⟩
  | cons d dirs ih =>
    rw [length_cons] at hlen
    rw [amendDirs, if_pos (by rw [h.index]; omega), filter_cons]
    simp only
    split_ifs
    · obtain ⟨ctx₁, heq, hlisted, hsource⟩ := h.amendDir bs d
      rw [heq, ← singleton_append, ← append_assoc, ← hsource]
      exact ih hlisted (by rw [hsource, length_append, length_singleton]; omega)
    · exact @ih { ctx with num := ctx.files.length } ⟨h.index, h.nodup, h.sorted, h.mem⟩ (by simp only; omega)

theorem configCalls_eq {cb : List (ConfigDir × FileName) → ConfigDir → FileName → ℤ} (hcb : ∀ l d n, cb l d n = 0)
    {source : List ConfigDir} {files : List ApkAtfile} (h : ∀ f ∈ files, f.index < source.length)
    (calls : List (ConfigDir × FileName)) : configCalls cb source files calls =
      some (0, calls ++ files.filterMap fun f => source[f.index]?.map fun d => (d, f.name)) := by
  induction files generalizing calls with
  | nil => rw [configCalls, filterMap_nil, append_nil]
  | cons f files ih =>
    obtain ⟨hf, hrest⟩ := forall_mem_cons.1 h
    have hget := getElem?_eq_getElem hf
    rw [configCalls, hget]
    simp only [hcb, ne_eq, not_true_eq_false, if_false]
    rw [ih hrest, append_assoc, singleton_append, filterMap_cons_some (by rw [hget, Option.map_some])]

/-- each name once, in order, with the first of the directories that have it -/
theorem config_files_first (filter : Bytes → Bool) (bs : Bsearch)
    {cb : List (ConfigDir × FileName) → ConfigDir → FileName → ℤ} (hcb : ∀ calls d name, cb calls d name = 0)
    {dirs : List ConfigDir} (hlen : dirs.length ≤ 8) :
    ∃ calls, apkDirForeachConfigFile filter bs cb dirs = some (0, calls) ∧
      calls.Pairwise (fun a b => strcmp a.2.1 b.2.1 < 0) ∧
      ∀ d name, (d, name) ∈ calls ↔ dirs.find? (fun d => name ∈ d.visible filter) = some d := by
  obtain ⟨ctx, hrun, h, hsource⟩ := amendDirs_listed bs dirs
    (show Listed filter ⟨0, 0, [], []⟩ from ⟨rfl, nodup_nil, Pairwise.nil, by simp⟩) (by simpa using hlen)
  have hcalls := configCalls_eq hcb (fun f hf => (findIdx?_eq_some_iff_getElem.1 ((h.mem f).1 hf)).1) []
  rw [nil_append] at hcalls hsource
  refine ⟨_, by rw [apkDirForeachConfigFile, hrun, Option.bind_some, hcalls], ?_, fun d name => ?_⟩
  · rw [pairwise_filterMap]
    refine (h.sorted.and h.nodup).imp_of_mem fun {a b} ha hb hab x hx y hy => ?_
    obtain ⟨-, -, rfl⟩ := Option.map_eq_some_iff.1 hx
    obtain ⟨-, -, rfl⟩ := Option.map_eq_some_iff.1 hy
    refine lt_of_le_of_ne hab.1 fun h0 => hab.2 ?_
    obtain ⟨i, n⟩ := a
    obtain ⟨j, n'⟩ := b
    obtain rfl : n = n' := (strcmp_eq_zero _ _).1 h0
    obtain rfl : i = j := Option.some.inj (((h.mem ⟨i, n⟩).1 ha).symm.trans ((h.mem ⟨j, n⟩).1 hb))
    rfl
  · have hfind : dirs.find? (fun d => name ∈ d.visible filter) = ctx.source.find? (shows filter name) := by
      rw [hsource, find?_filter]
      congr 1
      funext d
      cases hd : d.entries <;> simp [shows, ConfigDir.visible, hd]
    rw [hfind, find?_eq_bind_findIdx?_getElem?, mem_filterMap, Option.bind_eq_some_iff]
    constructor
    · rintro ⟨f, hf, hfd⟩
      obtain ⟨d', hd', heq⟩ := Option.map_eq_some_iff.1 hfd
      obtain ⟨rfl, rfl⟩ := Prod.mk.inj heq
      exact ⟨f.index, (h.mem f).1 hf, hd'⟩
    · rintro ⟨i, hi, hd⟩
      exact ⟨⟨i, name⟩, (h.mem _).2 hi, by rw [hd, Option.map_some]⟩

def etcKeys : ConfigDir :=
  ⟨lit "etc/apk/keys", some [⟨[asc 'b'], by decide⟩, ⟨[asc 'a'], by decide⟩], by decide⟩

def libKeys : ConfigDir :=
  ⟨lit "lib/apk/keys", some [⟨[asc 'c'], by decide⟩, ⟨[asc 'b'], by decide⟩], by decide⟩

theorem config_files_first_two : ∃ calls, apkDirForeachConfigFile (fun name => name.head? = some (asc '.'))
      ⟨fun cmp items => items.find? fun x => cmp x = 0, by simp⟩ (fun _ _ _ => 0) [etcKeys, libKeys] =
        some (0, calls) ∧
    (etcKeys, ⟨[asc 'b'], by decide⟩) ∈ calls ∧ (libKeys, ⟨[asc 'c'], by decide⟩) ∈ calls := by
  obtain ⟨calls, hrun, -, hmem⟩ := config_files_first (fun name => name.head? = some (asc '.'))
    ⟨fun cmp items => items.find? fun x => cmp x = 0, by simp⟩ (fun _ _ _ => rfl)
    (show [etcKeys, libKeys].length ≤ 8 by decide)
  exact ⟨calls, hrun, (hmem _ _).2 rfl, (hmem _ _).2 rfl⟩

end Alpine
