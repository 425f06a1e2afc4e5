import Alpine.Sanity.AdbOrder

/-! The sort of the arrays that are written. The comparison of texts and of objects is a total preorder
unless a version is missing in one of two objects that are equal up to it: a dependency without a version is
equal to the same one with any version, and the copies of one value need not end up side by side. Nested
databases are opened without a trust context, so that none of them is trusted, and two databases without
content are equal. Numbers are not sorted at all. -/

namespace Alpine

open List

variable {K : Type} (crypto : Crypto K) (adb : Bytes)

/-- the comparison of the items, by the root objects if they are databases -/
def itemOrder : CmpSchema → ℕ → ℕ → ℤ
  | .adb schema => rootCmp crypto (some ⟨[], true⟩) adb schema
  | item => fun v1 v2 => adbRoCmp .exact item (adb, v1) (adb, v2)

/-- texts and objects -/
def CmpSchema.sortable : CmpSchema → Bool
  | .scalar numeric _ => !numeric
  | .object isArray _ _ => !isArray
  | .adb _ => false

/-- Every `qsort_r` sorts the array: what it compares texts and objects by is a total preorder on them, the
nested databases are all equal, and anything else is in order already. -/
def Sortable (item : CmpSchema) (vals : List ℕ) : Prop :=
  let order := itemOrder crypto adb item
  match item with
  | .scalar false _ => PreorderOn order {v | v ∈ vals}
  | .object false _ _ => PreorderOn order {v | v ∈ vals}
  | .adb _ => adbWaSortDefined crypto adb item vals ∧ vals.Pairwise fun v w => order v w ≤ 0 ∧ order w v ≤ 0
  | _ => vals.IsChain fun v w => order v w ≤ 0

theorem adbWaSort_perm (q : QsortR) (item : CmpSchema) (vals : List ℕ) :
    (adbWaSort crypto q adb item vals).Perm vals := by
  unfold adbWaSort
  split
  · exact q.perm _ _
  · exact q.perm _ _
  · exact q.perm _ _
  · exact Perm.refl _

variable {vals : List ℕ}

/-- a sort that leaves equal elements in their order -/
def stableSort : QsortR where
  sort cmp vals := (vals.attach.mergeSort fun a b => cmp a b ≤ 0).map Subtype.val
  perm cmp vals := by
    have hperm := (mergeSort_perm vals.attach fun a b => decide (cmp a b ≤ 0)).map Subtype.val
    rwa [attach_map_subtype_val] at hperm
  sorted cmp vals h := by
    rw [pairwise_map]
    refine (pairwise_mergeSort (fun a b c hab hbc => ?_) (fun a b => ?_) _).imp of_decide_eq_true
    · exact decide_eq_true (h.trans a a.2 b b.2 c c.2 (of_decide_eq_true hab) (of_decide_eq_true hbc))
    · rcases le_total (cmp a b) 0 with hab | hba
      · simp [hab]
      · simp [(h.flip b b.2 a a.2).2 hba]

section nested

variable {crypto} {rd : AdbReader Unit} {cb : AdbCallback Unit}

theorem parseSwitch_untrusted (h : rd.trusted = false) (type : ℕ) (b : Bytes) :
    (parseSwitch crypto none none rd type b).2.2.trusted = false := by
  have hsig : ∀ {r vfy}, adbTrustVerifySignature crypto none rd.db rd.vfy b = (r, vfy) → r ≠ 0 := by
    intro r vfy hr
    unfold adbTrustVerifySignature at hr
    split_ifs at hr
    all_goals
      cases hr
      decide
  unfold parseSwitch
  split_ifs
  · exact h
  · exact h
  · simp [readerIdentity, adbHandleIdentity, h]
  · simp only [readerSignature, h, Bool.false_eq_true, if_false]
    exact decide_eq_false (hsig rfl)
  · simp only [h]
    rfl

theorem parseLoop_untrusted {data beyond : Bytes} {n pos : ℕ} {r : ℤ} (h : rd.trusted = false) :
    (parseLoop crypto none none cb data beyond n pos r rd).2.trusted = false := by
  induction n generalizing pos r rd with
  | zero => exact h
  | succ n ih =>
    unfold parseLoop
    split
    · exact h
    · exact h
    · simp only
      split_ifs
      · exact h
      · exact parseSwitch_untrusted h _ _
      · exact parseSwitch_untrusted h _ _
      · exact ih (parseSwitch_untrusted h _ _)

theorem parseEnd_untrusted {r : ℤ} (h : rd.trusted = false) : (parseEnd r rd).2.db.adb = none := by
  have hr : ∀ r : ℤ, (if r ≠ 0 then r else if (!rd.trusted) = true then -apkeSignatureUntrusted
      else if rd.db.adb = none then -apkeAdbBlock else 0) ≠ 0 := by
    intro r
    rw [h, if_pos (by rfl : (!false) = true)]
    split_ifs with h0
    · exact h0
    · decide
  rw [parseEnd, if_pos (hr _)]

theorem adbMParse_untrusted {data beyond : Bytes} {n : ℕ} (h : rd.trusted = false)
    (hend : (adbMParse crypto none none cb data beyond n rd).1 ≠ none) :
    (adbMParse crypto none none cb data beyond n rd).2.db.adb = none := by
  have hloop : (parseLoop crypto none none cb data beyond n 0 0 rd).2.trusted = false := parseLoop_untrusted h
  unfold adbMParse at hend ⊢
  split at hend
  · exact absurd rfl hend
  · next heq =>
    rw [heq] at hloop
    exact parseEnd_untrusted hloop

/-- without a trust context no database is left -/
theorem nestedRoot_none {blob : Option Bytes} (h : nestedDefined crypto blob) :
    nestedRoot crypto none blob = ([], adbRRootobj []) := by
  have hadb : (adbMBlob crypto none blob).2.db.adb = none := adbMParse_untrusted rfl h.1
  simp only [nestedRoot, hadb, Option.getD_none]

theorem wadbcmp_zero {schema : CmpSchema} {v w : ℕ} (hv : nestedDefined crypto (adbRBlob adb v))
    (hw : nestedDefined crypto (adbRBlob adb w)) : wadbcmp crypto adb schema v w = 0 := by
  unfold wadbcmp rootCmp
  split
  · rw [nestedRoot_none hv, nestedRoot_none hw]
    rfl
  · rfl

end nested

theorem stableSort_sorted {cmp : ℕ → ℕ → ℤ} (h : vals.Pairwise fun a b => cmp a b ≤ 0) :
    stableSort.sort cmp vals = vals := by
  rw [← attach_map_subtype_val vals, pairwise_map] at h
  change (vals.attach.mergeSort fun a b => cmp a b ≤ 0).map Subtype.val = vals
  rw [mergeSort_of_pairwise (h.imp decide_eq_true), attach_map_subtype_val]

def noKeys : Crypto Empty := ⟨fun _ _ => none, nofun, nofun⟩

/-- there is a `qsort_r` with any result that is not forbidden -/
theorem exists_qsort {cmp : ℕ → ℕ → ℤ} {res : List ℕ} (hperm : res.Perm vals)
    (hsorted : PreorderOn cmp {v | v ∈ vals} → res.Pairwise fun a b => cmp a b ≤ 0) :
    ∃ q : QsortR, q.sort cmp vals = res := by
  classical
  refine ⟨⟨fun c l => if c = cmp ∧ l = vals then res else stableSort.sort c l, fun c l => ?_, fun c l hpre => ?_⟩,
    if_pos ⟨rfl, rfl⟩⟩
  · split_ifs with h
    · rw [h.2]
      exact hperm
    · exact stableSort.perm c l
  · split_ifs with h
    · obtain ⟨rfl, rfl⟩ := h
      exact hsorted hpre
    · exact stableSort.sorted c l hpre

section order

variable {cmp : ℕ → ℕ → ℤ}

/-- two different elements that any `qsort_r` may put first, where the comparison is no preorder -/
theorem exists_qsort_first (hflips : Flips cmp) (hpre : ¬ PreorderOn cmp {v | v ∈ vals}) :
    ∃ (q : QsortR) (a c : ℕ) (rest : List ℕ), q.sort cmp vals = a :: c :: rest ∧ c ≠ a ∧ ¬ cmp a c ≤ 0 := by
  obtain ⟨a, ha, b, hb, c, hc, hab, hbc, hac⟩ : ∃ a ∈ vals, ∃ b ∈ vals, ∃ c ∈ vals,
      cmp a b ≤ 0 ∧ cmp b c ≤ 0 ∧ ¬ cmp a c ≤ 0 := by
    by_contra hall
    push Not at hall
    exact hpre (hflips.preorderOn fun a ha b hb c hc hab hbc => (hall a ha b hb c hc hab hbc))
  have hne : c ≠ a := by
    rintro rfl
    exact hac hflips.self.le
  have hperm : (a :: c :: (vals.erase a).erase c).Perm vals :=
    (((perm_cons_erase ((mem_erase_of_ne hne).2 hc)).symm).cons a).trans (perm_cons_erase ha).symm
  obtain ⟨q, hq⟩ := exists_qsort hperm fun h => absurd h hpre
  exact ⟨q, a, c, _, hq, hne, hac⟩

theorem sorts_iff_preorder (hflips : Flips cmp) :
    (∀ q : QsortR, (q.sort cmp vals).IsChain fun v w => cmp v w ≤ 0) ↔ PreorderOn cmp {v | v ∈ vals} := by
  refine ⟨fun h => by_contra fun hpre => ?_, fun h q => (q.sorted cmp vals h).isChain⟩
  obtain ⟨q, a, c, rest, hq, -, hac⟩ := exists_qsort_first hflips hpre
  have hchain := h q
  rw [hq, isChain_cons_cons] at hchain
  exact hac hchain.1

/-- elements that are all the same to `qsort_r` come out in any order -/
theorem sorts_iff_equal {order : ℕ → ℕ → ℤ} (hcmp : ∀ v ∈ vals, ∀ w ∈ vals, cmp v w = 0) :
    (∀ q : QsortR, (q.sort cmp vals).IsChain fun v w => order v w ≤ 0) ↔
      vals.Pairwise fun v w => order v w ≤ 0 ∧ order w v ≤ 0 := by
  have hany : ∀ {res : List ℕ}, res.Perm vals → ∃ q : QsortR, q.sort cmp vals = res := fun hperm =>
    exists_qsort hperm fun _ => pairwise_of_forall_mem_list fun v hv w hw =>
      (hcmp v (hperm.mem_iff.1 hv) w (hperm.mem_iff.1 hw)).le
  constructor
  · intro h
    have hfirst : ∀ {v w rest}, (v :: w :: rest).Perm vals → order v w ≤ 0 := by
      intro v w rest hperm
      obtain ⟨q, hq⟩ := hany hperm
      have hchain := h q
      rw [hq, isChain_cons_cons] at hchain
      exact hchain.1
    rw [pairwise_iff_forall_sublist]
    intro v w hsub
    obtain ⟨rest, hrest⟩ := hsub.exists_perm_append
    exact ⟨hfirst hrest.symm, hfirst ((Perm.swap v w rest).trans hrest.symm)⟩
  · intro h q
    have hall := ((q.perm cmp vals).pairwise_iff fun {v w} hvw => ⟨hvw.2, hvw.1⟩).2 h
    exact (hall.imp fun hvw => hvw.1).isChain

end order

theorem pairwise_short {r : ℕ → ℕ → Prop} (h : vals.length ≤ 1) : vals.Pairwise r := by
  rw [pairwise_iff_getElem]
  intro i j hi hj hij
  omega

theorem sort_sortable {item : CmpSchema} (h : item.sortable) (vals : List ℕ) :
    (∀ q : QsortR, adbWaSort crypto q adb item vals = q.sort (itemOrder crypto adb item) vals) ∧
      adbWaSortDefined crypto adb item vals ∧
      (Sortable crypto adb item vals ↔ PreorderOn (itemOrder crypto adb item) {v | v ∈ vals}) := by
  cases item with
  | scalar numeric compare =>
    cases numeric with
    | false => exact ⟨fun _ => rfl, trivial, Iff.rfl⟩
    | true => cases h
  | object isArray numCompare fields =>
    cases isArray with
    | false => exact ⟨fun _ => rfl, trivial, Iff.rfl⟩
    | true => cases h
  | adb schema => cases h

theorem itemOrder_eq {kind : AdbSchema} (h : kind.cmp.sortable) :
    itemOrder crypto adb kind.cmp = valCmp adb 16 kind := by
  cases kind with
  | scalar s => rfl
  | obj o => rfl
  | packageAdb => cases h

variable {adb} in
theorem sorts_iff (hadb : adb.length < 2 ^ 31) (kind : AdbSchema) (vals : List ℕ) :
    (adbWaSortDefined crypto adb kind.cmp vals ∧ ∀ q : QsortR, (adbWaSort crypto q adb kind.cmp vals).IsChain
        fun v w => itemOrder crypto adb kind.cmp v w ≤ 0) ↔ Sortable crypto adb kind.cmp vals := by
  by_cases hitem : kind.cmp.sortable
  · obtain ⟨hsort, hdefined, hsortable⟩ := sort_sortable crypto adb hitem vals
    simp only [hsort, hsortable, hdefined, true_and, itemOrder_eq crypto adb hitem]
    exact sorts_iff_preorder (valCmp_flips hadb 16 kind)
  generalize kind.cmp = item at hitem ⊢
  cases item with
  | scalar numeric compare =>
    cases numeric with
    | false => exact absurd rfl hitem
    | true => exact ⟨fun h => h.2 stableSort, fun h => ⟨trivial, fun _ => h⟩⟩
  | object isArray numCompare fields =>
    cases isArray with
    | false => exact absurd rfl hitem
    | true => exact ⟨fun h => h.2 stableSort, fun h => ⟨trivial, fun _ => h⟩⟩
  | adb schema =>
    refine and_congr_right fun hdefined => ?_
    rcases hdefined with hone | hall
    · have hres : ∀ q : QsortR, (adbWaSort crypto q adb (.adb schema) vals).length ≤ 1 := fun q =>
        (adbWaSort_perm crypto adb q (.adb schema) vals).length_eq.trans_le hone
      refine iff_of_true (fun q => ?_) ?_
      · exact (pairwise_short (hres q)).isChain
      · exact pairwise_short hone
    · exact sorts_iff_equal fun v hv w hw => wadbcmp_zero adb (hall v hv) (hall w hw)

/-- an installed package with a name of one letter, as a database in a block of its own -/
def packageBlock (c : UInt8) : Bytes :=
  htole32 32 ++ [0, 0, 0, 0] ++ htole32 (adbVal adbTypeObject 20) ++ [1, c, 0, 0] ++
    htole32 2 ++ htole32 (adbVal adbTypeBlob8 8) ++ htole32 2 ++ htole32 (adbVal adbTypeObject 12)

theorem dropSame_sublist (vals : List ℕ) : dropSame vals <+ vals := by
  induction vals using dropSame.induct with
  | case1 v vals ih =>
    rw [dropSame, if_pos rfl]
    exact ih.trans (sublist_cons_self v _)
  | case2 v w vals h ih =>
    rw [dropSame, if_neg h]
    exact ih.cons_cons v
  | case3 vals h => rw [dropSame.eq_2 vals h]

theorem mem_dropSame {vals : List ℕ} {v : ℕ} : v ∈ dropSame vals ↔ v ∈ vals := by
  induction vals using dropSame.induct with
  | case1 w vals ih => simp [dropSame, ih]
  | case2 w x vals h ih => rw [dropSame, if_neg h, mem_cons, ih, ← mem_cons]
  | case3 vals h => rw [dropSame.eq_2 vals h]

theorem dropSame_cons (v : ℕ) (vals : List ℕ) : ∃ rest, dropSame (v :: vals) = v :: rest := by
  induction vals with
  | nil => exact ⟨[], rfl⟩
  | cons w vals ih =>
    by_cases h : w = v
    · rw [dropSame, if_pos h, h]
      exact ih
    · exact ⟨_, by rw [dropSame, if_neg h]⟩

/-- different values next to each other all stay -/
theorem sublist_dropSame {c vals : List ℕ} (hc : c.IsChain (· ≠ ·)) (h : c <+ vals) : c <+ dropSame vals := by
  induction vals using dropSame.induct generalizing c with
  | case1 v vals ih =>
    rw [dropSame, if_pos rfl]
    cases h with
    | cons _ h => exact ih hc h
    | cons_cons _ h =>
      -- only one of the two copies of `v` is used
      refine ih hc (Sublist.cons_cons v ?_)
      cases h with
      | cons _ h => exact h
      | cons_cons _ h => exact absurd rfl (isChain_cons_cons.1 hc).1
  | case2 v w vals hvw ih =>
    rw [dropSame, if_neg hvw]
    cases h with
    | cons _ h => exact (ih hc h).cons v
    | cons_cons _ h => exact (ih hc.tail h).cons_cons v
  | case3 vals hvals => rwa [dropSame.eq_2 vals hvals]

theorem dropSame_nodup {le : ℕ → ℕ → Prop} {vals : List ℕ} (hsorted : vals.Pairwise le)
    (hanti : ∀ v ∈ vals, ∀ w ∈ vals, 2 ≤ vals.count v → le v w → le w v → w = v) : (dropSame vals).Nodup := by
  have htail : ∀ {v : ℕ} {vals : List ℕ}, (∀ a ∈ v :: vals, ∀ b ∈ v :: vals, 2 ≤ (v :: vals).count a →
      le a b → le b a → b = a) → ∀ a ∈ vals, ∀ b ∈ vals, 2 ≤ vals.count a → le a b → le b a → b = a :=
    fun h a ha b hb htwo => h a (mem_cons_of_mem _ ha) b (mem_cons_of_mem _ hb) (htwo.trans (count_le_count_cons))
  induction vals using dropSame.induct with
  | case1 v vals ih =>
    rw [dropSame, if_pos rfl]
    exact ih hsorted.of_cons (htail hanti)
  | case2 v w vals h ih =>
    rw [dropSame, if_neg h, nodup_cons, mem_dropSame]
    refine ⟨fun hv => ?_, ih hsorted.of_cons (htail hanti)⟩
    obtain ⟨hfirst, hrest⟩ := pairwise_cons.1 hsorted
    -- the second copy of `v` is behind `w`, which is behind the first
    rcases mem_cons.1 hv with rfl | hv
    · exact h rfl
    · have htwo : 2 ≤ (v :: w :: vals).count v := by
        rw [count_cons_self, count_cons_of_ne h]
        exact Nat.succ_le_succ (one_le_count_iff.2 hv)
      exact h (hanti v (by simp) w (by simp) htwo (hfirst w (by simp)) ((pairwise_cons.1 hrest).1 v hv))
  | case3 vals h =>
    match vals, h with
    | [], _ => exact nodup_nil
    | [v], _ => exact nodup_singleton v
    | v :: w :: vals, h => exact absurd rfl (h v w vals)

section twice

variable {cmp : ℕ → ℕ → ℤ} {v w : ℕ}

theorem stableSort_sublist {c : List ℕ} (hpre : PreorderOn cmp {v | v ∈ vals})
    (hc : c.Pairwise fun a b => cmp a b ≤ 0) (h : c <+ vals) : c <+ stableSort.sort cmp vals := by
  rw [← attach_map_subtype_val vals] at h
  obtain ⟨c, hsub, rfl⟩ := sublist_map_iff.1 h
  rw [pairwise_map] at hc
  refine (sublist_mergeSort (fun a b d hab hbd => ?_) (fun a b => ?_) (hc.imp decide_eq_true) hsub).map _
  · exact decide_eq_true (hpre.trans a a.2 b b.2 d d.2 (of_decide_eq_true hab) (of_decide_eq_true hbd))
  · rcases le_total (cmp a b) 0 with hab | hba
    · simp [hab]
    · simp [(hpre.flip b b.2 a a.2).2 hba]

/-- a `qsort_r` that puts an equal element between two copies of one -/
theorem exists_qsort_between (hpre : PreorderOn cmp {v | v ∈ vals}) (hv : v ∈ vals) (hw : w ∈ vals)
    (htwo : 2 ≤ vals.count v) (hvw : cmp v w = 0) (hne : w ≠ v) :
    ∃ q : QsortR, [v, w, v] <+ q.sort cmp vals := by
  have hperm : (v :: w :: v :: ((vals.erase v).erase w).erase v).Perm vals := by
    have hsecond : v ∈ (vals.erase v).erase w := by
      rw [mem_erase_of_ne hne.symm, ← one_le_count_iff, count_erase_self]
      omega
    refine Perm.trans (Perm.cons v ?_) (perm_cons_erase hv).symm
    exact ((perm_cons_erase hsecond).symm.cons w).trans (perm_cons_erase ((mem_erase_of_ne hne).2 hw)).symm
  obtain ⟨l, hl⟩ : ∃ l, l = v :: w :: v :: ((vals.erase v).erase w).erase v := ⟨_, rfl⟩
  rw [← hl] at hperm
  have hprel : PreorderOn cmp {v | v ∈ l} := by
    simpa only [hperm.mem_iff] using hpre
  obtain ⟨q, hq⟩ := exists_qsort ((stableSort.perm cmp l).trans hperm) fun _ => stableSort.sorted cmp l hprel
  refine ⟨q, hq ▸ stableSort_sublist hprel ?_ (hl ▸ ?_)⟩
  · have hwv : cmp w v ≤ 0 := (hpre.flip w hw v hv).2 hvw.ge
    have hvv : cmp v v ≤ 0 := hpre.trans v hv w hw v hv hvw.le hwv
    simp [hvw, hwv, hvv]
  · exact ((((nil_sublist _).cons_cons v).cons_cons w).cons_cons v)

end twice

/-- the names of the dependencies `a` and `a=1`, and these -/
def twoDeps : Bytes :=
  [1, 97, 1, 49] ++ [2, adbVal adbTypeBlob8 0, 3, adbVal adbTypeBlob8 0, adbVal adbTypeBlob8 2].flatMap htole32

end Alpine
