import Alpine.Spec.Serialize
import Alpine.Sanity.Rfc8259

/-! What the JSON serializer writes for a well-nested sequence of events is a JSON text of their tree. -/

namespace Alpine

open List Rfc8259 SerializeJson

open Rfc8259 (Part Utf8 Ws Chars Text JsonText)

/-- a value, the items of an array or the members of an object, as a caller gives them -/
inductive SerTree : Part → Type
  | str (val : Bytes) (multiline : Bool) : SerTree .value
  | num (val : UInt64) (hint : ℕ) : SerTree .value
  | arr (num : ℤ) (items : SerTree .items) : SerTree .value
  | obj (schemaId : ℕ) (members : SerTree .members) : SerTree .value
  | nil : SerTree .items
  | cons (v : SerTree .value) (items : SerTree .items) : SerTree .items
  | none : SerTree .members
  | member (key : Bytes) (v : SerTree .value) (members : SerTree .members) : SerTree .members

open SerTree

namespace SerTree

/-- the well-nested sequence of events -/
def events : {p : Part} → SerTree p → List SerEvent
  | _, str val multiline => [.string val multiline]
  | _, num val hint => [.numeric val hint]
  | _, arr n items => .startArray n :: items.events ++ [.end]
  | _, obj schemaId members => .startObject schemaId :: members.events ++ [.end]
  | _, nil => []
  | _, cons v items => v.events ++ items.events
  | _, none => []
  | _, member key v members => .key key :: v.events ++ members.events

def json : {p : Part} → SerTree p → Rfc8259.Tree p
  | _, str val _ => .str val
  | _, num val _ => .num val.toNat
  | _, arr _ items => .arr items.json
  | _, obj _ members => .obj members.json
  | _, nil => .nil
  | _, cons v items => .cons v.json items.json
  | _, none => .none
  | _, member key v members => .member key v.json members.json

/-- how many objects and arrays are around the innermost item or member -/
def depth : {p : Part} → SerTree p → ℕ
  | _, str _ _ => 0
  | _, num _ _ => 0
  | _, arr _ items => items.depth
  | _, obj _ members => members.depth
  | _, nil => 0
  | _, cons v items => max (v.depth + 1) items.depth
  | _, none => 0
  | _, member _ v members => max (v.depth + 1) members.depth

/-- strings and keys are in UTF-8 and have no NUL -/
def IsText : {p : Part} → SerTree p → Prop
  | _, str val _ => Utf8 val ∧ 0 ∉ val
  | _, num _ _ => True
  | _, arr _ items => items.IsText
  | _, obj _ members => members.IsText
  | _, nil => True
  | _, cons v items => v.IsText ∧ items.IsText
  | _, none => True
  | _, member key v members => (Utf8 key ∧ 0 ∉ key) ∧ v.IsText ∧ members.IsText

/-- no string has a control byte but newlines and tabs, and no key a letter that needs an escape -/
def Plain : {p : Part} → SerTree p → Prop
  | _, str val _ => ∀ c ∈ val, 0x20 ≤ c ∨ c = asc '\n' ∨ c = asc '\t'
  | _, num _ _ => True
  | _, arr _ items => items.Plain
  | _, obj _ members => members.Plain
  | _, nil => True
  | _, cons v items => v.Plain ∧ items.Plain
  | _, none => True
  | _, member key v members =>
    (∀ c ∈ key, 0x20 ≤ c ∧ c ≠ asc '"' ∧ c ≠ asc '\\') ∧ v.Plain ∧ members.Plain

end SerTree

def jsonChar (c : UInt8) : Bytes := ((jsonEsc c).map fun e => [asc '\\', e]).getD [c]

/-- the texts that are written for values, items and members, whatever bytes their strings have -/
inductive Written : {p : Part} → SerTree p → Bytes → Prop
  | str {val : Bytes} {multiline : Bool} : Written (.str val multiline) (0x22 :: val.flatMap jsonChar ++ [0x22])
  | num {val : UInt64} {hint : ℕ} : Written (.num val hint) (uintText val.toNat 10)
  | arrNil {n : ℤ} {w : Bytes} (hw : Ws w) : Written (.arr n .nil) (0x5b :: w ++ [0x5d])
  | arr {n : ℤ} {w w' t : Bytes} {items : SerTree .items} (hw : Ws w) (h : Written items t) (hw' : Ws w') :
      Written (.arr n items) (0x5b :: w ++ t ++ w' ++ [0x5d])
  | objNone {n : ℕ} {w : Bytes} (hw : Ws w) : Written (.obj n .none) (0x7b :: w ++ [0x7d])
  | obj {n : ℕ} {w w' t : Bytes} {members : SerTree .members} (hw : Ws w) (h : Written members t) (hw' : Ws w') :
      Written (.obj n members) (0x7b :: w ++ t ++ w' ++ [0x7d])
  | item {t : Bytes} {v : SerTree .value} (h : Written v t) : Written (.cons v .nil) t
  | items {w t t' : Bytes} {v : SerTree .value} {items : SerTree .items} (h : Written v t) (hw : Ws w)
      (h' : Written items t') : Written (.cons v items) (t ++ 0x2c :: w ++ t')
  | member {w key t : Bytes} {v : SerTree .value} (hw : Ws w) (h : Written v t) :
      Written (.member key v .none) (0x22 :: key ++ 0x22 :: 0x3a :: w ++ t)
  | members {w w' key t t' : Bytes} {v : SerTree .value} {members : SerTree .members} (hw : Ws w) (h : Written v t)
      (hw' : Ws w') (h' : Written members t') :
      Written (.member key v members) (0x22 :: key ++ 0x22 :: 0x3a :: w ++ t ++ 0x2c :: w' ++ t')

theorem serJsonStringLoop_eq {pending val : Bytes} :
    serJsonStringLoop pending val = pending ++ val.flatMap jsonChar := by
  induction val generalizing pending with
  | nil => simp [serJsonStringLoop]
  | cons c val ih =>
    rw [serJsonStringLoop, flatMap_cons, jsonChar]
    cases h : jsonEsc c with
    | none => simp [ih]
    | some e => simp [ih]

theorem jsonEsc_escapes {c e : UInt8} (h : jsonEsc c = some e) : (e, c) ∈ escapes := by
  revert h
  unfold jsonEsc
  split_ifs with h₁ h₂ h₃ h₄ <;> intro h <;> cases h
  all_goals subst c; decide

theorem jsonEsc_ascii {c e : UInt8} (h : jsonEsc c = some e) : e < 0x80 ∧ c < 0x80 := by
  have : ∀ p ∈ escapes, p.1 < 0x80 ∧ p.2 < 0x80 := by decide
  exact this _ (jsonEsc_escapes h)

theorem jsonEsc_none {c : UInt8} (h : jsonEsc c = .none) :
    c ≠ 0x22 ∧ c ≠ 0x5c ∧ c ≠ asc '\n' ∧ c ≠ asc '\t' := by
  revert h
  unfold jsonEsc
  split_ifs with h₁ h₂ h₃ h₄ <;> intro h <;> cases h
  exact ⟨h₁, h₄, h₂, h₃⟩

theorem jsonChar_of_le {c : UInt8} (hc : 0x80 ≤ c) : jsonChar c = [c] := by
  unfold jsonChar
  cases h : jsonEsc c with
  | none => rfl
  | some e => exact absurd (jsonEsc_ascii h).2 (UInt8.not_lt.2 hc)

theorem utf8_jsonChars {val : Bytes} (h : Utf8 val) : Utf8 (val.flatMap jsonChar) := by
  have hhigh : ∀ {a k : UInt8}, 0x80 ≤ k → k ≤ a → jsonChar a = [a] :=
    fun hk ha => jsonChar_of_le (UInt8.le_trans hk ha)
  induction h with
  | nil => exact .nil
  | @one a _ ha _ ih =>
    refine Utf8.append (utf8_of_ascii ?_) ih
    intro c hc
    unfold jsonChar at hc
    cases h : jsonEsc a with
    | none => simp_all
    | some e =>
      have := (jsonEsc_ascii h).1
      have : asc '\\' < 0x80 := by decide
      simp only [h, Option.map_some, Option.getD_some, mem_cons, not_mem_nil, or_false] at hc
      rcases hc with rfl | rfl <;> assumption
  | two ha hb _ ih =>
    simp only [flatMap_cons, hhigh (by decide) ha.1, jsonChar_of_le hb.1]
    exact .two ha hb ih
  | three ha hb hc hlow hhi _ ih =>
    simp only [flatMap_cons, hhigh (by decide) ha.1, jsonChar_of_le hb.1, jsonChar_of_le hc.1]
    exact .three ha hb hc hlow hhi ih
  | four ha hb hc hd hlow hhi _ ih =>
    simp only [flatMap_cons, hhigh (by decide) ha.1, jsonChar_of_le hb.1, jsonChar_of_le hc.1,
      jsonChar_of_le hd.1]
    exact .four ha hb hc hd hlow hhi ih

theorem chars_jsonChars {val : Bytes} (h : ∀ c ∈ val, 0x20 ≤ c ∨ c = asc '\n' ∨ c = asc '\t') :
    Chars (val.flatMap jsonChar) val := by
  induction val with
  | nil => exact .nil
  | cons c val ih =>
    obtain ⟨hc, hval⟩ := forall_mem_cons.1 h
    rw [flatMap_cons, jsonChar]
    cases he : jsonEsc c with
    | none =>
      obtain ⟨hquote, hslash, hn, ht⟩ := jsonEsc_none he
      exact .plain (by simpa [hn, ht] using hc) hquote hslash (ih hval)
    | some e => exact .escape (jsonEsc_escapes he) (ih hval)

theorem chars_key {key : Bytes} (h : ∀ c ∈ key, 0x20 ≤ c ∧ c ≠ asc '"' ∧ c ≠ asc '\\') :
    Chars key key := by
  induction key with
  | nil => exact .nil
  | cons c key ih =>
    obtain ⟨⟨hc, hquote, hslash⟩, hkey⟩ := forall_mem_cons.1 h
    exact .plain hc hquote hslash (ih hkey)

theorem xd_digit {d : ℕ} (h : d < 10) : Rfc8259.IsDigit (xd d) ∧ (xd d).toNat - 0x30 = d := by
  revert d
  have : ∀ d < 10, (0x30 ≤ xd d ∧ xd d ≤ 0x39) ∧ (xd d).toNat - 0x30 = d := by decide
  exact this

theorem uintLoop_digits {room value : ℕ} (h : value < 10 ^ room) (acc : Bytes) :
    ∃ ds, uintLoop 10 room value acc = ds ++ acc ∧ (∀ c ∈ ds, Rfc8259.IsDigit c) ∧
      (∀ n, ds.foldl (fun n c => n * 10 + (c.toNat - 0x30)) n = n * 10 ^ ds.length + value) ∧
      (value ≠ 0 → ds ≠ [] ∧ ds.head? ≠ some 0x30) := by
  induction room generalizing value acc with
  | zero =>
    have : value = 0 := by simpa using h
    exact ⟨[], rfl, by simp, by simp [this], fun h => absurd this h⟩
  | succ room ih =>
    rw [uintLoop]
    split_ifs with h0
    · exact ⟨[], rfl, by simp, by simp [h0], fun h => absurd h0 h⟩
    obtain ⟨ds, hds, hdigits, hvalue, hhead⟩ := ih
      (show value / 10 < 10 ^ room by rw [pow_succ] at h; omega) (xd (value % 10) :: acc)
    have hd := xd_digit (Nat.mod_lt value (by omega : 0 < 10))
    refine ⟨ds ++ [xd (value % 10)], by simp [hds], ?_, ?_, ?_⟩
    · simp only [forall_mem_append]
      exact ⟨hdigits, by simpa using hd.1⟩
    · intro n
      rw [foldl_append, hvalue, foldl_cons, foldl_nil, length_append, length_singleton]
      ring_nf
      omega
    intro _
    refine ⟨by simp, ?_⟩
    by_cases hq : value / 10 = 0
    · have hds' : ds = [] := by
        cases room with
        | zero => simpa [uintLoop] using hds.symm
        | succ room => simpa [uintLoop, hq] using hds.symm
      rw [hds']
      have : ∀ d < 10, d ≠ 0 → some (xd d) ≠ some 0x30 := by decide
      exact this _ (Nat.mod_lt _ (by omega)) (by omega)
    · obtain ⟨hne, hh⟩ := hhead hq
      rwa [List.head?_append_of_ne_nil _ hne]

theorem text_uint (val : UInt64) :
    Text (.num val.toNat) (uintText val.toNat 10) ∧ Utf8 (uintText val.toNat 10) := by
  have key : ∀ ds : Bytes, Rfc8259.Digits ds → (ds.head? = some 0x30 → ds = [0x30]) →
      Text (.num (digitsValue ds)) ds ∧ Utf8 ds := by
    intro ds hds hhead
    refine ⟨?_, utf8_of_ascii fun c hc => UInt8.lt_of_le_of_lt (hds.2 c hc).2 (by decide)⟩
    have := Text.num ⟨false, ds, [], 0x65, [], [], hds, hhead, by simp, .inl rfl, .inl rfl, by simp⟩
    simpa [Rfc8259.Number.value, Rfc8259.Number.text, digitsValue] using this
  unfold uintText
  split_ifs with h
  · rw [h]
    exact key [asc '0'] ⟨by decide, by simp [Rfc8259.IsDigit]; decide⟩ fun _ => rfl
  have hroom : val.toNat < 10 ^ 64 := val.toNat_lt.trans (by norm_num)
  obtain ⟨ds, hds, hdigits, hvalue, hhead⟩ := uintLoop_digits hroom []
  obtain ⟨hne, hzero⟩ := hhead h
  rw [append_nil] at hds
  have hv : digitsValue ds = val.toNat := by
    rw [digitsValue, hvalue, Nat.zero_mul, Nat.zero_add]
  rw [hds, ← hv]
  exact key ds ⟨hne, hdigits⟩ fun h => absurd h hzero

variable (dt : SerializeJson)

def jsonSep : Bytes := if dt.keyPrinted = false ∧ dt.needSeparator then [asc ','] else []

theorem ws_pad {n : ℕ} (h : n ≤ 16) : Ws (jsonPad.take (1 + 2 * n)) := by
  have : ∀ n ≤ 16, ∀ c ∈ jsonPad.take (1 + 2 * n), c = 0x20 ∨ c = 0x09 ∨ c = 0x0a ∨ c = 0x0d := by decide
  exact this n h

theorem ws_space : Ws [asc ' '] := by unfold Ws; decide

theorem serJsonIndent_eq (h : dt.nest ≤ 16) (item : Bool) :
    ∃ w, Ws w ∧ serJsonIndent dt item = .ok { dt with
      keyPrinted := false, out := dt.out ++ ((if item then jsonSep dt else []) ++ w) } := by
  have hpad : jsonPad.length = 34 := rfl
  obtain ⟨nest, keyPrinted, needSeparator, needNewline, ends, out⟩ := dt
  simp only at h
  have hassert : ¬ 34 < 2 * nest := by omega
  have hroom : ¬ 34 < 1 + 2 * nest := by omega
  cases keyPrinted with
  | true =>
    refine ⟨[asc ' '], ws_space, ?_⟩
    cases item <;> simp <;> rfl
  | false =>
    cases needNewline with
    | false =>
      refine ⟨[asc ' '], ws_space, ?_⟩
      cases item <;> cases needSeparator <;> simp [serJsonIndent, write] <;> rfl
    | true =>
      refine ⟨_, ws_pad h, ?_⟩
      cases item <;> cases needSeparator <;>
        simp [serJsonIndent, write, writeArray, jsonSep, hpad, hassert, hroom]

theorem serJsonKey_eq (h : dt.nest ≤ 16) (key : Bytes) :
    ∃ w dt₁, Ws w ∧ serJsonKey dt key = .ok dt₁ ∧ dt₁.nest = dt.nest ∧ dt₁.keyPrinted = true ∧
      dt₁.ends = dt.ends ∧ dt₁.out = dt.out ++ (jsonSep dt ++ (w ++ (0x22 :: key ++ [0x22, 0x3a]))) := by
  obtain ⟨w, hw, he⟩ := serJsonIndent_eq { dt with needNewline := true } h true
  have hquote : asc '"' = 0x22 ∧ asc ':' = 0x3a := by decide
  refine ⟨w, { dt with
    keyPrinted := true, needSeparator := true, needNewline := true
    out := dt.out ++ (jsonSep dt ++ (w ++ (0x22 :: key ++ [0x22, 0x3a]))) }, hw, ?_, rfl, rfl, rfl, rfl⟩
  rw [serJsonKey, he]
  simp [SerializeJson.write, jsonSep, Bind.bind, Except.bind, pure, Except.pure, hquote]

theorem serJsonString_eq (h : dt.nest ≤ 16) (val : Bytes) :
    ∃ w, Ws w ∧ serJsonString dt val = .ok { dt with
      keyPrinted := false, needSeparator := true, needNewline := true
      out := dt.out ++ (jsonSep dt ++ (w ++ (0x22 :: val.flatMap jsonChar ++ [0x22]))) } := by
  obtain ⟨w, hw, he⟩ := serJsonIndent_eq { dt with needNewline := true } h true
  refine ⟨w, hw, ?_⟩
  rw [serJsonString, he, serJsonStringLoop_eq]
  simp [SerializeJson.write, jsonSep, Bind.bind, Except.bind, pure, Except.pure]
  decide

theorem serJsonNumeric_eq (h : dt.nest ≤ 16) (val : UInt64) :
    ∃ w, Ws w ∧ serJsonNumeric dt val = .ok { dt with
      keyPrinted := false, needSeparator := true, needNewline := true
      out := dt.out ++ (jsonSep dt ++ (w ++ uintText val.toNat 10)) } := by
  obtain ⟨w, hw, he⟩ := serJsonIndent_eq { dt with needNewline := true } h true
  refine ⟨w, hw, ?_⟩
  rw [serJsonNumeric, he]
  simp [SerializeJson.write, jsonSep, Bind.bind, Except.bind, pure, Except.pure]

/-- nothing has been written for the value at the top -/
def TopFresh : Prop := dt.nest = 0 → dt.keyPrinted = false ∧ dt.needSeparator = false

theorem serJsonStartIndent_eq {dt : SerializeJson} (h : dt.nest ≤ 16) {sb eb : UInt8} :
    serJsonStartIndent dt sb eb = .ok { dt with
      nest := dt.nest + 1, needSeparator := false, needNewline := true
      ends := Function.update dt.ends (dt.nest + 1) eb, out := dt.out ++ [sb] } := by
  have hnest : dt.nest < apkSerializeMaxNesting := Nat.lt_of_le_of_lt h (by decide)
  have hroom : ¬ apkSerializeMaxNesting ≤ dt.nest + 1 :=
    Nat.not_le.2 (Nat.lt_of_le_of_lt (Nat.succ_le_succ h) (by decide))
  rw [serJsonStartIndent, if_neg (not_not.2 hnest)]
  exact if_neg hroom

theorem serJsonStart_eq {dt : SerializeJson} (h : dt.nest ≤ 16) (htop : TopFresh dt) {sb eb : UInt8} :
    ∃ w, Ws w ∧ serJsonStart dt sb eb = .ok { dt with
      nest := dt.nest + 1, keyPrinted := false, needSeparator := false, needNewline := true
      ends := Function.update dt.ends (dt.nest + 1) eb
      out := dt.out ++ (jsonSep dt ++ (w ++ [sb])) } := by
  by_cases h0 : dt.nest = 0
  · obtain ⟨hkey, hsep⟩ := htop h0
    refine ⟨[], Rfc8259.ws_nil, ?_⟩
    rw [serJsonStart, if_neg (not_not.2 h0)]
    simp only [Bind.bind, Except.bind, pure, Except.pure, serJsonStartIndent_eq h]
    simp [jsonSep, hkey, hsep]
  obtain ⟨w, hw, he⟩ := serJsonIndent_eq dt h true
  refine ⟨w, hw, ?_⟩
  rw [serJsonStart, if_pos h0, he]
  refine (serJsonStartIndent_eq (by exact h)).trans ?_
  simp

theorem serJsonEnd_eq {dt : SerializeJson} {nest : ℕ} (hn : dt.nest = nest + 1) (h : nest ≤ 16)
    (hkey : dt.keyPrinted = false) :
    ∃ w, Ws w ∧ serJsonEnd dt = .ok { dt with
      nest := nest, needSeparator := true, needNewline := false
      ends := Function.update dt.ends (nest + 1) 0
      out := dt.out ++ (w ++ (dt.ends (nest + 1) :: if nest = 0 then [asc '\n'] else [])) } := by
  obtain ⟨w, hw, he⟩ := serJsonIndent_eq { dt with needNewline := true, nest := nest } h false
  refine ⟨w, hw, ?_⟩
  unfold serJsonEnd
  rw [hn]
  simp only [he]
  by_cases h0 : nest = 0 <;>
    simp [SerializeJson.write, Bind.bind, Except.bind, pure, Except.pure, h0, hkey]

theorem serJsonRun_append (l l' : List SerEvent) :
    serJsonRun dt (l ++ l') = (serJsonRun dt l).bind fun dt => serJsonRun dt l' :=
  foldlM_append ..

theorem serJsonRun_cons (e : SerEvent) (l : List SerEvent) :
    serJsonRun dt (e :: l) = (serJson dt e).bind fun dt => serJsonRun dt l :=
  foldlM_cons ..

/-- what whole values leave as it was -/
structure Kept (dt dt' : SerializeJson) : Prop where
  nest : dt'.nest = dt.nest
  keyPrinted : dt'.keyPrinted = false
  ends : ∀ i ≤ dt.nest, dt'.ends i = dt.ends i

theorem Kept.trans {dt dt' dt'' : SerializeJson} (h : Kept dt dt') (h' : Kept dt' dt'') : Kept dt dt'' :=
  ⟨h'.nest.trans h.nest, h'.keyPrinted, fun i hi => (h'.ends i (h.nest ▸ hi)).trans (h.ends i hi)⟩

/-- a value has been written, after a comma if one was due -/
structure WroteValue (dt dt' : SerializeJson) (v : SerTree .value) : Prop extends Kept dt dt' where
  needSeparator : dt'.needSeparator = true
  out : ∃ w t w', dt'.out = dt.out ++ (jsonSep dt ++ (w ++ (t ++ w'))) ∧ Ws w ∧ Written v t ∧ Ws w' ∧
    (dt.nest ≠ 0 → w' = [])

/-- some items or members have been written, after a comma if one was due -/
def WroteAll (dt' : SerializeJson) {p : Part} (l : SerTree p) : Prop :=
  ∃ w t, dt'.out = dt.out ++ (jsonSep dt ++ (w ++ t)) ∧ Ws w ∧ Written l t

/-- what the events of a tree do: a value stands where it can, items and members stand in an array or
an object -/
def Serialized : {p : Part} → SerTree p → Prop
  | .value, v => ∀ dt, TopFresh dt → dt.nest + v.depth ≤ 16 →
    ∃ dt', serJsonRun dt v.events = .ok dt' ∧ WroteValue dt dt' v
  | .items, l => ∀ dt, dt.keyPrinted = false → dt.nest ≠ 0 → dt.nest + l.depth ≤ 17 →
    ∃ dt', serJsonRun dt l.events = .ok dt' ∧ Kept dt dt' ∧ (l = .nil ∧ dt' = dt ∨ WroteAll dt dt' l)
  | .members, l => ∀ dt, dt.keyPrinted = false → dt.nest ≠ 0 → dt.nest + l.depth ≤ 17 →
    ∃ dt', serJsonRun dt l.events = .ok dt' ∧ Kept dt dt' ∧ (l = .none ∧ dt' = dt ∨ WroteAll dt dt' l)

theorem jsonSep_true {dt : SerializeJson} (hkey : dt.keyPrinted = false) (h : dt.needSeparator = true) :
    jsonSep dt = [0x2c] := by
  rw [jsonSep, if_pos ⟨hkey, h⟩]
  rfl

theorem topFresh_of_ne {dt : SerializeJson} (h : dt.nest ≠ 0) : TopFresh dt := fun h0 => absurd h0 h

theorem ws_end {n : ℕ} : Ws (if n = 0 then [asc '\n'] else []) := by
  split_ifs
  · unfold Ws; decide
  · exact ws_nil

theorem utf8_ws {w : Bytes} (h : Ws w) : Utf8 w := by
  refine utf8_of_ascii fun c hc => ?_
  rcases h c hc with rfl | rfl | rfl | rfl <;> decide

theorem serJson_container {dt : SerializeJson} (h : dt.nest ≤ 16) (htop : TopFresh dt) {sb eb : UInt8}
    {inner : List SerEvent} {p : Part} {l empty : SerTree p} {v : SerTree .value}
    (hinner : ∀ dt₁, dt₁.keyPrinted = false → dt₁.nest = dt.nest + 1 →
      ∃ dt₂, serJsonRun dt₁ inner = .ok dt₂ ∧ Kept dt₁ dt₂ ∧ (l = empty ∧ dt₂ = dt₁ ∨ WroteAll dt₁ dt₂ l))
    (hempty : ∀ w, l = empty → Ws w → Written v (sb :: w ++ [eb]))
    (hfull : ∀ w t w', Ws w → Written l t → Ws w' → Written v (sb :: w ++ t ++ w' ++ [eb])) :
    ∃ dt', ((serJsonStart dt sb eb).bind fun dt => serJsonRun dt (inner ++ [.end])) = .ok dt' ∧
      WroteValue dt dt' v := by
  obtain ⟨w, hw, hstart⟩ := serJsonStart_eq h htop
  generalize hdt₁ : ({ dt with
      nest := dt.nest + 1, keyPrinted := false, needSeparator := false, needNewline := true
      ends := Function.update dt.ends (dt.nest + 1) eb
      out := dt.out ++ (jsonSep dt ++ (w ++ [sb])) } : SerializeJson) = dt₁ at hstart
  have hsep₁ : jsonSep dt₁ = [] := by simp [← hdt₁, jsonSep]
  have hnest₁ : dt₁.nest = dt.nest + 1 := by rw [← hdt₁]
  obtain ⟨dt₂, hrun, hkept, hwrote⟩ := hinner dt₁ (by rw [← hdt₁]) hnest₁
  obtain ⟨w₁, hw₁, hend⟩ := serJsonEnd_eq (hkept.nest.trans hnest₁) h hkept.keyPrinted
  have hends : ∀ i ≤ dt.nest + 1, dt₂.ends i = Function.update dt.ends (dt.nest + 1) eb i := by
    intro i hi
    rw [hkept.ends i (by omega), ← hdt₁]
  have heb : dt₂.ends (dt.nest + 1) = eb := by simp [hends _ le_rfl]
  have hall : ((serJsonStart dt sb eb).bind fun dt => serJsonRun dt (inner ++ [.end])) = serJsonEnd dt₂ := by
    rw [hstart]
    simp only [Except.bind, serJsonRun_append, hrun, serJsonRun_cons, serJson, hend]
    rfl
  refine ⟨_, hall.trans hend, ⟨rfl, hkept.keyPrinted, fun i hi => ?_⟩, rfl, ?_⟩
  · have hne : i ≠ dt.nest + 1 := by omega
    simp [hends i (by omega), hne]
  -- the text between the braces is the white space before the closing one, or all of the inner text
  obtain ⟨body, hbody, htext⟩ : ∃ body, dt₂.out ++ w₁ = dt₁.out ++ body ∧ Written v (sb :: body ++ [eb]) := by
    rcases hwrote with ⟨hl, rfl⟩ | ⟨w₂, t, hout, hw₂, ht⟩
    · exact ⟨w₁, rfl, hempty w₁ hl hw₁⟩
    · refine ⟨w₂ ++ t ++ w₁, by simp [hout, hsep₁], ?_⟩
      simpa using hfull w₂ t w₁ hw₂ ht hw₁
  refine ⟨w, sb :: body ++ [eb], _, ?_, hw, htext, ws_end, fun h0 => if_neg h0⟩
  have : dt₁.out = dt.out ++ (jsonSep dt ++ (w ++ [sb])) := by rw [← hdt₁]
  simp only [heb, ← append_assoc, hbody, this]
  simp

theorem wroteValue_scalar {dt dt' : SerializeJson} {w t : Bytes} {v : SerTree .value}
    (h : dt' = { dt with
      keyPrinted := false, needSeparator := true, needNewline := true
      out := dt.out ++ (jsonSep dt ++ (w ++ t)) })
    (hw : Ws w) (ht : Written v t) : WroteValue dt dt' v := by
  subst h
  exact ⟨⟨rfl, rfl, fun _ _ => rfl⟩, rfl, w, t, [], by simp, hw, ht, ws_nil, fun _ => rfl⟩

theorem serialized {p : Part} (l : SerTree p) : Serialized l := by
  induction l with
  | str val multiline =>
    intro dt _ hdepth
    obtain ⟨w, hw, he⟩ := serJsonString_eq dt (by simpa [depth] using hdepth) val
    exact ⟨_, by simp only [events, serJsonRun_cons, serJson, he]; rfl, wroteValue_scalar rfl hw .str⟩
  | num val hint =>
    intro dt _ hdepth
    obtain ⟨w, hw, he⟩ := serJsonNumeric_eq dt (by simpa [depth] using hdepth) val
    exact ⟨_, by simp only [events, serJsonRun_cons, serJson, he]; rfl, wroteValue_scalar rfl hw .num⟩
  | arr n items ih =>
    intro dt htop hdepth
    rw [depth] at hdepth
    refine serJson_container (by omega) htop (fun dt₁ hkey hnest => ih dt₁ hkey (by omega) (by omega)) ?_ ?_
    · rintro w rfl hw
      exact .arrNil hw
    · intro w t w' hw ht hw'
      exact .arr hw ht hw'
  | obj schemaId members ih =>
    intro dt htop hdepth
    rw [depth] at hdepth
    refine serJson_container (by omega) htop (fun dt₁ hkey hnest => ih dt₁ hkey (by omega) (by omega)) ?_ ?_
    · rintro w rfl hw
      exact .objNone hw
    · intro w t w' hw ht hw'
      exact .obj hw ht hw'
  | nil =>
    intro dt hkey _ _
    exact ⟨dt, rfl, ⟨rfl, hkey, fun _ _ => rfl⟩, .inl ⟨rfl, rfl⟩⟩
  | none =>
    intro dt hkey _ _
    exact ⟨dt, rfl, ⟨rfl, hkey, fun _ _ => rfl⟩, .inl ⟨rfl, rfl⟩⟩
  | cons v items ihv ih =>
    intro dt hkey hnest hdepth
    rw [depth] at hdepth
    obtain ⟨dt₁, hrun₁, hv⟩ := ihv dt (topFresh_of_ne hnest) (by omega)
    obtain ⟨w, t, w', hout, hw, ht, -, hw'⟩ := hv.out
    obtain rfl := hw' hnest
    have hnest₁ := hv.nest
    obtain ⟨dt₂, hrun₂, hkept, hl⟩ := ih dt₁ hv.keyPrinted (by omega) (by omega)
    refine ⟨dt₂, by simp [events, serJsonRun_append, hrun₁, Except.bind, hrun₂],
      hv.toKept.trans hkept, .inr ?_⟩
    rcases hl with ⟨rfl, rfl⟩ | ⟨w₂, t₂, hout₂, hw₂, ht₂⟩
    · exact ⟨w, t, by simpa using hout, hw, .item ht⟩
    · rw [jsonSep_true hv.keyPrinted hv.needSeparator, hout] at hout₂
      exact ⟨w, t ++ 0x2c :: w₂ ++ t₂, by simp [hout₂], hw, .items ht hw₂ ht₂⟩
  | member key v members ihv ih =>
    intro dt hkey hnest hdepth
    rw [depth] at hdepth
    obtain ⟨w₀, dt₀, hw₀, hrun₀, hnest₀, hkey₀, hends₀, hout₀⟩ := serJsonKey_eq dt (by omega) key
    obtain ⟨dt₁, hrun₁, hv⟩ := ihv dt₀ (topFresh_of_ne (by omega)) (by omega)
    obtain ⟨w, t, w', hout, hw, ht, -, hw'⟩ := hv.out
    obtain rfl := hw' (by omega)
    have hnest₁ := hv.nest
    have hkept₁ : Kept dt dt₁ :=
      ⟨by omega, hv.keyPrinted, fun i hi => by rw [hv.ends i (by omega), hends₀]⟩
    obtain ⟨dt₂, hrun₂, hkept, hl⟩ := ih dt₁ hv.keyPrinted (by omega) (by omega)
    refine ⟨dt₂, ?_, hkept₁.trans hkept, .inr ?_⟩
    · simp [events, serJsonRun_cons, serJson, hrun₀, serJsonRun_append, hrun₁, Except.bind, hrun₂]
    have hsep₀ : jsonSep dt₀ = [] := by simp [jsonSep, hkey₀]
    rw [hsep₀, hout₀] at hout
    rcases hl with ⟨rfl, rfl⟩ | ⟨w₂, t₂, hout₂, hw₂, ht₂⟩
    · exact ⟨w₀, 0x22 :: key ++ 0x22 :: 0x3a :: w ++ t, by simp [hout], hw₀, .member hw ht⟩
    rw [jsonSep_true hv.keyPrinted hv.needSeparator, hout] at hout₂
    exact ⟨w₀, 0x22 :: key ++ 0x22 :: 0x3a :: w ++ t ++ 0x2c :: w₂ ++ t₂, by simp [hout₂], hw₀,
      .members hw ht hw₂ ht₂⟩

theorem Written.text {p : Part} {l : SerTree p} {t : Bytes} (h : Written l t) (htext : l.IsText) (hplain : l.Plain) :
    Text l.json t ∧ Utf8 t := by
  have hone : ∀ {c : UInt8} {t : Bytes}, c < 0x80 → Utf8 t → Utf8 (c :: t) := fun hc ht => .one hc ht
  induction h with
  | str =>
    refine ⟨.str (chars_jsonChars hplain), ?_⟩
    exact hone (by decide) ((utf8_jsonChars htext.1).append (hone (by decide) .nil))
  | num => exact text_uint _
  | arrNil hw => exact ⟨.arrNil hw, hone (by decide) ((utf8_ws hw).append (hone (by decide) .nil))⟩
  | objNone hw => exact ⟨.objNone hw, hone (by decide) ((utf8_ws hw).append (hone (by decide) .nil))⟩
  | arr hw _ hw' ih =>
    obtain ⟨ht, hutf⟩ := ih htext hplain
    refine ⟨.arr hw ht hw', ?_⟩
    exact hone (by decide) ((((utf8_ws hw).append hutf).append (utf8_ws hw')).append (hone (by decide) .nil))
  | obj hw _ hw' ih =>
    obtain ⟨ht, hutf⟩ := ih htext hplain
    refine ⟨.obj hw ht hw', ?_⟩
    exact hone (by decide) ((((utf8_ws hw).append hutf).append (utf8_ws hw')).append (hone (by decide) .nil))
  | item _ ih =>
    obtain ⟨ht, hutf⟩ := ih htext.1 hplain.1
    exact ⟨.item ht, hutf⟩
  | items _ hw _ ih ih' =>
    obtain ⟨ht, hutf⟩ := ih htext.1 hplain.1
    obtain ⟨ht', hutf'⟩ := ih' htext.2 hplain.2
    refine ⟨?_, (hutf.append (hone (by decide) (utf8_ws hw))).append hutf'⟩
    simpa [json] using Text.items ht ws_nil hw ht'
  | @member w key t v hw _ ih =>
    obtain ⟨ht, hutf⟩ := ih htext.2.1 hplain.2.1
    refine ⟨?_, ?_⟩
    · simpa [json] using Text.member (chars_key hplain.1) ws_nil hw ht
    · have := (hone (c := 0x22) (by decide) htext.1.1).append
        (hone (c := 0x22) (by decide) (hone (c := 0x3a) (by decide) ((utf8_ws hw).append hutf)))
      simpa using this
  | @members w w' key t t' v members hw _ hw' _ ih ih' =>
    obtain ⟨ht, hutf⟩ := ih htext.2.1 hplain.2.1
    obtain ⟨ht', hutf'⟩ := ih' htext.2.2 hplain.2.2
    refine ⟨?_, ?_⟩
    · simpa [json] using Text.members (chars_key hplain.1) ws_nil hw ht ws_nil hw' ht'
    · have := (hone (c := 0x22) (by decide) htext.1.1).append (hone (c := 0x22) (by decide)
        (hone (c := 0x3a) (by decide) (((utf8_ws hw).append hutf).append
          (hone (c := 0x2c) (by decide) ((utf8_ws hw').append hutf')))))
      simpa using this

theorem closing_jsonChars (val r : Bytes) :
    closing (val.flatMap jsonChar ++ 0x22 :: r) = some (val.flatMap jsonChar, r) := by
  induction val with
  | nil => exact Chars.nil.closing r
  | cons c val ih =>
    rw [flatMap_cons, append_assoc, jsonChar]
    cases he : jsonEsc c with
    | none =>
      obtain ⟨hquote, hslash, -⟩ := jsonEsc_none he
      simp only [Option.map_none, Option.getD_none, cons_append, nil_append]
      exact (closing_letter ⟨hquote, hslash⟩ _).trans (by rw [ih]; rfl)
    | some e =>
      simp only [Option.map_some, Option.getD_some, cons_append, nil_append]
      exact (closing_escape e _).trans (by rw [ih]; rfl)

theorem plain_of_chars {val : Bytes} (h : Chars (val.flatMap jsonChar) val) :
    ∀ c ∈ val, 0x20 ≤ c ∨ c = asc '\n' ∨ c = asc '\t' := by
  intro c hc
  cases he : jsonEsc c with
  | none =>
    refine .inl (h.visible c (mem_flatMap.2 ⟨c, hc, ?_⟩))
    rw [jsonChar, he]
    exact mem_singleton_self c
  | some e =>
    revert he
    unfold jsonEsc
    split_ifs with h₁ h₂ h₃ h₄ <;> intro he
    · exact .inl (by rw [h₁]; decide)
    · exact .inr (.inl h₂)
    · exact .inr (.inr h₃)
    · exact .inl (by rw [h₄]; decide)
    · cases he

/-- what follows a text of the grammar: its first byte, if there is one, belongs to no number -/
def NotNumeric (r : Bytes) : Prop := ∀ c ∈ r.head?, ¬ IsNumeric c

theorem notNumeric_cons {c : UInt8} (h : ¬ IsNumeric c) (r : Bytes) : NotNumeric (c :: r) := by
  intro d hd
  cases hd
  exact h

theorem notNumeric_ws {w r : Bytes} (hw : Ws w) (h : NotNumeric r) : NotNumeric (w ++ r) := by
  cases w with
  | nil => exact h
  | cons c w =>
    refine notNumeric_cons (fun hc => ?_) _
    rcases hw c mem_cons_self with rfl | rfl | rfl | rfl <;> revert hc <;> unfold IsNumeric IsDigit <;> decide

theorem not_numeric : ¬ IsNumeric 0x2c ∧ ¬ IsNumeric 0x5d ∧ ¬ IsNumeric 0x7d := by
  unfold IsNumeric IsDigit
  decide

theorem Ws.unique {w w' a b : Bytes} (hw : Ws w) (hw' : Ws w') (ha : ∀ c ∈ a.head?, ¬ IsWs c)
    (hb : ∀ c ∈ b.head?, ¬ IsWs c) (h : w ++ a = w' ++ b) : w = w' ∧ a = b := split_unique hw hw' ha hb h

theorem head_text {p : Part} {v : Rfc8259.Tree p} {t r : Bytes} (h : Text v t) : ∀ c ∈ (t ++ r).head?, ¬ IsWs c := by
  obtain ⟨c, t, rfl, hc⟩ := h.head
  intro d hd
  cases hd
  exact hc

theorem head_written {p : Part} {l : SerTree p} {t r : Bytes} (h : Written l t) : ∀ c ∈ (t ++ r).head?, ¬ IsWs c := by
  induction h generalizing r with
  | num => exact head_text (text_uint _).1
  | item _ ih => exact ih
  | items _ _ _ ih _ =>
    rw [append_assoc, append_assoc]
    exact ih
  | str | arrNil | arr | objNone | obj | member | members =>
    intro d hd
    cases hd
    unfold IsWs
    decide

theorem head_cons {c : UInt8} (h : ¬ IsWs c) (r : Bytes) : ∀ d ∈ (c :: r).head?, ¬ IsWs d := by
  intro d hd
  cases hd
  exact h

theorem not_ws : ¬ IsWs 0x2c ∧ ¬ IsWs 0x3a ∧ ¬ IsWs 0x5d ∧ ¬ IsWs 0x7d := by
  unfold IsWs
  decide

/-- a separator with the white space around it -/
theorem Ws.after {c : UInt8} {w₁ w w' a b : Bytes} (hc : ¬ IsWs c) (hw₁ : Ws w₁) (hw : Ws w) (hw' : Ws w')
    (ha : ∀ d ∈ a.head?, ¬ IsWs d) (hb : ∀ d ∈ b.head?, ¬ IsWs d) (h : c :: (w ++ a) = w₁ ++ c :: (w' ++ b)) :
    w₁ = [] ∧ w = w' ∧ a = b := by
  obtain ⟨rfl, hrest⟩ := Ws.unique ws_nil hw₁ (head_cons hc _) (head_cons hc _) h
  exact ⟨rfl, Ws.unique hw hw' ha hb (List.cons.inj hrest).2⟩

/-- the written text is read in one way as a JSON text of its tree -/
def ReadOnce {p : Part} (l : SerTree p) : Prop := ∀ {t t' r r' : Bytes}, Written l t → Text l.json t' →
  t ++ r = t' ++ r' → NotNumeric r → NotNumeric r' → t = t' ∧ r = r' ∧ l.Plain

theorem ReadOnce.inner {p : Part} {l : SerTree p} (h : ReadOnce l) {w w' w₁ w₁' t t' r r' : Bytes} {eb : UInt8}
    (heb : ¬ IsWs eb ∧ ¬ IsNumeric eb) (hws : Ws w ∧ Ws w' ∧ Ws w₁ ∧ Ws w₁') (ht : Written l t) (ht' : Text l.json t')
    (heq : w ++ (t ++ (w₁ ++ eb :: r)) = w' ++ (t' ++ (w₁' ++ eb :: r'))) :
    w = w' ∧ t = t' ∧ w₁ = w₁' ∧ r = r' ∧ l.Plain := by
  obtain ⟨rfl, hrest₁⟩ := Ws.unique hws.1 hws.2.1 (head_written ht) (head_text ht') heq
  obtain ⟨rfl, hrest₂, hplain⟩ := h ht ht' hrest₁ (notNumeric_ws hws.2.2.1 (notNumeric_cons heb.2 _))
    (notNumeric_ws hws.2.2.2 (notNumeric_cons heb.2 _))
  obtain ⟨rfl, hrest₃⟩ := Ws.unique hws.2.2.1 hws.2.2.2 (head_cons heb.1 _) (head_cons heb.1 _) hrest₂
  exact ⟨rfl, rfl, rfl, (List.cons.inj hrest₃).2, hplain⟩

theorem Written.json_ne {t : Bytes} : (∀ {l : SerTree .items}, Written l t → l.json ≠ .nil) ∧
    ∀ {l : SerTree .members}, Written l t → l.json ≠ .none := by
  constructor
  · intro l h
    cases h <;> nofun
  · intro l h
    cases h <;> nofun

theorem readOnce {p : Part} (l : SerTree p) : ReadOnce l := by
  have hbracket : ¬ IsWs 0x5d ∧ ¬ IsNumeric 0x5d := ⟨not_ws.2.2.1, not_numeric.2.1⟩
  have hbrace : ¬ IsWs 0x7d ∧ ¬ IsNumeric 0x7d := ⟨not_ws.2.2.2, not_numeric.2.2⟩
  induction l with
  | str val multiline =>
    intro t t' r r' hw ht heq _ _
    cases hw
    cases ht with
    | str hchars =>
      simp only [cons_append, append_assoc, nil_append, List.cons.injEq, true_and] at heq ⊢
      have hclose := hchars.closing r'
      rw [← heq, closing_jsonChars] at hclose
      obtain ⟨rfl, rfl⟩ := Prod.mk.inj (Option.some.inj hclose)
      exact ⟨rfl, rfl, plain_of_chars hchars⟩
  | num val hint =>
    intro t t' r r' hw ht heq hr hr'
    cases hw
    obtain ⟨h, hrest⟩ := split_unique (text_uint val).1.num_inv ht.num_inv hr hr' heq
    exact ⟨h, hrest, trivial⟩
  | arr n items ih =>
    intro t t' r r' hw ht heq _ _
    cases hw with
    | arrNil hw =>
      rcases ht.arr_inv with ⟨-, w', hw', rfl⟩ | ⟨_, _, _, _, h, -⟩
      · simp only [cons_append, append_assoc, nil_append, List.cons.injEq, true_and] at heq
        obtain ⟨rfl, hrest₁⟩ := Ws.unique hw hw' (head_cons hbracket.1 _) (head_cons hbracket.1 _) heq
        exact ⟨rfl, (List.cons.inj hrest₁).2, trivial⟩
      · exact absurd h not_text_nil
    | arr hw h hw₁ =>
      rcases ht.arr_inv with ⟨hnil, -⟩ | ⟨w', u, w₁', hw', h', hw₁', rfl⟩
      · exact absurd hnil (Written.json_ne.1 h)
      · simp only [cons_append, append_assoc, nil_append, List.cons.injEq, true_and] at heq
        obtain ⟨rfl, rfl, rfl, rfl, hplain⟩ := ih.inner hbracket ⟨hw, hw', hw₁, hw₁'⟩ h h' heq
        exact ⟨rfl, rfl, hplain⟩
  | obj n members ih =>
    intro t t' r r' hw ht heq _ _
    cases hw with
    | objNone hw =>
      rcases ht.obj_inv with ⟨-, w', hw', rfl⟩ | ⟨_, _, _, _, h, -⟩
      · simp only [cons_append, append_assoc, nil_append, List.cons.injEq, true_and] at heq
        obtain ⟨rfl, hrest₁⟩ := Ws.unique hw hw' (head_cons hbrace.1 _) (head_cons hbrace.1 _) heq
        exact ⟨rfl, (List.cons.inj hrest₁).2, trivial⟩
      · exact absurd h not_text_none
    | obj hw h hw₁ =>
      rcases ht.obj_inv with ⟨hnone, -⟩ | ⟨w', u, w₁', hw', h', hw₁', rfl⟩
      · exact absurd hnone (Written.json_ne.2 h)
      · simp only [cons_append, append_assoc, nil_append, List.cons.injEq, true_and] at heq
        obtain ⟨rfl, rfl, rfl, rfl, hplain⟩ := ih.inner hbrace ⟨hw, hw', hw₁, hw₁'⟩ h h' heq
        exact ⟨rfl, rfl, hplain⟩
  | nil => intro t t' r r' hw; cases hw
  | none => intro t t' r r' hw; cases hw
  | cons v items ihv ih =>
    intro t t' r r' hw ht heq hr hr'
    cases hw with
    | item h =>
      rcases ht.cons_inv with ⟨-, h'⟩ | ⟨_, _, _, _, -, -, -, h', -⟩
      · obtain ⟨rfl, rfl, hplain⟩ := ihv h h' heq hr hr'
        exact ⟨rfl, rfl, hplain, trivial⟩
      · exact absurd h' not_text_nil
    | items h hw h₂ =>
      rcases ht.cons_inv with ⟨hnil, -⟩ | ⟨u, w₁', w', u', h', hw₁', hw', h₂', rfl⟩
      · exact absurd hnil (Written.json_ne.1 h₂)
      simp only [cons_append, append_assoc] at heq
      obtain ⟨rfl, hrest₁, hplain⟩ := ihv h h' heq (notNumeric_cons not_numeric.1 _)
        (notNumeric_ws hw₁' (notNumeric_cons not_numeric.1 _))
      obtain ⟨rfl, rfl, hrest₂⟩ := Ws.after not_ws.1 hw₁' hw hw' (head_written h₂) (head_text h₂') hrest₁
      obtain ⟨rfl, rfl, hplain'⟩ := ih h₂ h₂' hrest₂ hr hr'
      exact ⟨by simp, rfl, hplain, hplain'⟩
  | member key v members ihv ih =>
    intro t t' r r' hw ht heq hr hr'
    obtain ⟨k, w₁', w', u, rest, hk, hw₁', hw', h', rfl, hrest⟩ := ht.member_inv
    cases hw with
    | member hw h =>
      rcases hrest with ⟨-, rfl⟩ | ⟨_, _, _, -, -, h₂, -⟩
      · simp only [cons_append, append_assoc, nil_append, List.cons.injEq, true_and] at heq
        obtain ⟨rfl, hrest₁, hletters⟩ := hk.of_raw heq
        obtain ⟨rfl, rfl, hrest₂⟩ := Ws.after not_ws.2.1 hw₁' hw hw' (head_written h) (head_text h') hrest₁
        obtain ⟨rfl, rfl, hplain⟩ := ihv h h' hrest₂ hr hr'
        exact ⟨by simp, rfl, hletters, hplain, trivial⟩
      · exact absurd h₂ not_text_none
    | members hw h hw₂ h₂ =>
      rcases hrest with ⟨hnone, -⟩ | ⟨w₃', w₂', u', hw₃', hw₂', h₂', rfl⟩
      · exact absurd hnone (Written.json_ne.2 h₂)
      simp only [cons_append, append_assoc, List.cons.injEq, true_and] at heq
      obtain ⟨rfl, hrest₁, hletters⟩ := hk.of_raw heq
      obtain ⟨rfl, rfl, hrest₂⟩ := Ws.after not_ws.2.1 hw₁' hw hw' (head_written h) (head_text h') hrest₁
      obtain ⟨rfl, hrest₃, hplain⟩ := ihv h h' hrest₂ (notNumeric_cons not_numeric.1 _)
        (notNumeric_ws hw₃' (notNumeric_cons not_numeric.1 _))
      obtain ⟨rfl, rfl, hrest₄⟩ := Ws.after not_ws.1 hw₃' hw₂ hw₂' (head_written h₂) (head_text h₂') hrest₃
      obtain ⟨rfl, rfl, hplain'⟩ := ih h₂ h₂' hrest₄ hr hr'
      exact ⟨by simp, rfl, hletters, hplain, hplain'⟩

/-- below 17 braces there is no room for the white space before an item -/
theorem serJsonIndent_deep (dt : SerializeJson) (hnest : dt.nest = 17) (hkey : dt.keyPrinted = false)
    (hline : dt.needNewline = true) : serJsonIndent dt true = .error .outOfBounds := by
  have hpad : jsonPad.length = 34 := rfl
  obtain ⟨nest, keyPrinted, needSeparator, needNewline, ends, out⟩ := dt
  simp only at hnest hkey hline
  subst hnest hkey hline
  cases needSeparator <;> simp [serJsonIndent, write, writeArray, hpad, Bind.bind, Except.bind]

theorem serJson_deep {dt : SerializeJson} (hnest : dt.nest = 17) (hkey : dt.keyPrinted = false)
    (hline : dt.needNewline = true) (v : SerTree .value) : ∃ e, serJsonRun dt v.events = .error e := by
  have hindent := serJsonIndent_deep dt hnest hkey hline
  have hindent' := serJsonIndent_deep { dt with needNewline := true } hnest hkey rfl
  have hnest0 : dt.nest ≠ 0 := by omega
  refine ⟨.outOfBounds, ?_⟩
  cases v with
  | str val multiline => rw [events, serJsonRun_cons, serJson, serJsonString, hindent']; rfl
  | num val hint => rw [events, serJsonRun_cons, serJson, serJsonNumeric, hindent']; rfl
  | arr n items =>
    rw [events, cons_append, serJsonRun_cons, serJson, serJsonStartArray, serJsonStart, if_pos hnest0, hindent]; rfl
  | obj n members =>
    rw [events, cons_append, serJsonRun_cons, serJson, serJsonStartObject, serJsonStart, if_pos hnest0, hindent]; rfl

/-- the events of a tree that is too deep are not written -/
def TooDeep : {p : Part} → SerTree p → Prop
  | .value, v => ∀ dt, TopFresh dt → dt.nest ≤ 16 → 16 < dt.nest + v.depth → ∃ e, serJsonRun dt v.events = .error e
  | .items, l => ∀ dt, dt.keyPrinted = false → dt.nest ≠ 0 → dt.nest ≤ 17 → (dt.nest = 17 → dt.needNewline = true) →
    17 < dt.nest + l.depth → ∃ e, serJsonRun dt l.events = .error e
  | .members, l => ∀ dt, dt.keyPrinted = false → dt.nest ≠ 0 → dt.nest ≤ 17 → 17 < dt.nest + l.depth →
    ∃ e, serJsonRun dt l.events = .error e

theorem serJsonStart_open {dt : SerializeJson} (h : dt.nest ≤ 16) (htop : TopFresh dt) (sb eb : UInt8) :
    ∃ dt₁, serJsonStart dt sb eb = .ok dt₁ ∧ dt₁.nest = dt.nest + 1 ∧ dt₁.keyPrinted = false ∧
      dt₁.needNewline = true := by
  obtain ⟨w, -, hstart⟩ := serJsonStart_eq h htop
  exact ⟨_, hstart, rfl, rfl, rfl⟩

theorem tooDeep {p : Part} (l : SerTree p) : TooDeep l := by
  induction l with
  | str | num =>
    intro dt _ hnest hdepth
    rw [depth] at hdepth
    omega
  | arr n items ih =>
    intro dt htop hnest hdepth
    rw [depth] at hdepth
    obtain ⟨dt₁, hstart, hnest₁, hkey, hline⟩ := serJsonStart_open hnest htop (asc '[') (asc ']')
    obtain ⟨e, he⟩ := ih dt₁ hkey (by omega) (by omega) (fun _ => hline) (by omega)
    refine ⟨e, ?_⟩
    rw [events, cons_append, serJsonRun_cons, serJson, serJsonStartArray, hstart]
    simp only [Except.bind, serJsonRun_append, he]
  | obj n members ih =>
    intro dt htop hnest hdepth
    rw [depth] at hdepth
    obtain ⟨dt₁, hstart, hnest₁, hkey, -⟩ := serJsonStart_open hnest htop (asc '\x7b') (asc '\x7d')
    obtain ⟨e, he⟩ := ih dt₁ hkey (by omega) (by omega) (by omega)
    refine ⟨e, ?_⟩
    rw [events, cons_append, serJsonRun_cons, serJson, serJsonStartObject, hstart]
    simp only [Except.bind, serJsonRun_append, he]
  | nil =>
    intro dt _ _ hnest _ hdepth
    rw [depth] at hdepth
    omega
  | none =>
    intro dt _ _ hnest hdepth
    rw [depth] at hdepth
    omega
  | cons v items ihv ih =>
    intro dt hkey hnest hle hline hdepth
    rw [depth] at hdepth
    by_cases h17 : dt.nest = 17
    · obtain ⟨e, he⟩ := serJson_deep h17 hkey (hline h17) v
      exact ⟨e, by rw [events, serJsonRun_append, he]; rfl⟩
    by_cases hv : 16 < dt.nest + v.depth
    · obtain ⟨e, he⟩ := ihv dt (topFresh_of_ne hnest) (by omega) hv
      exact ⟨e, by rw [events, serJsonRun_append, he]; rfl⟩
    · obtain ⟨dt₁, hrun, hwrote⟩ := serialized v dt (topFresh_of_ne hnest) (by omega)
      have hnest₁ := hwrote.nest
      obtain ⟨e, he⟩ := ih dt₁ hwrote.keyPrinted (by omega) (by omega) (fun h => by omega) (by omega)
      exact ⟨e, by rw [events, serJsonRun_append, hrun]; exact he⟩
  | member key v members ihv ih =>
    intro dt hkey hnest hle hdepth
    rw [depth] at hdepth
    rw [events, cons_append, serJsonRun_cons, serJson]
    by_cases h17 : dt.nest = 17
    · have hindent := serJsonIndent_deep { dt with needNewline := true } h17 hkey rfl
      exact ⟨.outOfBounds, by rw [serJsonKey, hindent]; rfl⟩
    obtain ⟨w, dt₀, -, hrun₀, hnest₀, -, -, -⟩ := serJsonKey_eq dt (by omega) key
    rw [hrun₀]
    simp only [Except.bind, serJsonRun_append]
    by_cases hv : 16 < dt.nest + v.depth
    · obtain ⟨e, he⟩ := ihv dt₀ (topFresh_of_ne (by omega)) (by omega) (by omega)
      exact ⟨e, by rw [he]⟩
    · obtain ⟨dt₁, hrun, hwrote⟩ := serialized v dt₀ (topFresh_of_ne (by omega)) (by omega)
      have hnest₁ := hwrote.nest
      obtain ⟨e, he⟩ := ih dt₁ hwrote.keyPrinted (by omega) (by omega) (by omega)
      exact ⟨e, by rw [hrun]; exact he⟩

theorem apkSerializerJson_written (v : SerTree .value) (hdepth : v.depth ≤ 16) :
    ∃ w t w', apkSerializerJson v.events = .ok (w ++ t ++ w') ∧ Ws w ∧ Written v t ∧ Ws w' := by
  obtain ⟨dt, hrun, hwrote⟩ := serialized v serJsonInit (fun _ => ⟨rfl, rfl⟩) (by simpa [serJsonInit] using hdepth)
  obtain ⟨w, t, w', hout, hw, ht, hw', -⟩ := hwrote.out
  refine ⟨w, t, w', ?_, hw, ht, hw'⟩
  rw [apkSerializerJson, hrun]
  simp [Except.map, hout, jsonSep, serJsonInit]

/-- what is written for a well-nested sequence of events is one JSON text of their tree just if no string
has a control byte but newlines and tabs, no key needs an escape, and no item is in more than 16 objects
and arrays -/
theorem json_text (v : SerTree .value) (htext : v.IsText) :
    (∃ out, apkSerializerJson v.events = .ok out ∧ JsonText v.json out) ↔ v.Plain ∧ v.depth ≤ 16 := by
  constructor
  · rintro ⟨out, hout, -, w', t', w₁', rfl, hw', ht', hw₁'⟩
    have hdepth : v.depth ≤ 16 := by
      by_contra hdeep
      obtain ⟨e, he⟩ := tooDeep v serJsonInit (fun _ => ⟨rfl, rfl⟩) (Nat.zero_le _) (by simp only [serJsonInit]; omega)
      rw [apkSerializerJson, he] at hout
      cases hout
    obtain ⟨w, t, w₁, hwritten, hw, ht, hw₁⟩ := apkSerializerJson_written v hdepth
    rw [hwritten, Except.ok.injEq, append_assoc, append_assoc] at hout
    obtain ⟨-, heq⟩ := Ws.unique hw hw' (head_written ht) (head_text ht') hout
    have hfollows : ∀ {w : Bytes}, Ws w → NotNumeric w := fun {w} hw => by
      have := notNumeric_ws hw (r := []) nofun
      rwa [append_nil] at this
    exact ⟨(readOnce v ht ht' heq (hfollows hw₁) (hfollows hw₁')).2.2, hdepth⟩
  · rintro ⟨hplain, hdepth⟩
    obtain ⟨w, t, w', hwritten, hw, ht, hw'⟩ := apkSerializerJson_written v hdepth
    obtain ⟨htree, hutf⟩ := ht.text htext hplain
    exact ⟨_, hwritten, ((utf8_ws hw).append hutf).append (utf8_ws hw'), w, t, w', rfl, hw, htree, hw'⟩

/-- an array of an object with a member, a text that needs escapes, and a number -/
def sampleTree : SerTree .value :=
  .arr 3 (.cons (.obj 0 (.member [asc 'k'] (.str [asc '"', asc '\n', 0xc3, 0xa9] true) .none))
    (.cons (.num 70 0) (.cons (.arr 0 .nil) .nil)))

theorem json_text_sample : ∃ out, apkSerializerJson sampleTree.events = .ok out ∧
    JsonText sampleTree.json out := by
  have hval : Utf8 [asc '"', asc '\n', 0xc3, 0xa9] := by
    refine .one (by decide) (.one (by decide) (.two (by decide) ?_ .nil))
    unfold Rfc8259.IsTail
    decide
  have hkey : Utf8 [asc 'k'] := .one (by decide) .nil
  exact (json_text sampleTree ⟨⟨⟨hkey, by decide⟩, ⟨hval, by decide⟩, trivial⟩, trivial, trivial, trivial⟩).2
    ⟨⟨⟨by decide, by unfold SerTree.Plain; decide, trivial⟩, trivial, trivial, trivial⟩, by decide⟩

def nested : ℕ → SerTree .value
  | 0 => .num 0 0
  | n + 1 => .arr 1 (.cons (nested n) .nil)

/-- a control byte of a string or a key is written as it is, so that there is no JSON text, and in 17
arrays an item is indented with more bytes than the padding has, which no assertion stops -/
theorem json_not_text : ((SerTree.str [0x01] false).IsText ∧
      ∃ out, apkSerializerJson (SerTree.str [0x01] false).events = .ok out ∧ ¬ ∃ v, JsonText v out) ∧
    ((SerTree.obj 0 (.member [0x01] (.num 0 0) .none)).IsText ∧
      ∃ out, apkSerializerJson (SerTree.obj 0 (.member [0x01] (.num 0 0) .none)).events = .ok out ∧
        ¬ ∃ v, JsonText v out) ∧
    (nested 17).IsText ∧ apkSerializerJson (nested 17).events = .error .outOfBounds := by
  have hbyte : Utf8 [0x01] ∧ 0 ∉ ([0x01] : Bytes) := ⟨.one (by decide) .nil, by decide⟩
  have hbad : ∀ out, 0x01 ∈ out → ¬ ∃ v, JsonText v out := by
    rintro out hmem ⟨v, h⟩
    have := h.allowed 0x01 hmem
    revert this
    unfold Rfc8259.Allowed
    decide
  refine ⟨⟨hbyte, _, rfl, hbad _ (by decide)⟩, ⟨⟨hbyte, trivial, trivial⟩, _, rfl, hbad _ (by decide)⟩, ?_,
    rfl⟩
  simp [nested, SerTree.IsText]

end Alpine
