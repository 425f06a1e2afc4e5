import Alpine.Spec.Fdb

/-! The events of a serializer and the JSON serializer, `serialize_json.c`. -/

namespace Alpine

def apkSerializeMaxNesting : ℕ := 32

inductive SerEvent
  | startObject (schemaId : ℕ)
  | startArray (num : ℤ)
  | «end»
  | comment (comment : Bytes)
  | key (key : Bytes)
  | string (val : Bytes) (multiline : Bool)
  | numeric (val : UInt64) (hint : ℕ)

/-- how an event ends that does not return -/
inductive SerFault
  | assertion
  | outOfBounds
  deriving DecidableEq

structure SerializeJson where
  nest : ℕ
  keyPrinted : Bool
  needSeparator : Bool
  needNewline : Bool
  ends : ℕ → UInt8
  out : Bytes

variable (dt : SerializeJson)

def SerializeJson.write (b : Bytes) : SerializeJson := { dt with out := dt.out ++ b }

/-- the array `pad` with its terminator -/
def jsonPad : Bytes := asc '\n' :: List.replicate 32 (asc ' ') ++ [0]

/-- `apk_ostream_write` of the first bytes of an array -/
def SerializeJson.writeArray (array : Bytes) (n : ℕ) : Except SerFault SerializeJson :=
  if array.length < n then .error .outOfBounds else .ok (dt.write (array.take n))

def serJsonIndent (item : Bool) : Except SerFault SerializeJson := do
  let dt ←
    if dt.keyPrinted then pure (dt.write [asc ' '])
    else
      let dt := if item ∧ dt.needSeparator then dt.write [asc ','] else dt
      if dt.needNewline then
        if jsonPad.length < 2 * dt.nest then throw .assertion else dt.writeArray jsonPad (1 + 2 * dt.nest)
      else pure (dt.write [asc ' '])
  pure { dt with keyPrinted := false }

def serJsonStartIndent (startBrace endBrace : UInt8) : Except SerFault SerializeJson :=
  if ¬ dt.nest < apkSerializeMaxNesting then .error .assertion
  else
    let dt := dt.write [startBrace]
    if apkSerializeMaxNesting ≤ dt.nest + 1 then .error .outOfBounds
    else .ok { dt with
      nest := dt.nest + 1, ends := Function.update dt.ends (dt.nest + 1) endBrace,
      needSeparator := false, needNewline := true }

/-- `ser_json_start_object` and `ser_json_start_array`, which differ in the braces -/
def serJsonStart (startBrace endBrace : UInt8) : Except SerFault SerializeJson := do
  let dt ← if dt.nest ≠ 0 then serJsonIndent dt true else pure dt
  serJsonStartIndent dt startBrace endBrace

def serJsonStartObject : Except SerFault SerializeJson :=
  serJsonStart dt (asc '\x7b') (asc '\x7d')

def serJsonStartArray : Except SerFault SerializeJson :=
  serJsonStart dt (asc '[') (asc ']')

def serJsonEnd : Except SerFault SerializeJson :=
  match dt.nest with
  | 0 => .error .outOfBounds
  | nest + 1 => do
    let dt ← serJsonIndent { dt with needNewline := true, nest := nest } false
    let dt := dt.write [dt.ends (dt.nest + 1)]
    let dt := { dt with
      ends := Function.update dt.ends (dt.nest + 1) 0, needSeparator := true, needNewline := false }
    pure (if dt.nest = 0 then dt.write [asc '\n'] else dt)

def serJsonKey (key : Bytes) : Except SerFault SerializeJson := do
  let dt ← serJsonIndent { dt with needNewline := true } true
  let dt := ((dt.write [asc '"']).write key).write [asc '"', asc ':']
  pure { dt with keyPrinted := true, needSeparator := true }

/-- the letter after the backslash -/
def jsonEsc (ch : UInt8) : Option UInt8 :=
  if ch = asc '"' then some (asc '"')
  else if ch = asc '\n' then some (asc 'n')
  else if ch = asc '\t' then some (asc 't')
  else if ch = asc '\\' then some (asc '\\')
  else none

/-- the loop of `ser_json_string`; `pending` is what has been seen and not been written -/
def serJsonStringLoop : Bytes → Bytes → Bytes
  | pending, [] => pending
  | pending, ch :: val =>
    match jsonEsc ch with
    | none => serJsonStringLoop (pending ++ [ch]) val
    | some esc => pending ++ [asc '\\', esc] ++ serJsonStringLoop [] val

def serJsonString (val : Bytes) : Except SerFault SerializeJson := do
  let dt ← serJsonIndent { dt with needNewline := true } true
  let dt := ((dt.write [asc '"']).write (serJsonStringLoop [] val)).write [asc '"']
  pure { dt with needSeparator := true }

def serJsonNumeric (val : UInt64) : Except SerFault SerializeJson := do
  let dt ← serJsonIndent { dt with needNewline := true } true
  pure { dt.write (uintText val.toNat 10) with needSeparator := true }

def serJson : SerEvent → Except SerFault SerializeJson
  | .startObject _ => serJsonStartObject dt
  | .startArray _ => serJsonStartArray dt
  | .end => serJsonEnd dt
  | .comment _ => .ok dt
  | .key key => serJsonKey dt key
  | .string val _ => serJsonString dt val
  | .numeric val _ => serJsonNumeric dt val

def serJsonRun (events : List SerEvent) : Except SerFault SerializeJson :=
  events.foldlM serJson dt

/-- a serializer after `calloc` -/
def serJsonInit : SerializeJson := ⟨0, false, false, false, fun _ => 0, []⟩

/-- all that is written for some events -/
def apkSerializerJson (events : List SerEvent) : Except SerFault Bytes :=
  (serJsonRun serJsonInit events).map SerializeJson.out

end Alpine
