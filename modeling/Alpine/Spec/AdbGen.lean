import Alpine.Spec.AdbSchema
import Alpine.Spec.Serialize

/-! `adbgen` (`app_adbgen.c`): the serializer that writes a database, which goes to a stream that takes all
that is written. An event without a result is one that does not return: an assertion that fails, or an access
through a null pointer or outside of an array. -/

namespace Alpine

/-- an element of `objs` with that of `curkey` -/
structure AdbFrame where
  schema : ObjSchema
  vals : List AdbValue
  curkey : ℕ

/-- the elements in use are listed from the innermost, the one at `nest`; `out` is the root of the database
that has been written -/
structure SerializeAdb where
  schema : ℕ
  frames : List AdbFrame
  nestdb : ℕ
  numVals : ℕ
  out : Option AdbValue

def serAdbInit : SerializeAdb := ⟨0, [], 0, 0, none⟩

variable (st : YamlState) (q : AdbSort) (dt : SerializeAdb) (l : Bytes)

/-- the end of `ser_adb_start_object`, with a new object -/
def serAdbPush (o : ObjSchema) : ℤ × SerializeAdb :=
  let dt := { dt with frames := ⟨o, o.noVals, 0⟩ :: dt.frames, numVals := dt.numVals + o.numFields }
  (if 100000 ≤ dt.numVals then -apkeAdbLimit else 0, dt)

def serAdbStartObject (schemaId : ℕ) : Option (ℤ × SerializeAdb) :=
  if dt.schema = 0 then
    match adbAllSchemas schemaId with
    | none => some (-apkeAdbSchema, { dt with schema := schemaId })
    | some o => some (serAdbPush { dt with schema := schemaId } o)
  else
    match dt.frames with
    | [] => none
    | f :: fs =>
      if apkSerializeMaxNesting ≤ fs.length then some (-apkeAdbLimit, dt)
      else if f.curkey = 0 ∧ !f.schema.isArray then some (-apkeAdbSchema, dt)
      -- the new element would be behind the last one
      else if apkSerializeMaxNesting ≤ fs.length + 1 then none
      else
        match f.schema.roKind f.curkey with
        | none => none
        | some (.scalar _) => none
        | some (.obj o) => some (serAdbPush dt o)
        | some .packageAdb =>
          if 2 ≤ dt.nestdb then
            some (-apkeAdbLimit, { dt with frames := ⟨.package, ObjSchema.package.noVals, 0⟩ :: f :: fs })
          else some (serAdbPush { dt with nestdb := dt.nestdb + 1 } .package)

/-- a value that has been closed goes into the object around it -/
def serAdbAttach (g : AdbFrame) (val : AdbValue) : AdbFrame :=
  if g.curkey = 0 then { g with vals := waAppend g.vals val }
  else { g with vals := woVal g.vals g.curkey val, curkey := 0 }

def serAdbEnd : Option (ℤ × SerializeAdb) :=
  match dt.frames with
  | [] => none
  | [f] => some (0, { dt with
      frames := [], numVals := dt.numVals - f.schema.numFields, out := some (adbWObject q f.schema f.vals) })
  | f :: g :: gs =>
    let val := adbWObject q f.schema f.vals
    let dt := { dt with numVals := dt.numVals - f.schema.numFields }
    match g.schema.roKind g.curkey with
    | none => none
    | some .packageAdb =>
      some (0, { dt with frames := serAdbAttach g (.ofAdb val) :: gs, nestdb := dt.nestdb - 1 })
    | some _ => some (0, { dt with frames := serAdbAttach g val :: gs })

def serAdbKey (key : Bytes) : Option (ℤ × SerializeAdb) :=
  match dt.frames with
  | [] => none
  | f :: fs =>
    if f.schema.isArray then some (-apkeAdbSchema, dt)
    else
      let dt := { dt with frames := { f with curkey := f.schema.fieldByName key } :: fs }
      some (if f.schema.fieldByName key = 0 then -apkeAdbSchema else 0, dt)

/-- the object of `ser_adb_string` after it -/
def serAdbStore (f : AdbFrame) (scalar : Bytes) : Option AdbFrame :=
  match f.schema.item with
  | some kind =>
    let v := adbWFromstring q kind scalar
    -- `adb_w_error` is an assertion
    if v.isError then none else some { f with vals := waAppend f.vals v, curkey := 0 }
  | none =>
    if f.curkey = 0 then
      -- `adb_wo_fromstring`, the result of which is not looked at
      match objFromstring q f.schema scalar with
      | none => none
      | some (.error _) => some { f with vals := f.schema.noVals }
      | some (.ok vals) => some { f with vals := vals }
    else
      (f.schema.roKind f.curkey).map fun kind =>
        { f with vals := f.vals.set (f.curkey - 1) (adbWFromstring q kind scalar), curkey := 0 }

def serAdbString (scalar : Bytes) : Option (ℤ × SerializeAdb) :=
  match dt.frames with
  | [] => none
  | f :: fs => (serAdbStore q f scalar).map fun f => (0, { dt with frames := f :: fs })

/-- `apk_serializer_adb`, which has no numbers -/
def serAdb : SerEvent → Option (ℤ × SerializeAdb)
  | .startObject schemaId => serAdbStartObject dt schemaId
  | .startArray _ => serAdbStartObject dt 0
  | .end => serAdbEnd q dt
  | .comment _ => some (0, dt)
  | .key key => serAdbKey dt key
  | .string val _ => serAdbString q dt val
  | .numeric _ _ => none

/-- hand events to a serializer up to the first that fails -/
def runCalls {σ : Type} (ser : σ → SerEvent → Option (ℤ × σ)) : σ → List SerEvent → Option (ℤ × σ)
  | s, [] => some (0, s)
  | s, e :: es =>
    (ser s e).bind fun p => if p.1 ≠ 0 then some p else runCalls ser p.2 es

end Alpine
