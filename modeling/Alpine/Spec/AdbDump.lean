import Alpine.Spec.AdbSchema
import Alpine.Spec.Serialize

/-! The YAML serializer (`serialize_yaml.c`). Numbers are written without units, as they are where the output
is no terminal. -/

namespace Alpine

structure SerializeYaml where
  nest : ℕ
  indent : ℕ
  lineStarted : Bool
  keyPrinted : Bool
  /-- the bit `F_ARRAY` -/
  flags : ℕ → Bool
  out : Bytes

variable (dt : SerializeYaml)

def SerializeYaml.write (b : Bytes) : SerializeYaml := { dt with out := dt.out ++ b }

/-- the array `pad` with its terminator -/
def yamlPad : Bytes := List.replicate 32 (asc ' ') ++ [0]

def serYamlIndent (item continueLine : Bool) : Except SerFault SerializeYaml :=
  if !dt.lineStarted then
    if yamlPad.length < 2 * dt.indent then .error .assertion
    else
      let dt := dt.write (yamlPad.take (2 * dt.indent))
      let dt := if item && dt.flags dt.nest then dt.write [asc '-', asc ' '] else dt
      .ok { dt with lineStarted := true }
  else if dt.keyPrinted && continueLine then .ok (dt.write [asc ' '])
  else .ok dt

def serYamlStartIndent (flags : Bool) : Except SerFault SerializeYaml :=
  if ¬ dt.nest < apkSerializeMaxNesting then .error .assertion
  else if apkSerializeMaxNesting ≤ dt.nest + 1 then .error .outOfBounds
  else .ok { dt with
    indent := if 0 < dt.nest then dt.indent + 1 else dt.indent
    nest := dt.nest + 1, flags := Function.update dt.flags (dt.nest + 1) flags }

def serYamlNewline : SerializeYaml :=
  { dt with out := dt.out ++ [asc '\n'], lineStarted := false, keyPrinted := false }

/-- write a text up to the end of the line -/
def serYamlRest (item : Bool) (text : Bytes) : Except SerFault SerializeYaml :=
  (serYamlIndent dt item true).map fun dt => serYamlNewline (dt.write text)

def hexDigitUpper (n : ℕ) : UInt8 := UInt8.ofNat (if n < 10 then 0x30 + n else 0x41 + (n - 10))

/-- `%08X` -/
def hexText8 (n : ℕ) : Bytes := (List.range 8).map fun i => hexDigitUpper (n / 16 ^ (7 - i) % 16)

def serYamlStartObject (schemaId : ℕ) : Except SerFault SerializeYaml := do
  let dt ← serYamlIndent dt true false
  let dt ← serYamlStartIndent dt false
  pure (if schemaId ≠ 0 then serYamlNewline (dt.write (lit "#%SCHEMA: " ++ hexText8 schemaId)) else dt)

def serYamlStartArray (num : ℤ) : Except SerFault SerializeYaml :=
  (if 0 ≤ num then serYamlRest dt true (lit "# " ++ uintText num.toNat 10 ++ lit " items")
    else pure (serYamlNewline dt)) >>= fun dt => serYamlStartIndent dt true

def serYamlEnd : Except SerFault SerializeYaml :=
  (if dt.lineStarted then serYamlRest dt false (lit "# empty object") else pure dt) >>= fun dt =>
    match dt.nest with
    | 0 => .error .outOfBounds
    | nest + 1 => pure { dt with nest := nest, indent := if nest ≠ 0 then dt.indent - 1 else dt.indent }

def serYamlComment (comment : Bytes) : Except SerFault SerializeYaml :=
  serYamlRest dt false (lit "# " ++ comment)

def serYamlKey (key : Bytes) : Except SerFault SerializeYaml :=
  (serYamlIndent (if dt.keyPrinted then serYamlNewline dt else dt) true true).map fun dt =>
    { dt.write (key ++ [asc ':']) with keyPrinted := true }

inductive Quote
  | none
  | single
  | block
  deriving DecidableEq

/-- the characters of the `strchr`, with its terminator -/
def yamlIndicators : Bytes :=
  ascs ['-', '?', ':', ',', '[', ']', '\x7b', '\x7d', '#', '&', '*', '!', '|', '>', '\'', '"', '%', '@', '\x60',
    '\x00']

/-- the loop of `need_quoting` -/
def needQuotingLoop : Quote → UInt8 → Bytes → Quote
  | style, _, [] => style
  | style, prev, c :: b =>
    if c = asc '\r' ∨ c = asc '\n' ∨ c = asc '\'' then .block
    else if c = asc ' ' then needQuotingLoop (if prev = asc ':' then .single else style) c b
    else if c = asc '#' then (if prev = asc ' ' then .block else needQuotingLoop .single c b)
    else needQuotingLoop style c b

def needQuoting (b : Bytes) (multiline : Bool) : Quote :=
  if b = [] then .none
  else if 80 ≤ b.length ∨ multiline then .block
  else needQuotingLoop (if b.head?.any (· ∈ yamlIndicators) then .single else .none) 0 b

/-- the lines of a block -/
def serYamlLines (dt : SerializeYaml) : List Bytes → Except SerFault SerializeYaml
  | [] => .ok dt
  | line :: lines => do
    let dt ← serYamlRest dt false line
    serYamlLines dt lines

def serYamlString (scalar : Bytes) (multiline : Bool) : Except SerFault SerializeYaml :=
  match needQuoting scalar multiline with
  | .none => serYamlRest dt true scalar
  | .single => serYamlRest dt true (asc '\'' :: scalar ++ [asc '\''])
  | .block => do
    let dt ← serYamlRest dt true [asc '|']
    let dt ← serYamlLines { dt with indent := dt.indent + 1 } (foreachToken scalar (asc '\n'))
    pure { dt with indent := dt.indent - 1 }

def apkSerFormatNumeric (val : UInt64) (hint : ℕ) : Bytes :=
  if hint = AdbScalar.oct.hint then
    (if val = 0 then [] else [asc '0']) ++ uintText val.toNat 8
  else uintText val.toNat 10

def serYaml : SerEvent → Except SerFault SerializeYaml
  | .startObject schemaId => serYamlStartObject dt schemaId
  | .startArray num => serYamlStartArray dt num
  | .end => serYamlEnd dt
  | .comment comment => serYamlComment dt comment
  | .key key => serYamlKey dt key
  | .string val multiline => serYamlString dt val multiline
  | .numeric val hint => serYamlRest dt true (apkSerFormatNumeric val hint)

def serYamlRun (events : List SerEvent) : Except SerFault SerializeYaml :=
  events.foldlM serYaml dt

def serYamlInit : SerializeYaml := ⟨0, 0, false, false, fun _ => false, []⟩

end Alpine
