import Alpine.Spec.PkgName

/-! The variables of a repositories file (`repoparser.c`). The hash function of their table is a
parameter, and `malloc` does not fail. -/

namespace Alpine

def apkeRepoSyntax : ℤ := 1087

def apkeRepoVariable : ℤ := 1089

def apkVarfOverwrite : ℕ := 1

def apkVarfReadonly : ℕ := 2

/-- the class `APK_CTYPE_REPOSITORY_SEPARATOR` -/
def repositorySeparator (c : UInt8) : Bool := c = asc '\t' ∨ c = asc ' '

def isAlpha (c : UInt8) : Bool := (asc 'A' ≤ c ∧ c ≤ asc 'Z') ∨ (asc 'a' ≤ c ∧ c ≤ asc 'z')

/-- the class `APK_CTYPE_VARIABLE_NAME` -/
def variableName (c : UInt8) : Bool := isAlpha c ∨ (asc '0' ≤ c ∧ c ≤ asc '9') ∨ c = asc '_'

/-- `struct apk_variable`; the key is of `keylen` bytes -/
structure ApkVariable where
  key : Bytes
  value : Bytes
  flags : ℕ
  deriving DecidableEq

/-- `struct apk_hash` with the lists of its ten buckets -/
abbrev Variables := ℕ → List ApkVariable

/-- the first variable of a bucket that has the key gets another value -/
def overwriteFirst (key value : Bytes) (flags : ℕ) : List ApkVariable → List ApkVariable
  | [] => []
  | var :: vars =>
    if apkBlobCompare key var.key = 0 then ⟨var.key, value, flags⟩ :: vars
    else var :: overwriteFirst key value flags vars

section

variable (hash : Bytes → ℕ) (vars : Variables)

/-- `apk_hash_get` -/
def variableGet (key : Bytes) : Option ApkVariable :=
  (vars (hash key % 10)).find? fun var => apkBlobCompare key var.key = 0

def apkVariableSet (key value : Bytes) (flags : ℕ) : Variables :=
  let bucket := vars (hash key % 10)
  match variableGet hash vars key with
  | none =>
    -- `keylen` is an `uint8_t`
    Function.update vars (hash key % 10) (⟨key.take (key.length % 2 ^ 8), value, flags⟩ :: bucket)
  | some var =>
    if flags &&& apkVarfOverwrite = 0 then vars
    else if var.flags &&& apkVarfReadonly ≠ 0 then vars
    else Function.update vars (hash key % 10) (overwriteFirst key value flags bucket)

def apkVariableSubst (key : Bytes) : Except ℤ Bytes :=
  match variableGet hash vars key with
  | none => .error (-apkeRepoVariable)
  | some var => .ok var.value

def getWord (line : Bytes) : Bytes × Bytes :=
  (line.takeWhile (!repositorySeparator ·),
    (line.dropWhile (!repositorySeparator ·)).dropWhile repositorySeparator)

/-- the options of a `set` line: what follows them, and whether a value is overwritten. Each round takes
a word away. -/
def setOptions : ℕ → Bytes → Bool → Except ℤ (Bytes × Bool)
  | 0, line, overwrite => .ok (line, overwrite)
  | fuel + 1, line, overwrite =>
    if line.head? = some (asc '-') then
      if apkBlobCompare (getWord line).1 (lit "-default") = 0 then setOptions fuel (getWord line).2 false
      else .error (-apkeRepoSyntax)
    else .ok (line, overwrite)

/-- what a `set` line defines -/
structure Definition where
  name : Bytes
  value : Bytes
  overwrite : Bool
  deriving DecidableEq

def parseDefinition (line : Bytes) : Except ℤ Definition := do
  let (line, overwrite) ← setOptions line.length line true
  match apkBlobSplit line (asc '=') with
  | none => .error (-apkeRepoVariable)
  | some (key, value) =>
    if (lit "APK_").isPrefixOf key ∨ !key.head?.any isAlpha ∨ !key.all variableName then
      .error (-apkeRepoVariable)
    else
      let value ← apkBlobSubst pathMax value (apkVariableSubst hash vars)
      .ok ⟨key, value, overwrite⟩

/-- `apk_repoparser_parse_set` -/
def apkRepoparserParseSet (line : Bytes) : ℤ × Variables :=
  match parseDefinition hash vars line with
  | .error r => (r, vars)
  | .ok d => (0, apkVariableSet hash vars d.name d.value (if d.overwrite then apkVarfOverwrite else 0))

end

end Alpine
