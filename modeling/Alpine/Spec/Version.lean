import Alpine.Spec.Blob

/-! Package versions (`version.c`): the tokenizer, the comparison of two versions
token by token, and matching a version against a dependency operator. -/

namespace Alpine

/-- `enum PARTS`, in the order of the source -/
inductive Token
  | initialDigit | digit | letter | suffix | suffixNo | commitHash | revisionNo | tokenEnd | invalid
  deriving DecidableEq, Repr

def Token.toNat : Token → ℕ
  | initialDigit => 0
  | digit => 1
  | letter => 2
  | suffix => 3
  | suffixNo => 4
  | commitHash => 5
  | revisionNo => 6
  | tokenEnd => 7
  | invalid => 8

/-- `DECLARE_SUFFIXES`, in the order of the source: before `none` stand the pre-releases -/
inductive Suffix
  | invalid | alpha | beta | pre | rc | none | cvs | svn | git | hg | p
  deriving DecidableEq, Repr

def Suffix.toNat : Suffix → ℕ
  | invalid => 0
  | alpha => 1
  | beta => 2
  | pre => 3
  | rc => 4
  | none => 5
  | cvs => 6
  | svn => 7
  | git => 8
  | hg => 9
  | p => 10

def Suffix.text : Suffix → Bytes
  | invalid => []
  | alpha => ascs ['a', 'l', 'p', 'h', 'a']
  | beta => ascs ['b', 'e', 't', 'a']
  | pre => ascs ['p', 'r', 'e']
  | rc => ascs ['r', 'c']
  | none => []
  | cvs => ascs ['c', 'v', 's']
  | svn => ascs ['s', 'v', 'n']
  | git => ascs ['g', 'i', 't']
  | hg => ascs ['h', 'g']
  | p => ascs ['p']

structure TokenState where
  token : Token
  suffix : Suffix
  number : ℕ
  value : Bytes
  deriving DecidableEq, Repr

def suffixValue (suf : Bytes) : Suffix :=
  match suf with
  | [] => .invalid
  | c :: rest =>
    -- the first letter picks the only candidate; `p` alone is told from `pre` by the length
    let val :=
      if c = asc 'a' then Suffix.alpha
      else if c = asc 'b' then .beta
      else if c = asc 'c' then .cvs
      else if c = asc 'g' then .git
      else if c = asc 'h' then .hg
      else if c = asc 'p' then (if rest = [] then .p else .pre)
      else if c = asc 'r' then .rc
      else if c = asc 's' then .svn
      else .invalid
    if val = .invalid then .invalid
    else if apkBlobCompare suf val.text ≠ 0 then .invalid
    else val

def apkVersionEqual : ℕ := 1
def apkVersionLess : ℕ := 2
def apkVersionGreater : ℕ := 4
def apkVersionFuzzy : ℕ := 8
def apkVersionConflict : ℕ := 16
def apkDepmaskAny : ℕ := apkVersionEqual ||| apkVersionLess ||| apkVersionGreater
def apkDepmaskChecksum : ℕ := apkVersionLess ||| apkVersionGreater

def cmpNumber (a b : ℕ) : ℕ :=
  if a < b then apkVersionLess
  else if b < a then apkVersionGreater
  else apkVersionEqual

def cmpString (a b : Bytes) : ℕ :=
  let r := apkBlobSort a b
  if r < 0 then apkVersionLess
  else if 0 < r then apkVersionGreater
  else apkVersionEqual

def tokenCmp (ta tb : TokenState) : ℕ :=
  match ta.token with
  | .digit =>
    -- a leading zero on either side switches to the raw string comparison
    if ta.value.head? = some (asc '0') ∨ tb.value.head? = some (asc '0') then
      cmpString ta.value tb.value
    else cmpNumber ta.number tb.number
  | .initialDigit | .suffixNo | .revisionNo => cmpNumber ta.number tb.number
  | .letter => cmpNumber (ta.value.headD 0).toNat (tb.value.headD 0).toNat
  | .suffix => cmpNumber ta.suffix.toNat tb.suffix.toNat
  | _ => cmpString ta.value tb.value

def tokenParseDigits (t : TokenState) (b : Bytes) : TokenState × Bytes :=
  let (number, rest) := apkBlobPullUint b 10
  let value := b.take (b.length - rest.length)
  ({ t with number := number, value := value,
            token := if value.length = 0 then .invalid else t.token }, rest)

/-- `token_first`; the `suffix` field is not yet written and never read before it is -/
def tokenFirst (b : Bytes) : TokenState × Bytes :=
  tokenParseDigits { token := .initialDigit, suffix := .invalid, number := 0, value := [] } b

/-- the number after `.` or directly at a digit, shared by the two cases of the `switch` -/
def tokenNumber (t : TokenState) (b : Bytes) : TokenState × Bytes :=
  match t.token with
  | .initialDigit | .digit => tokenParseDigits { t with token := .digit } b
  | .suffix => tokenParseDigits { t with token := .suffixNo } b
  | _ => ({ t with token := .invalid }, b)

def tokenNext (t : TokenState) (b : Bytes) : TokenState × Bytes :=
  match b with
  | [] => ({ t with token := .tokenEnd }, [])
  | c :: rest =>
    if asc 'a' ≤ c ∧ c ≤ asc 'z' then
      if Token.digit.toNat < t.token.toNat then ({ t with token := .invalid }, b)
      else ({ t with value := [c], token := .letter }, rest)
    else if c = asc '.' then
      if Token.digit.toNat < t.token.toNat then ({ t with token := .invalid }, b)
      else tokenNumber t rest
    else if asc '0' ≤ c ∧ c ≤ asc '9' then tokenNumber t b
    else if c = asc '_' then
      if Token.suffixNo.toNat < t.token.toNat then ({ t with token := .invalid }, b)
      else
        let (value, rest') := apkBlobSpn rest .versionSuffix
        let suffix := suffixValue value
        if suffix = .invalid then ({ t with value := value, suffix := suffix, token := .invalid }, rest')
        else ({ t with value := value, suffix := suffix, token := .suffix }, rest')
    else if c = asc '~' then
      if Token.commitHash.toNat ≤ t.token.toNat then ({ t with token := .invalid }, b)
      else
        let (value, rest') := apkBlobSpn rest .hexdigit
        if value.length = 0 then ({ t with value := value, token := .invalid }, rest')
        else ({ t with value := value, token := .commitHash }, rest')
    else if c = asc '-' then
      if Token.revisionNo.toNat ≤ t.token.toNat then ({ t with token := .invalid }, b)
      else
        match apkBlobPullBlobMatch b (ascs ['-', 'r']) with
        | none => ({ t with token := .invalid }, b)
        | some rest' => tokenParseDigits { t with token := .revisionNo } rest'
    else ({ t with token := .invalid }, b)

/-- the loop of `apk_version_validate`. Every iteration has read at least one byte, so the
length of the version bounds them. -/
def validateLoop : ℕ → TokenState × Bytes → Bool
  | 0, (t, _) => t.token = .tokenEnd
  | n + 1, (t, b) =>
    if t.token.toNat < Token.tokenEnd.toNat then validateLoop n (tokenNext t b)
    else t.token = .tokenEnd

def apkVersionValidate (ver : Bytes) : Bool := validateLoop (ver.length + 1) (tokenFirst ver)

/-- what `apk_version_compare_fuzzy` returns once its loop has stopped at `ta` and `tb` -/
def compareTail (ta tb : TokenState) (fuzzy : Bool) : ℕ :=
  if ta.token = tb.token then apkVersionEqual
  else if tb.token = .tokenEnd ∧ fuzzy then apkVersionEqual
  else if ta.token = .suffix ∧ ta.suffix.toNat < Suffix.none.toNat then apkVersionLess
  else if tb.token = .suffix ∧ tb.suffix.toNat < Suffix.none.toNat then apkVersionGreater
  else if tb.token.toNat < ta.token.toNat then apkVersionLess
  else if ta.token.toNat < tb.token.toNat then apkVersionGreater
  else apkVersionEqual

/-- the loop of `apk_version_compare_fuzzy`. Every iteration that goes on has read
at least one byte of `a`, so its length bounds the iterations. -/
def compareLoop : ℕ → TokenState × Bytes → TokenState × Bytes → Bool → ℕ
  | 0, (ta, _), (tb, _), fuzzy => compareTail ta tb fuzzy
  | n + 1, (ta, a), (tb, b), fuzzy =>
    if ta.token = tb.token ∧ ta.token.toNat < Token.tokenEnd.toNat then
      let r := tokenCmp ta tb
      if r ≠ apkVersionEqual then r
      else compareLoop n (tokenNext ta a) (tokenNext tb b) fuzzy
    else compareTail ta tb fuzzy

/-- no counter of `token_next` overflows -/
def tokenNextDefined (t : TokenState) : Bytes → Bool
  | [] => true
  | c :: rest =>
    if c = asc '_' then Token.suffixNo.toNat < t.token.toNat || apkBlobSpnDefined rest .versionSuffix
    else if c = asc '~' then Token.commitHash.toNat ≤ t.token.toNat || apkBlobSpnDefined rest .hexdigit
    else true

/-- the loop of `apk_version_compare_fuzzy` is defined on its way to the result -/
def compareLoopDefined : ℕ → TokenState × Bytes → TokenState × Bytes → Bool
  | 0, _, _ => true
  | n + 1, (ta, a), (tb, b) =>
    if ta.token = tb.token ∧ ta.token.toNat < Token.tokenEnd.toNat ∧ tokenCmp ta tb = apkVersionEqual then
      tokenNextDefined ta a && tokenNextDefined tb b &&
        compareLoopDefined n (tokenNext ta a) (tokenNext tb b)
    else true

def apkVersionCompareFuzzy (a b : Option Bytes) (fuzzy : Bool) : ℕ :=
  match a, b with
  | none, none => apkVersionEqual
  | none, _ => apkVersionEqual ||| apkVersionGreater ||| apkVersionLess
  | _, none => apkVersionEqual ||| apkVersionGreater ||| apkVersionLess
  | some a, some b => compareLoop (a.length + 1) (tokenFirst a) (tokenFirst b) fuzzy

def apkVersionCompare (a b : Option Bytes) : ℕ := apkVersionCompareFuzzy a b false

/-- the comparison of two versions is defined -/
def apkVersionCompareDefined (a b : Bytes) : Bool :=
  compareLoopDefined (a.length + 1) (tokenFirst a) (tokenFirst b)

/-- `apk_version_result_mask_blob`: the operator as a mask, 0 if it has a byte of its own -/
def apkVersionResultMaskBlob (op : Bytes) : ℕ :=
  let rec go : Bytes → ℕ → ℕ
    | [], r => r
    | c :: cs, r =>
      if c = asc '<' then go cs (r ||| apkVersionLess)
      else if c = asc '>' then go cs (r ||| apkVersionGreater)
      else if c = asc '=' then go cs (r ||| apkVersionEqual)
      else if c = asc '~' then go cs (r ||| (apkVersionFuzzy ||| apkVersionEqual))
      else 0
  go op 0

def apkVersionMatch (a : Option Bytes) (op : ℕ) (b : Option Bytes) : Bool :=
  let ok := decide (op &&& apkDepmaskAny = apkDepmaskAny) ||
    decide (apkVersionCompareFuzzy a b (decide (op &&& apkVersionFuzzy ≠ 0)) &&& op ≠ 0)
  if op &&& apkVersionConflict ≠ 0 then !ok else ok

end Alpine
