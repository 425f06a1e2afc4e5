import Alpine.Spec.Codec

/-! The text under which a URL is printed (`apk_url_sanitize` in `print.c`). -/

namespace Alpine

/-- `memmem`: where the first occurrence of the needle begins -/
def memmem (needle : Bytes) : Bytes → Option ℕ
  | [] => if needle = [] then some 0 else none
  | c :: cs => if needle.isPrefixOf (c :: cs) then some 0 else (memmem needle cs).map (· + 1)

def apkBlobContains (blob needle : Bytes) : ℤ :=
  match memmem needle blob with
  | none => -1
  | some n => toInt32 n

/-- what `%.*s` prints of the bytes at a pointer; a negative precision counts as none -/
def precisionText (precision : ℤ) (s : Bytes) : Bytes :=
  cstr (if precision < 0 then s else s.take precision.toNat)

/-- the loop over the bytes from `i` on. The copy that `apk_balloc_dup` makes of a NULL blob is
empty. -/
def urlSanitizeLoop (url : Bytes) (passwordStart : ℤ) (i : ℕ) : Bytes → Bytes
  | [] => url
  | c :: cs =>
    if c = asc '/' then url
    else if c = asc '@' then
      if passwordStart = 0 then url
      else (apkBlobFmt pathMax (precisionText passwordStart url ++ [asc '*'] ++
        precisionText (toInt32 (url.length - i)) (c :: cs))).getD []
    else if c = asc ':' ∧ passwordStart = 0 then urlSanitizeLoop url (toInt32 (i + 1)) (i + 1) cs
    else urlSanitizeLoop url passwordStart (i + 1) cs

def apkUrlSanitize (url : Bytes) : Bytes :=
  let authority := apkBlobContains url (lit "://")
  if authority < 0 then url
  else urlSanitizeLoop url 0 (authority.toNat + 3) (url.drop (authority.toNat + 3))

end Alpine
