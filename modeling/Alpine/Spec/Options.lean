import Alpine.Spec.Io

/-! The option parser of apk (`apk.c`) and `abuild-sudo`, which runs apk as root for the members
of a group (`abuild-sudo.c`). The parser is followed from the argument vector to the calls of the
option handlers; what a handler does beyond its return value is left out, and so are the options
that `load_config` reads from a file. Arguments are C strings: lists without a zero byte. -/

namespace Alpine

variable (apk : ApkProgram) (m : OptMatch) (s : Bytes) (func : OptGroup) (id : ℕ) (c : OptCodes)
    (applet : Option Applet) (execute : Bool) (sys : SudoSystem) (arg0 : Bytes)

def apkOptSh (c : Char) (s : Bytes) : Bytes := 0xa0 :: asc c :: s
def apkOptAuto : Bytes := 0xaa :: s
def apkOptBool : Bytes := 0xab :: s
def apkOptArg : Bytes := 0xaf :: s

def optgroupGlobalDesc : List Bytes :=
  [lit "allow-untrusted",
   apkOptArg (lit "arch"),
   apkOptBool (lit "cache"),
   apkOptArg (lit "cache-dir"),
   apkOptArg (lit "cache-max-age"),
   apkOptBool (lit "cache-packages"),
   apkOptBool (lit "cache-predownload"),
   apkOptBool (lit "check-certificate"),
   apkOptSh 'f' (lit "force"),
   lit "force-binary-stdout",
   lit "force-broken-world",
   lit "force-missing-repositories",
   lit "force-no-chroot",
   lit "force-non-repository",
   lit "force-old-apk",
   lit "force-overwrite",
   lit "force-refresh",
   apkOptSh 'h' (lit "help"),
   apkOptAuto (apkOptSh 'i' (lit "interactive")),
   apkOptArg (lit "keys-dir"),
   apkOptBool (lit "legacy-info"),
   apkOptBool (lit "logfile"),
   apkOptBool (lit "network"),
   apkOptBool (lit "preserve-env"),
   apkOptAuto (lit "pretty-print"),
   apkOptArg (lit "preupgrade-depends"),
   lit "print-arch",
   apkOptAuto (lit "progress"),
   apkOptArg (lit "progress-fd"),
   apkOptBool (lit "purge"),
   apkOptSh 'q' (lit "quiet"),
   apkOptArg (lit "repositories-file"),
   apkOptArg (apkOptSh 'X' (lit "repository")),
   apkOptArg (lit "repository-config"),
   apkOptArg (apkOptSh 'p' (lit "root")),
   apkOptAuto (lit "root-tmpfs"),
   apkOptAuto (lit "sync"),
   apkOptArg (lit "timeout"),
   apkOptSh 'U' (lit "update-cache"),
   apkOptArg (lit "uvol-manager"),
   apkOptSh 'v' (lit "verbose"),
   apkOptSh 'V' (lit "version"),
   apkOptArg (lit "wait")]

def optGlobalAllowUntrusted : ℕ := 0
def optGlobalHelp : ℕ := 17
def optGlobalKeysDir : ℕ := 19
def optGlobalPrintArch : ℕ := 26
def optGlobalVersion : ℕ := 41

def optgroupCommitDesc : List Bytes :=
  [apkOptBool (lit "clean-protected"),
   apkOptBool (lit "commit-hooks"),
   lit "initramfs-diskless-boot",
   lit "overlay-from-stdin",
   apkOptBool (lit "scripts"),
   apkOptBool (apkOptSh 's' (lit "simulate"))]

def optgroupQueryDesc : List Bytes :=
  [lit "all-matches",
   lit "available",
   apkOptArg (apkOptSh 'F' (lit "fields")),
   apkOptArg (lit "format"),
   apkOptArg (lit "from"),
   lit "installed",
   apkOptArg (lit "match"),
   apkOptSh 'R' (lit "recursive"),
   lit "search",
   apkOptArg (lit "summarize"),
   lit "upgradable",
   lit "world",
   lit "orphaned"]

def optgroupGenerationDesc : List Bytes :=
  [apkOptArg (apkOptSh 'c' (lit "compression")),
   apkOptArg (lit "sign-key")]

/-- the option handlers: `optgroup_global_parse`, `optgroup_applet_parse` and so on -/
inductive OptGroup
  | global | applet | commit | query | generation
  deriving DecidableEq, Repr

structure Applet where
  name : Bytes
  optionsDesc : List Bytes
  optgroupCommit : Bool
  optgroupGeneration : Bool
  optgroupQuery : Bool
  removeEmptyArguments : Bool

/-- the tables that `opt_match` goes through, with their handlers -/
def optTables : Option Applet → List (OptGroup × List Bytes)
  | none => [(.global, optgroupGlobalDesc)]
  | some a =>
    (.global, optgroupGlobalDesc) :: (.applet, a.optionsDesc) ::
      ((if a.optgroupCommit then [(.commit, optgroupCommitDesc)] else []) ++
        (if a.optgroupQuery then [(.query, optgroupQueryDesc)] else []) ++
        if a.optgroupGeneration then [(.generation, optgroupGenerationDesc)] else [])

def apkNo : ℕ := 0
def apkYes : ℕ := 1
def apkAuto : ℕ := 2

/-- where the value of an option stands: in the following argument, or in the option's own -/
inductive OptValue
  | next (s : Bytes)
  | within (s : Bytes)
  deriving DecidableEq, Repr

def OptValue.text : OptValue → Bytes
  | .next s => s
  | .within s => s

/-- `optarg`: a string, or a small number cast to a pointer -/
inductive OptArg
  | null
  | flag (n : ℕ)
  | string (v : OptValue)
  deriving DecidableEq, Repr

/-- `APK_OPTARG`, where `APK_NO` is the null pointer -/
def apkOptarg (n : ℕ) : OptArg := if n = 0 then .null else .flag n

def OptArg.ofValue : Option OptValue → OptArg
  | none => .null
  | some v => .string v

structure OptMatch where
  key : Bytes
  value : Option OptValue
  func : Option OptGroup
  cnt : ℕ
  optid : ℕ
  optarg : OptArg
  shortOpt : UInt8
  valueExplicit : Bool
  valueUsed : Bool

/-- the values of `OPT_MATCH_*`, 0 and the negative ones -/
inductive OptResult
  | ok
  | matchPartial
  | matchExact
  | matchInvalid
  | matchAmbiguous
  | matchArgumentExpected
  | matchArgumentUnexpected
  | matchNonOption
  | error (e : ℤ)
  deriving DecidableEq, Repr

def enotsup : ℤ := 95
def eshutdown : ℤ := 108

/-- `none` for `-EINVAL` -/
def optParseYesnoauto (arg : Bytes) (autoArg : Bool) : Option ℕ :=
  if arg = lit "yes" then some apkYes
  else if arg = lit "no" then some apkNo
  else if autoArg ∧ arg = lit "auto" then some apkAuto
  else none

structure OptCodes where
  valueUsed : Bool
  boolArg : Bool
  autoArg : Bool
  /-- the loop was left at the short option that is looked for -/
  short : Bool
  name : Bytes

/-- the bytes from `0xa0` on that stand in front of an option's name; `letter` when the next one is
the letter of a short option -/
def scanCodes (shortOpt : UInt8) : Bool → Bool → Bool → Bool → Bytes → OptCodes
  | _, valueUsed, boolArg, autoArg, [] => ⟨valueUsed, boolArg, autoArg, false, []⟩
  | true, valueUsed, boolArg, autoArg, c :: d =>
    if c = shortOpt then ⟨valueUsed, boolArg, autoArg, true, d⟩
    else scanCodes shortOpt false valueUsed boolArg autoArg d
  | false, valueUsed, boolArg, autoArg, c :: d =>
    if c < 0xa0 then ⟨valueUsed, boolArg, autoArg, false, c :: d⟩
    else if c = 0xa0 then scanCodes shortOpt true valueUsed boolArg autoArg d
    else if c = 0xaa then scanCodes shortOpt false valueUsed true true d
    else if c = 0xab then scanCodes shortOpt false valueUsed true autoArg d
    else if c = 0xaf then scanCodes shortOpt false true boolArg autoArg d
    else scanCodes shortOpt false valueUsed boolArg autoArg d

def optCodes (shortOpt : UInt8) (d : Bytes) : OptCodes :=
  scanCodes shortOpt false false false false d

/-- `dlen`: how much of the name the key covers, and one more if the name is longer -/
def optNameLen (key : Bytes) (c : OptCodes) : ℕ :=
  if key.isPrefixOf c.name then min c.name.length (key.length + 1)
  else if c.boolArg ∧ (lit "no-").isPrefixOf key ∧ (key.drop 3).isPrefixOf c.name then
    min c.name.length (key.length - 3 + 1) + 3
  else 0

def takeShort : OptMatch :=
  { m with
    cnt := m.cnt + 1
    func := some func
    optid := id
    optarg := if c.boolArg then apkOptarg apkYes else OptArg.ofValue m.value
    valueUsed := if c.boolArg then false else c.valueUsed }

/-- the value that a matching boolean option gets; `none` for `-EINVAL` -/
def optBoolArg : Option (OptArg × Bool) :=
  if (lit "no-").isPrefixOf m.key then some (apkOptarg apkNo, false)
  else if !m.valueExplicit then some (apkOptarg apkYes, false)
  else (optParseYesnoauto (m.value.elim [] OptValue.text) c.autoArg).map fun r =>
    (apkOptarg r, true)

def optLongArg : Option (OptArg × Bool) :=
  if c.boolArg then optBoolArg m c
  else some (if c.valueUsed then OptArg.ofValue m.value else .null, c.valueUsed)

def takeLong (arg : OptArg × Bool) : OptMatch :=
  { m with
    cnt := m.cnt + 1
    func := some func
    optid := id
    optarg := arg.1
    valueUsed := arg.2 }

/-- one entry of a table; `ok` to go on with the next -/
def optParseEntry (m : OptMatch) (d : Bytes) : OptResult × OptMatch :=
  let c := optCodes m.shortOpt d
  if c.short then
    if m.cnt ≠ 0 then (.matchAmbiguous, m) else (.matchExact, takeShort m func id c)
  else if m.shortOpt ≠ 0 then (.ok, m)
  else if m.key.length ≤ optNameLen m.key c then
    match optLongArg m c with
    | none => (.error (-einval), { m with cnt := m.cnt + 1, func := some func, optid := id })
    | some arg =>
      (if optNameLen m.key c = m.key.length then .matchExact else .ok, takeLong m func id arg)
  else (.ok, m)

def optParseDesc (func : OptGroup) : ℕ → List Bytes → OptMatch → OptResult × OptMatch
  | _, [], m => (.ok, m)
  | id, d :: desc, m =>
    let r := optParseEntry func id m d
    if r.1 = .ok then optParseDesc func (id + 1) desc r.2 else r

def optMatchTables : List (OptGroup × List Bytes) → OptMatch → OptResult × OptMatch
  | [], m => (.ok, m)
  | (func, desc) :: tables, m =>
    let r := optParseDesc func 0 desc m
    if r.1 = .ok then optMatchTables tables r.2 else r

/-- the end of `opt_match` -/
def optMatchDone (r : OptResult) (m : OptMatch) : OptResult :=
  if r ≠ .matchPartial ∧ r ≠ .matchExact then r
  else if !m.valueUsed ∧ m.valueExplicit then .matchArgumentUnexpected
  else if m.valueUsed ∧ m.value = none then .matchArgumentExpected
  else r

def optMatch (m : OptMatch) : OptResult × OptMatch :=
  let r := optMatchTables (optTables applet) m
  (if r.1 ≠ .ok then optMatchDone r.1 r.2
   else if r.2.cnt ≠ 1 then (if r.2.cnt > 1 then .matchAmbiguous else .matchInvalid)
   else optMatchDone .matchPartial r.2,
   r.2)

structure OptCall where
  func : OptGroup
  optid : ℕ
  optarg : OptArg
  deriving DecidableEq, Repr

/-- the applets that are compiled in, and what the handlers return other than those of the global
options; the calls so far stand for the state they may depend on -/
structure ApkProgram where
  applets : List Applet
  handler : List OptCall → OptGroup → ℕ → OptArg → ℤ

def apkAppletFind (name : Bytes) : Option Applet :=
  apk.applets.find? fun a => name = a.name

def optgroupGlobalParse (opt : ℕ) : ℤ :=
  if opt = optGlobalHelp then -enotsup
  else if opt = optGlobalPrintArch then -eshutdown
  else if opt = optGlobalVersion then -eshutdown
  else if opt < optgroupGlobalDesc.length then 0
  else -enotsup

def callHandler (calls : List OptCall) (func : OptGroup) (m : OptMatch) : ℤ :=
  if func = .global then optgroupGlobalParse m.optid else apk.handler calls func m.optid m.optarg

/-- the part under `st->execute`; `ok` to go on -/
def optRun (r : OptResult × OptMatch) (calls : List OptCall) : OptResult × List OptCall :=
  if !execute then (.ok, calls)
  else if r.1 ≠ .matchExact ∧ r.1 ≠ .matchPartial then (r.1, calls)
  else
    match r.2.func with
    | none => (.ok, calls)
    | some func =>
      (if callHandler apk calls func r.2 < 0 then .error (callHandler apk calls func r.2) else .ok,
        calls ++ [⟨func, r.2.optid, r.2.optarg⟩])

/-- the option's value was the following argument -/
def takesNext (nextArg : Option Bytes) : Bool :=
  m.valueUsed && decide (m.optarg = OptArg.ofValue (nextArg.map OptValue.next))

structure ArgvStep where
  result : OptResult
  skip : Bool
  endOfOptions : Bool
  calls : List OptCall

def longOption (body : Bytes) (nextArg : Option Bytes) : OptMatch :=
  match apkBlobSplit body (asc '=') with
  | some kv => ⟨kv.1, some (.within kv.2), none, 0, 0, .null, 0, true, false⟩
  | none => ⟨body, nextArg.map OptValue.next, none, 0, 0, .null, 0, false, false⟩

def optParseLong (body : Bytes) (nextArg : Option Bytes) (calls : List OptCall) : ArgvStep :=
  let r := optMatch applet (longOption body nextArg)
  let run := optRun apk execute r calls
  ⟨run.1, takesNext r.2 nextArg, false, run.2⟩

def shortOption (c : UInt8) (rest : Bytes) (nextArg : Option Bytes) : OptMatch :=
  ⟨[c], if rest = [] then nextArg.map OptValue.next else some (.within rest), none, 0, 0, .null, c,
    false, false⟩

/-- the loop over the letters of an argument with short options -/
def optParseShort (apk : ApkProgram) (applet : Option Applet) (execute : Bool)
    (nextArg : Option Bytes) : Bytes → List OptCall → ArgvStep
  | [], calls => ⟨.ok, false, false, calls⟩
  | c :: rest, calls =>
    let r := optMatch applet (shortOption c rest nextArg)
    let run := optRun apk execute r calls
    if run.1 ≠ .ok then ⟨run.1, false, false, run.2⟩
    else if r.2.valueUsed ∨ rest = [] then ⟨.ok, takesNext r.2 nextArg, false, run.2⟩
    else optParseShort apk applet execute nextArg rest run.2

def optParseArgv (arg : Bytes) (nextArg : Option Bytes) (endOfOptions : Bool) (calls : List OptCall) :
    ArgvStep :=
  if endOfOptions then ⟨.matchNonOption, false, true, calls⟩
  else
    match arg with
    | [] => ⟨.matchNonOption, false, false, calls⟩
    | [_] => ⟨.matchNonOption, false, false, calls⟩
    | c0 :: c1 :: body =>
      if c0 ≠ asc '-' then ⟨.matchNonOption, false, false, calls⟩
      else if c1 = asc '-' then
        if body = [] then ⟨.ok, false, true, calls⟩
        else optParseLong apk applet execute body nextArg calls
      else optParseShort apk applet execute nextArg (c1 :: body) calls

/-- the first pass of `parse_options`: the applet is named by the first argument that is not an
option, read without the options of an applet -/
def findApplet (apk : ApkProgram) : List Bytes → Bool → Bool → Option Applet
  | [], _, _ => none
  | _ :: args, true, endOfOptions => findApplet apk args false endOfOptions
  | arg :: args, false, endOfOptions =>
    let s := optParseArgv apk none false arg args.head? endOfOptions []
    if s.result ≠ .matchNonOption then findApplet apk args s.skip s.endOfOptions
    else
      match apkAppletFind apk arg with
      | some a => some a
      | none => findApplet apk args false s.endOfOptions

structure Parsed where
  code : ℤ
  calls : List OptCall
  args : List Bytes

/-- the second pass, which runs the handlers -/
def parseArgs (apk : ApkProgram) (applet : Option Applet) :
    List Bytes → Bool → Bool → Bool → List OptCall → List Bytes → Parsed
  | [], _, _, _, calls, args => ⟨0, calls, args⟩
  | _ :: argv, true, endOfOptions, pending, calls, args =>
    parseArgs apk applet argv false endOfOptions pending calls args
  | arg :: argv, false, endOfOptions, pending, calls, args =>
    let s := optParseArgv apk applet true arg argv.head? endOfOptions calls
    match s.result with
    | .ok => parseArgs apk applet argv s.skip s.endOfOptions pending s.calls args
    | .matchNonOption =>
      if pending ∧ applet.elim false (fun a => arg = a.name) then
        parseArgs apk applet argv false s.endOfOptions false s.calls args
      else if arg ≠ [] ∨ !applet.elim false (·.removeEmptyArguments) then
        parseArgs apk applet argv false s.endOfOptions pending s.calls (args ++ [arg])
      else parseArgs apk applet argv false s.endOfOptions pending s.calls args
    | .error e => ⟨if e = -enotsup ∨ e = -einval then 1 else e, s.calls, args⟩
    | _ => ⟨1, s.calls, args⟩

def apkLastPathSegment (path : Bytes) : Bytes := (apkBlobRsplit path (asc '/')).elim path (·.2)

def appletFromArg0 : Option Applet :=
  if (lit "apk_").isPrefixOf (apkLastPathSegment arg0) then
    apkAppletFind apk ((apkLastPathSegment arg0).drop 4)
  else none

def parseOptions (argv : List Bytes) : Parsed :=
  match appletFromArg0 apk arg0 with
  | some a => parseArgs apk (some a) argv false false false [] []
  | none =>
    match findApplet apk argv false false with
    | some a => parseArgs apk (some a) argv false false true [] []
    | none => parseArgs apk none argv false false false [] []

def validCmds : List Bytes :=
  [lit "/bin/adduser", lit "/usr/sbin/adduser", lit "/bin/addgroup", lit "/usr/sbin/addgroup",
   lit "/sbin/apk", lit "/usr/bin/abuild-rmtemp"]

def invalidOpts : List Bytes := [lit "--allow-untrusted", lit "--keys-dir"]

/-- what `main` asks the system for -/
structure SudoSystem where
  groupExists : Bool
  uid : ℕ
  userName : Option Bytes
  inGroup : Bool
  access : Bytes → Bool
  setuidOk : Bool
  setgidOk : Bool

inductive SudoResult
  | errx (message : Bytes)
  | execv (path : Bytes) (args : List Bytes)
  deriving DecidableEq, Repr

def getCommandPath (cmd : Bytes) : Option Bytes :=
  validCmds.find? fun c => sys.access c && decide (apkLastPathSegment c = cmd)

/-- whether `check_option` returns -/
def checkOption (opt : Bytes) : Bool := opt ∉ invalidOpts

/-- the end of `main`: `execv` with the path for `argv[0]` and the arguments as they are -/
def sudoExec (path : Bytes) (args : List Bytes) : SudoResult :=
  match args.find? fun a => !checkOption a with
  | some opt => .errx (opt ++ lit ": not allowed option")
  | none =>
    if !sys.setuidOk then .errx (lit "setuid(0) failed")
    else if !sys.setgidOk then .errx (lit "setgid(0) failed")
    else .execv path args

def abuildSudo (args : List Bytes) : SudoResult :=
  if !sys.groupExists then .errx (lit "abuild: Group not found")
  else if sys.uid ≠ 0 ∧ !sys.inGroup then
    .errx (lit "User " ++ sys.userName.getD (lit "(unknown)") ++
      lit " is not a member of group abuild\n")
  else
    match apkBlobSplit (apkLastPathSegment arg0) (asc '-') with
    | none => .errx (lit "Calling command has no '-'")
    | some cmd =>
      match getCommandPath sys cmd.2 with
      | none => .errx (cmd.2 ++ lit ": Not a valid subcommand")
      | some path => sudoExec sys path args

end Alpine
