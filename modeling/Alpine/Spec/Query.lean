import Alpine.Spec.Fdb
import Alpine.Spec.Options

/-! Queries for packages (`query.c`): what `apk_query_matches` reports to a consumer that returns 0. The
recursive query is a function of the arguments, and a pattern longer than a path is not cut. -/

namespace Alpine

def apkQFieldOwner : ℕ := 2 ^ 3
def apkQFieldName : ℕ := 2 ^ 5

def apkQFieldsMatchable : ℕ :=
  ([3, 4, 5, 6, 8, 9, 10, 11, 12, 13, 19, 20, 21, 22, 23, 25, 26].map (2 ^ ·)).sum

/-- `struct apk_query_spec`; `fields` is `match` -/
structure QuerySpec where
  recursive : Bool
  search : Bool
  emptyMatchesAll : Bool
  allMatches : Bool
  available : Bool
  installed : Bool
  orphaned : Bool
  upgradable : Bool
  fields : ℕ

def QuerySpec.nonindex (qs : QuerySpec) : ℕ := qs.fields - (qs.fields &&& apkQFieldName)

structure QueryMatch (N P : Type) where
  query : Bytes
  pkg : Option P
  name : Option N

/-- `struct match_ctx`, the part that an argument sets -/
structure MatchCtx where
  wildcard : Bool
  text : Bytes
  q : Bytes
  op : ℕ
  version : Option Bytes

/-- what a query asks of the rest of the program. The serializer tells which of the fields of a package
match, each with the name of its dependency -/
structure QueryEnv (N P : Type) where
  names : List N
  hasRepositoryProviders : N → Bool
  upgradable : P → Bool
  whoOwns : Bytes → Option P
  fnmatch : Bytes → Bytes → Bool
  fieldMatches : QuerySpec → MatchCtx → ℕ → P → List (Option N)
  fieldMatches_zero : ∀ qs m p, fieldMatches qs m 0 p = []
  queryRecursive : List Bytes → List (QueryMatch N P) × ℤ

section

variable {N P : Type} [DecidableEq N] [DecidableEq P] (env : QueryEnv N P) (db : Database N P)

def matchString (m : MatchCtx) (value : Bytes) : Bool :=
  if m.wildcard then env.fnmatch m.text value else decide (strcmp value m.text = 0)

def updateBestMatch (best : Option P) (pkg : P) : Option P :=
  match best with
  | none => some pkg
  | some b =>
    if b = pkg then best
    else if (db.package pkg).ipkg.isSome ∨ apkVersionCompare (atomBlob (db.package pkg).version)
        (atomBlob (db.package b).version) = apkVersionGreater then some pkg
    else best

/-- the calls of the callback for one provider -/
def providerCalls (qs : QuerySpec) (m : MatchCtx) (name : N) (nameMatch : Bool) (p : Provider P) :
    List (QueryMatch N P) :=
  if (db.package p.pkg).name ≠ name then []
  else if qs.installed ∧ (db.package p.pkg).ipkg = none then []
  else if qs.available ∧ ¬apkDbPkgAvailable db p.pkg then []
  else if qs.upgradable ∧ ¬env.upgradable p.pkg then []
  else
    let named := decide (qs.fields = 0) ||
      (nameMatch && apkDepIsProvided db none ⟨name, m.version, m.op, false, 0, 0⟩ (some p))
    (if named then [⟨[], some p.pkg, some name⟩] else []) ++
      (if named ∧ ¬qs.allMatches then []
        else (env.fieldMatches qs m qs.nonindex p.pkg).map fun n => ⟨[], some p.pkg, n⟩)

/-- the calls of `match_name` over the given array of providers -/
def nameCalls (qs : QuerySpec) (m : MatchCtx) (name : N) (providers : List (Provider P)) :
    List (QueryMatch N P) :=
  let nameMatch := decide (qs.fields &&& apkQFieldName ≠ 0) && matchString env m (db.display name)
  if qs.orphaned ∧ env.hasRepositoryProviders name then []
  else if qs.fields ≠ 0 ∧ ¬nameMatch ∧ qs.nonindex = 0 then []
  else providers.flatMap (providerCalls env db qs m name nameMatch)

/-- `m->best` at the end of `match_name` -/
def bestMatch (qs : QuerySpec) (m : MatchCtx) (name : N) (providers : List (Provider P)) : Option P :=
  ((nameCalls env db qs m name providers).filterMap (·.pkg)).foldl (updateBestMatch db) none

/-- `match_name`: whether there are matches, and what is reported -/
def matchName (best : Bool) (qs : QuerySpec) (m : MatchCtx) (name : N) : Bool × List (QueryMatch N P) :=
  let calls := nameCalls env db qs m name (db.providers name)
  (!calls.isEmpty, if best then (bestMatch env db qs m name (db.providers name)).toList.map
    fun p => ⟨m.q, some p, none⟩ else calls)

def matchCtx (qs : QuerySpec) (arg : Bytes) : MatchCtx :=
  if qs.search then
    let q := [asc '*'] ++ arg ++ [asc '*']
    ⟨true, q, q, apkDepmaskAny, none⟩
  else
    let dep := (apkDepParse arg).getD (arg, apkDepmaskAny, none)
    ⟨arg.any fun c => c = asc '?' ∨ c = asc '*', arg, dep.1, dep.2.1, dep.2.2⟩

/-- what is reported for one argument, and whether it counts as one without matches -/
def queryArg (qs : QuerySpec) (arg : Bytes) : List (QueryMatch N P) × Bool :=
  let owner := if qs.fields &&& apkQFieldOwner ≠ 0 ∧ arg.head? = some (asc '/') then
    (env.whoOwns arg).toList.map fun p => ⟨arg, some p, none⟩ else []
  let m := matchCtx qs arg
  let found := if qs.fields = apkQFieldName ∧ ¬m.wildcard
    then (env.names.find? fun n => db.display n = m.q).toList.map (matchName env db (!qs.allMatches) qs m)
    else env.names.map (matchName env db (!qs.allMatches) qs m)
  let reports := owner ++ found.flatMap (·.2)
  if owner.isEmpty ∧ found.all (!·.1) then (reports ++ [⟨m.q, none, none⟩], !m.wildcard)
  else (reports, false)

def apkQueryMatches (qs : QuerySpec) (args : List Bytes) : List (QueryMatch N P) × ℤ :=
  let qs := if qs.fields = 0 then { qs with fields := apkQFieldName } else qs
  if qs.fields - (qs.fields &&& apkQFieldsMatchable) ≠ 0 then ([], -enotsup)
  else if qs.emptyMatchesAll ∧ args = [] then
    (env.names.flatMap fun n =>
      (matchName env db false { qs with fields := 0 } ⟨false, [], [], 0, none⟩ n).2, 0)
  else if qs.recursive then env.queryRecursive args
  else
    let res := args.map (queryArg env db qs)
    (res.flatMap (·.1), res.countP (·.2))

end

end Alpine
