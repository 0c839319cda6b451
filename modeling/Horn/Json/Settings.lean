import Horn.Config
import Horn.Json.Record
import Horn.Json.Writing
import Horn.Search.Stats

/-!
JSON forms of the configuration and of the counters of a search.
-/

set_option autoImplicit false
set_option relaxedAutoImplicit false

namespace Horn

open Json (Reader)

namespace Duration

def toJson (d : Duration) : String :=
  Json.writeObject [("secs", Json.writeInt d.secs), ("nanos", Json.writeInt d.nanos)]

/-- A span of time with all whole seconds counted as seconds, if these fit 64 bits. -/
def normal? (secs nanos : Nat) : Option Duration :=
  let total := secs + nanos / nanosPerSec
  if total < 0x10000000000000000 then some ⟨total, nanos % nanosPerSec⟩ else none

/-- Whether a value has fields of a span of time only. -/
def hasOwnFieldsOnly : Json → Bool
  | .object fields => fields.all fun field => field.1 == some "secs" || field.1 == some "nanos"
  | _ => true

/-- Reads a span of time; unlike other records it must not have other fields. -/
def ofJson? : Reader Duration := fun depth json =>
  if hasOwnFieldsOnly json then
    Json.readRecord? ["secs", "nanos"] (fun _ record =>
      match record.fields with
      | [some secs, some nanos] =>
        (Json.readNatural? secs).bind fun secs =>
          (Json.readNatural? nanos).bind fun nanos =>
            if nanos < 0x100000000 then normal? secs nanos else none
      | _ => none) depth json
  else none

end Duration

namespace Config

def toJson (c : Config) : String :=
  Json.writeObject
    [("search_timeout", c.searchTimeout.toJson),
      ("max_variadic_arity", Json.writeInt c.maxVariadicArity)]

/-- Reads a value, or takes the standard one where it is missing. -/
def readOr {α : Type} (standard : α) (read : Json → Option α) : Option Json → Option α
  | none => some standard
  | some json => read json

/-- Reads settings; missing ones keep their standard values. -/
def ofJson? : Reader Config :=
  Json.readRecord? ["search_timeout", "max_variadic_arity"] fun depth record =>
    match record.fields with
    | [timeout, arity] =>
      (readOr standard.searchTimeout (Duration.ofJson? depth) timeout).bind fun timeout =>
        (readOr standard.maxVariadicArity Json.readNatural? arity).map fun arity =>
          ⟨timeout, arity⟩
    | _ => none

/-- The settings that a JSON text gives. -/
def ofText? (text : String) : Option Config :=
  (Json.ofText? text).bind (ofJson? Json.maxDepth)

end Config

namespace Search.Stats

def toJson (s : Stats) : String :=
  Json.writeObject
    [("iterations", Json.writeInt s.iterations), ("clause_scans", Json.writeInt s.clauseScans),
      ("clauses_tested", Json.writeInt s.clausesTested), ("memo_hits", Json.writeInt s.memoHits),
      ("builtin_calls", Json.writeInt s.builtinCalls),
      ("pruned_duplicates", Json.writeInt s.prunedDuplicates),
      ("undefined", Json.writeArray (s.undefined.map Json.writeText))]

def ofJson? : Reader Stats :=
  Json.readRecord?
    ["iterations", "clause_scans", "clauses_tested", "memo_hits", "builtin_calls",
      "pruned_duplicates", "undefined"]
    fun depth record =>
      match record.fields.mapM id with
      | some [iterations, scans, tested, hits, calls, pruned, undefined] =>
        ([iterations, scans, tested, hits, calls, pruned].mapM Json.readNatural?).bind fun counts =>
          (Json.readArray? (fun _ => Json.readText?) depth undefined).bind fun keys =>
            match counts with
            | [iterations, scans, tested, hits, calls, pruned] =>
              some ⟨iterations, scans, tested, hits, calls, pruned, keys⟩
            | _ => none
      | _ => none

end Search.Stats

end Horn
