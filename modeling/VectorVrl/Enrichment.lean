import VectorVrl.Json
import VectorVrl.Lib.Index

namespace VectorVrl
open Lib.OrderedMap Lib.Index

/-- Case sensitivity and the condition fields, in the order VRL resolves them. -/
abbrev IndexKey := Bool × List String

def IndexKey.compare : IndexKey → IndexKey → Ordering :=
  compareLex (compareOn Prod.fst) (compareOn Prod.snd)

instance : Std.TransCmp IndexKey.compare :=
  inferInstanceAs (Std.TransCmp (compareLex (compareOn Prod.fst) (compareOn Prod.snd)))

instance : Std.LawfulEqCmp IndexKey.compare where
  compare_self := Std.ReflCmp.compare_self
  eq_of_compare {a b} h := by
    simp only [IndexKey.compare, compareLex_eq_eq, compareOn,
      Std.LawfulEqOrd.compare_eq_iff_eq] at h
    exact Prod.ext h.1 h.2

/-- Row numbers by the comparable text of the indexed fields, in field order. -/
abbrev RowIndex := Std.ExtTreeMap (List String) (List Nat) compare

abbrev IndexCache := Std.ExtTreeMap IndexKey RowIndex IndexKey.compare

/-- A `Mutex`, poisoned once a thread has panicked while it held the lock. -/
structure Mutex (α : Type) where
  poisoned : Bool
  inner : α

/-- What `if let Ok(..) = lock()` gets to see. -/
def Mutex.lock {α : Type} (m : Mutex α) : Option α := if m.poisoned then none else some m.inner

/-- A CSV file loaded into memory at registration time. -/
structure FileTable where
  path : String
  headers : List String
  rows : List ObjectMap
  indexes : Mutex IndexCache

/-- How many matching rows a lookup wants back. -/
inductive Wanted where
  | one
  | all
deriving DecidableEq, Repr

/-- The rows worth copying out: a second one is enough to report ambiguity, and
the limit `usize::MAX` is more than a table holds. -/
def Wanted.take {α : Type} : Wanted → List α → List α
  | .one, rows => rows.take 2
  | .all, rows => rows

/-- A csv reader: its header record and data records, each with the error of reading it. -/
structure CsvReader where
  headers : Except String (List String)
  records : List (Except String (List String))

/-- An IPv4 or IPv6 address. -/
abbrev IpAddr := BitVec 32 ⊕ BitVec 128

/-- A MaxMind reader: the outer error is the lookup's, the inner one the decoding's. -/
structure MmdbReader where
  lookup : IpAddr → Except String (Except String (Option JsonValue))

structure GeoipTable where
  path : String
  reader : MmdbReader

inductive EnrichmentTable where
  | file (t : FileTable)
  | geoip (t : GeoipTable)

/-- The file system as a registration finds it, through the readers of each kind. -/
structure Files where
  openCsv : String → UInt8 → Except String CsvReader
  openMmdb : String → Except String MmdbReader

section
variable [lib : Libraries]

/-- A condition value or a table cell as text for comparison. -/
def comparableText (field : String) : Value → Except String String
  | .bytes b => .ok (fromUtf8Lossy b)
  | .string s => .ok s
  | .integer i => .ok (toString i.toInt)
  | .float f => .ok (lib.floatText f.val)
  | .boolean b => .ok (toString b)
  | _ => .error s!"enrichment condition for field {debugStr field} must be a string, integer, float or boolean"

/-- `text` as an index key compares it: lowercased when the lookup ignores case. -/
def comparableKey (text : String) (caseSensitive : Bool) : String :=
  if caseSensitive then text else lib.toLowercase text

def selectFields (row : ObjectMap) : List String → ObjectMap → Except String ObjectMap
  | [], out => .ok out
  | key :: rest, out =>
    match row[key]? with
    | some value => selectFields row rest (out.insert key value)
    | none => .error s!"field {debugStr key} not found in enrichment table row"

/-- Copy out only the requested keys, erroring on a key the row does not carry. -/
def applySelect (row : ObjectMap) : Option (List String) → Except String ObjectMap
  | none => .ok row
  | some select => selectFields row select ∅

/-- `collect` into a `Result`: the first error stops it. -/
def collectAll {α β : Type} (f : α → Except String β) : List α → Except String (List β)
  | [] => .ok []
  | a :: rest => do
    let b ← f a
    let bs ← collectAll f rest
    return b :: bs

end

namespace FileTable

def loadRow (path : String) (headers : List String) (index : Nat)
    (record : Except String (List String)) : Except String ObjectMap := do
  let cells ← record.mapError fun e => s!"cannot read csv {path} row {index + 1}: {e}"
  if cells.length ≠ headers.length then
    throw s!"csv {path} row {index + 1} has {cells.length} fields, expected {headers.length}"
  return (headers.zip cells).foldl (fun row (header, cell) => row.insert header (.ofStr cell)) ∅

/-- Load a CSV, taking the first record as the header row. Every cell is stored
as a string. -/
def load (files : Files) (path : String) (delimiter : UInt8) : Except String FileTable := do
  let reader ← (files.openCsv path delimiter).mapError fun e => s!"cannot read csv {path}: {e}"
  let headers ← reader.headers.mapError fun e => s!"cannot read csv header of {path}: {e}"
  if headers.isEmpty then throw s!"csv {path} has no header row"
  let rows ← collectAll (fun (record, index) => loadRow path headers index record)
    reader.records.zipIdx
  return ⟨path, headers, rows, ⟨false, ∅⟩⟩

def hasColumn (t : FileTable) (field : String) : Bool := t.headers.any (· = field)

section
variable [Libraries]

def cellKey (row : ObjectMap) (caseSensitive : Bool) (field : String) : Option String := do
  let cell ← row[field]?
  let text ← (comparableText field cell).toOption
  return comparableKey text caseSensitive

/-- The key a row is indexed under, none when a cell is missing or has no text. -/
def rowKey (key : IndexKey) (row : ObjectMap) : Option (List String) :=
  key.2.mapM (cellKey row key.1)

def buildIndex (rows : List ObjectMap) (key : IndexKey) : RowIndex :=
  build compare (rowKey key) rows

def cached (t : FileTable) (key : IndexKey) : Option RowIndex := do
  let cache ← t.indexes.lock
  cache[key]?

/-- Keep an index, which a poisoned cache refuses. -/
def store (t : FileTable) (key : IndexKey) (index : RowIndex) : FileTable :=
  match t.indexes.lock with
  | some cache => { t with indexes := { t.indexes with inner := cache.insert key index } }
  | none => t

/-- The index on `fields`, built on first use and cached; none when a field is not a column. -/
def indexFor (t : FileTable) (caseSensitive : Bool) (fields : List String) :
    Option RowIndex × FileTable :=
  if !fields.all t.hasColumn then (none, t)
  else
    let key := (caseSensitive, fields)
    match t.cached key with
    | some index => (some index, t)
    | none =>
      let index := buildIndex t.rows key
      (some index, t.store key index)

/-- One condition's part of the key a lookup looks up. -/
def conditionKey (caseSensitive : Bool) (condition : String × Value) : Except String String :=
  (comparableText condition.1 condition.2).map fun text => comparableKey text caseSensitive

/-- Every row whose condition fields all equal the condition values, by the
index `indexFor` built for these fields. -/
def findRows (t : FileTable) (index : Option RowIndex) (conditions : List (String × Value))
    (caseSensitive : Bool) (select : Option (List String)) (wanted : Wanted) :
    Except String (List ObjectMap) :=
  match index with
  | none =>
    match conditions.find? fun condition => !t.hasColumn condition.1 with
    | some (field, _) =>
      if !t.rows.isEmpty then .error s!"field {debugStr field} not found in enrichment table"
      else .ok []
    | none => .ok []
  | some index => do
    let key ← collectAll (conditionKey caseSensitive) conditions
    let numbers := wanted.take (index[key]?.getD [])
    collectAll (fun row => applySelect row select) (numbers.filterMap fun number => t.rows[number]?)

end

end FileTable

namespace GeoipTable

def load (files : Files) (path : String) : Except String GeoipTable :=
  match files.openMmdb path with
  | .ok reader => .ok ⟨path, reader⟩
  | .error e => .error s!"cannot open mmdb {path}: {e}"

/-- A geoip lookup takes exactly one condition, whose value is the IP address. -/
def findRows [lib : Libraries] (t : GeoipTable) (conditions : List (String × Value))
    (select : Option (List String)) : Except String (List ObjectMap) :=
  match conditions with
  | [(field, value)] => do
    let text ← comparableText field value
    let some address := lib.parseIp text
      | throw s!"condition field {debugStr field} is not an IP address: {text}"
    let decoded ← (t.reader.lookup address).mapError fun e => s!"mmdb lookup failed for {text}: {e}"
    let record ← decoded.mapError fun e => s!"cannot decode mmdb record for {text}: {e}"
    let some record := record | return []
    let record ← (jsonToVrlValue record).mapError fun e => s!"mmdb record for {text}: {e.display}"
    match record with
    | .object keys field => return [← applySelect (toMap keys field) select]
    | _ => throw s!"mmdb record for {text} is not an object"
  | _ => throw "a geoip enrichment table takes exactly one condition, the IP address"

end GeoipTable

namespace EnrichmentTable

def kind : EnrichmentTable → String
  | .file _ => "file"
  | .geoip _ => "geoip"

def path : EnrichmentTable → String
  | .file t => t.path
  | .geoip t => t.path

/-- Row count for a file table; a geoip table has none. -/
def rowCount : EnrichmentTable → Option Nat
  | .file t => some t.rows.length
  | .geoip _ => none

section
variable [Libraries]

def indexFor (table : EnrichmentTable) (caseSensitive : Bool) (fields : List String) :
    Option RowIndex × EnrichmentTable :=
  match table with
  | .file t =>
    let (index, t) := t.indexFor caseSensitive fields
    (index, .file t)
  | .geoip t => (none, .geoip t)

def findRows (table : EnrichmentTable) (index : Option RowIndex)
    (conditions : List (String × Value)) (caseSensitive : Bool)
    (select : Option (List String)) (wanted : Wanted) : Except String (List ObjectMap) :=
  match table with
  | .file t => t.findRows index conditions caseSensitive select wanted
  | .geoip t => t.findRows conditions select

end

end EnrichmentTable

end VectorVrl
