import VectorVrl.Enrichment

namespace VectorVrl

namespace FileTable
variable [Libraries]

/-- A table as it can be after loading, compiled lookups and poisoned locks. -/
inductive Loaded : FileTable → Prop where
  | load {files : Files} {path : String} {delimiter : UInt8} {t : FileTable}
      (h : FileTable.load files path delimiter = .ok t) : Loaded t
  | indexed {t : FileTable} (caseSensitive : Bool) (fields : List String) (h : Loaded t) :
      Loaded (t.indexFor caseSensitive fields).2
  | poisoned {t : FileTable} (left : IndexCache) (h : Loaded t) :
      Loaded { t with indexes := ⟨true, left⟩ }

/-- One row per record, in order, and under each column's header the record's
field of that column. -/
structure KeepsCells (t : FileTable) (headers : List String) (records : List (List String)) :
    Prop where
  count : t.rows.length = records.length
  cells : ∀ (r : Nat) record row, records[r]? = some record → t.rows[r]? = some row →
    ∀ (i : Nat) header cell, headers[i]? = some header → record[i]? = some cell →
      row[header]? = some (.ofStr cell)

end FileTable

/-- In every record the columns of one name hold one field. -/
def RepeatsAgree (headers : List String) (records : List (List String)) : Prop :=
  ∀ record ∈ records, ∀ (i j : Nat) header, headers[i]? = some header →
    headers[j]? = some header → record[i]? = record[j]?

def errorOf {α : Type} : Except String α → Option String
  | .error e => some e
  | .ok _ => none

section
variable [Libraries]

/-- A cell and a condition value with one and the same comparable text. -/
def sameText (caseSensitive : Bool) (field : String) (cell value : Value) : Bool :=
  match comparableText field cell, comparableText field value with
  | .ok a, .ok b => comparableKey a caseSensitive = comparableKey b caseSensitive
  | _, _ => false

def meets (caseSensitive : Bool) (row : ObjectMap) (condition : String × Value) : Bool :=
  match row[condition.1]? with
  | some cell => sameText caseSensitive condition.1 cell condition.2
  | none => false

def rowMatches (caseSensitive : Bool) (conditions : List (String × Value)) (row : ObjectMap) :
    Bool := conditions.all (meets caseSensitive row)

/-- A row cut down to the selected fields, all of which it must have. -/
def narrow (select : Option (List String)) (row : ObjectMap) : Except String ObjectMap :=
  match select with
  | none => .ok row
  | some keys =>
    match keys.find? fun key => row[key]?.isNone with
    | some key => .error s!"field {debugStr key} not found in enrichment table row"
    | none => .ok (row.filter fun key _ => key ∈ keys)

/-- The condition value that cannot be compared, by its error. -/
def badCondition (conditions : List (String × Value)) : Option String :=
  conditions.findSome? fun (field, value) => errorOf (comparableText field value)

/-- A lookup without an index: read every row in file order. -/
def plainScan (t : FileTable) (conditions : List (String × Value)) (caseSensitive : Bool)
    (select : Option (List String)) (wanted : Wanted) : Except String (List ObjectMap) :=
  match conditions.find? fun condition => condition.1 ∉ t.headers with
  | some (field, _) =>
    if t.rows = [] then .ok []
    else .error s!"field {debugStr field} not found in enrichment table"
  | none =>
    match badCondition conditions with
    | some e => .error e
    | none =>
      collectAll (narrow select) (wanted.take (t.rows.filter (rowMatches caseSensitive conditions)))

/-- What a lookup of one row is promised to make of the rows found. -/
def onlyRow (table : String) : List ObjectMap → Except String ObjectMap
  | [] => .error s!"No rows found in enrichment table {debugStr table}"
  | [row] => .ok row
  | _ => .error s!"More than one row found in enrichment table {debugStr table}"

end

def foundRows (rows : List ObjectMap) : Value := .array fun i => .ofMap (rows.get i)

end VectorVrl
