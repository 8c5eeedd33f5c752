import Mathlib.Data.Finset.Dedup
import VectorVrl.Patterns
import VectorVrl.Pipeline

namespace VectorVrl
open Lib.OrderedDict

/-- What `validate_field_extraction` reports, in exact arithmetic; the last is for results that
there are: the fields in any of them, and the first of them. -/
structure FieldValidation where
  success : Bool
  extractedFields : List String
  missingFields : List String
  fieldCount : Nat
  extractionRate : ℚ
  seen : Option (Finset String × PyVal)

def validateFieldExtraction (results : List PyVal) (expectedFields : List String) :
    Except PyError FieldValidation :=
  match results with
  | [] => .ok ⟨false, [], expectedFields, 0, 0, none⟩
  | sample :: _ =>
    (results.mapM (PyVal.having "keys")).map fun found =>
      let (extracted, missing) :=
        expectedFields.partition fun field => found.any fun result => field ∈ result.keys
      let extractionRate : ℚ :=
        if expectedFields ≠ [] then extracted.length / expectedFields.length * 100 else 0
      { success := missing.length = 0
        extractedFields := extracted
        missingFields := missing
        fieldCount := extracted.length
        extractionRate := extractionRate
        seen := some ((found.flatMap Dict.keys).toFinset, sample) }

structure TestReport where
  success : Bool
  inputCount : Nat
  outputCount : Nat
  results : List PyVal
  error : String
  fieldValidation : Option FieldValidation
  vrlCode : String

inductive TestError where
  | runtimeError (text : String)
  | load (e : LoadError)
  | fields (e : PyError)

def testReport (vrlCode : String) (inputLogs expectedFields : List String)
    (run : Bool × List PyVal × String) : Except PyError TestReport :=
  let (success, results, error) := run
  let report := fun fieldValidation : Option FieldValidation =>
    { success := success
      inputCount := inputLogs.length
      outputCount := results.length
      results := results
      error := error
      fieldValidation := fieldValidation
      vrlCode := vrlCode : TestReport }
  if expectedFields ≠ [] then
    (validateFieldExtraction results expectedFields).map fun validation => report (some validation)
  else .ok (report none)

def testVrlSimple [PyFloat] (installed : Installed)
    (vector : VectorConfig → List Char → VectorRun) (vrlCode : String) (inputLogs : List String)
    (expectedFields : Option (List String)) (dataDir outputFile : String) :
    Except TestError TestReport :=
  if !installed.found then
    .error (.runtimeError s!"Vector binary not found: {installed.vectorBinary}")
  else
    match testVrlWithVector vector vrlCode inputLogs dataDir outputFile with
    | .error e => .error (.load e)
    | .ok run => (testReport vrlCode inputLogs (expectedFields.getD []) run).mapError .fields

/-- The one transform that a program is tested as. -/
def testedTransform (vrlCode : String) : Transform :=
  ⟨[("type", .str "remap"), ("source", .str vrlCode)],
    List.pairwise_pair.mpr (ne_of_beq_false rfl)⟩

def HasField (objects : List JsonObject) (field : String) : Prop :=
  ∃ object ∈ objects, field ∈ object.keys.names

/-- A validation says of each expected field what the objects say. -/
structure FieldsExact (objects : List JsonObject) (expectedFields : List String)
    (validation : FieldValidation) : Prop where
  extracted : ∀ field, field ∈ validation.extractedFields ↔
    field ∈ expectedFields ∧ HasField objects field
  missing : ∀ field, field ∈ validation.missingFields ↔
    field ∈ expectedFields ∧ ¬HasField objects field
  account : (validation.extractedFields ++ validation.missingFields).Perm expectedFields
  success : validation.success = true ↔ ∀ field ∈ expectedFields, HasField objects field
  rate : validation.extractionRate * expectedFields.length = 100 * validation.fieldCount
  full : validation.extractionRate = 100 ↔ validation.success = true

end VectorVrl
