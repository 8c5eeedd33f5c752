import VectorVrl.Json
import VectorVrl.Lib.Framing
import VectorVrl.Lib.Lines
import VectorVrl.PyJson
import VectorVrl.VectorConfig

namespace VectorVrl
open Lib.Framing Lib.Lines Lib.OrderedDict

/-- What `str.isspace` says of a character. -/
def pyIsSpace (c : Char) : Bool := isWhitespace c || (0x1c ≤ c.toNat && c.toNat ≤ 0x1f)

def strip (text : List Char) : List Char :=
  ((text.dropWhile pyIsSpace).reverse.dropWhile pyIsSpace).reverse

/-- The newlines of a file read as text. -/
def universalNewlines : List Char → List Char
  | [] => []
  | c :: rest =>
    if c = '\r' then
      if rest.head? = some '\n' then universalNewlines rest else '\n' :: universalNewlines rest
    else c :: universalNewlines rest

/-- How a `vector` process ended: by itself, at the timeout, or not started. -/
inductive Completed where
  | exited (returncode : Int) (stderr : List Char)
  | timeoutExpired
  | osError (error : String)

structure VectorRun where
  completed : Completed
  outputFile : Option (List Char)

def stdinText (inputLogs : List String) : List Char :=
  inputLogs.flatMap fun log => log.toList ++ ['\n']

structure Decoded where
  results : List PyVal
  undecodable : List Nat

section
variable [PyFloat]

/-- The loop over the output's lines, ended by an error `json.loads` raises other
than its own. -/
def decodeLines : Nat → Decoded → List (List Char) → Except LoadError Decoded
  | _, decoded, [] => .ok decoded
  | number, decoded, line :: rest =>
    if strip line = [] then decodeLines (number + 1) decoded rest
    else
      match loads line with
      | .ok value =>
        decodeLines (number + 1) { decoded with results := decoded.results ++ [value] } rest
      | .error .jsonDecodeError =>
        decodeLines (number + 1)
          { decoded with undecodable := decoded.undecodable ++ [number] } rest
      | .error e => .error e

def listText (numbers : List Nat) : String :=
  "[" ++ ", ".intercalate (numbers.map toString) ++ "]"

def problems (returncode : Int) (stderr : List Char) (undecodable : List Nat) : List String :=
  (if returncode ≠ 0 then [s!"Vector exited {returncode}"] else []) ++
  (if undecodable ≠ [] then [s!"output lines {listText (undecodable.take 5)} are not JSON"]
    else []) ++
  if strip stderr ≠ [] then [String.ofList ((strip stderr).take 500)] else []

/-- Run logs through transforms, in order, in a real Vector, which `vector` stands
for; `timeout` is the bound as a message shows it. -/
def runRemapChain (vector : VectorConfig → List Char → VectorRun)
    (transforms : List (String × Transform)) (inputLogs : List String)
    (dataDir outputFile timeout : String) : Except LoadError (Bool × List PyVal × String) :=
  let run := vector (vectorConfig transforms dataDir outputFile) (stdinText inputLogs)
  match run.completed with
  | .timeoutExpired => .ok (false, [], s!"Vector did not finish within {timeout}s")
  | .osError error => .ok (false, [], s!"Vector execution error: {error}")
  | .exited returncode stderr =>
    let output := universalNewlines (run.outputFile.getD [])
    (decodeLines 1 ⟨[], []⟩ (splitLines output)).map fun decoded =>
      (returncode = 0 && decoded.undecodable.isEmpty, decoded.results,
        " | ".intercalate (problems returncode stderr decoded.undecodable))

end

/-- The lines Vector reads: what newlines separate, less an empty one at the end. -/
def linesRead (stdin : List Char) : List String := (unframe '\n' stdin).map String.ofList

end VectorVrl
