/-!
# Errors

What can go wrong in an operation, and the sentence that says so. Names of operations, kinds of
value and alternatives are texts; a value that is quoted in a message was printed when the
operation failed.
-/

namespace DynVal

inductive Error where
  | typeMismatch (op expected got : String)
  | indexOutOfBounds (op : String) (index : Int) (length : Nat)
  | missingKey (op key : String) (available : List String)
  | unknownField (record field : String) (available : List String)
  | duplicateField (context field : String)
  | noMethod (method value type : String) (available : List String)
  | undecodable (node message : String)
  | unencodable (type value : String)
  | arity (name : String) (expected got : Nat)
  | host (reason : String)
  | native (reason : String)
deriving DecidableEq

namespace Error

/-- The list of valid choices at the end of a message. -/
def alternatives : List String → String
  | [] => ""
  | names => ", available: " ++ String.intercalate " " names

def message : Error → String
  | .typeMismatch op expected got => s!"{op}: expected {expected}, got {got}"
  | .indexOutOfBounds op index length => s!"{op}: index {index} out of bounds for length {length}"
  | .missingKey op key available => s!"{op}: cannot find {key}" ++ alternatives available
  | .unknownField record field available =>
    s!"unknown field {field} for record {record}" ++ alternatives available
  | .duplicateField context field => s!"duplicate field {field} in {context}"
  | .noMethod method value type available =>
    s!"no method {method} for {value} (type {type})" ++ alternatives available
  | .undecodable node reason => s!"cannot decode {node}: {reason}"
  | .unencodable type value => s!"cannot encode {type} value {value}"
  | .arity name expected got =>
    s!"wrong number of arguments to '{name}': expected {expected}, got {got}"
  | .host reason => "host error: " ++ reason
  | .native reason => reason

/-- An index past the end; indices above the largest signed 64-bit integer are reported as it. -/
def index (op : String) (i length : Nat) : Error :=
  .indexOutOfBounds op (min i 0x7fffffffffffffff) length

end Error
end DynVal
