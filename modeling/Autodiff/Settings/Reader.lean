import Autodiff.Settings
import Autodiff.Text.Json

/-!
# Settings from JSON texts

Settings are read from an object with all six members by name, in any order, or from an array of
the six values in order.  Unknown members are ignored, repeated ones are refused.  Policies are
read from their name, alone or as the only member of an object with the value null.
-/

namespace Autodiff

open Text

namespace Settings

def sizeOf? : Json → Option Nat
  | .natural n => some n
  | _ => none

def flagOf? : Json → Option Bool
  | .bool b => some b
  | _ => none

def names : List String := (({} : Settings).sizes.map fun size => size.1) ++ [clearName]

def ofValues? : List Json → Option Settings
  | [s, p, t, b, i, c] => do
    return {
      statementChunk := ← sizeOf? s
      partialChunk := ← sizeOf? p
      tokenChunk := ← sizeOf? t
      byteChunk := ← sizeOf? b
      initialSlots := ← sizeOf? i
      clearOnReset := ← flagOf? c }
  | _ => none

/-- The value of the only member with a name. -/
def onlyMember? (members : List (Option String × Json)) (name : String) : Option Json :=
  match members.filter fun m => m.1 == some name with
  | [m] => some m.2
  | _ => none

def ofJson? : Json → Option Settings
  | .array values => ofValues? values
  | .object members =>
    if members.all fun m => m.1.isSome then
      (names.mapM (onlyMember? members)).bind ofValues?
    else none
  | _ => none

def parse? (s : String) : Option Settings := (Json.parse? s).bind ofJson?

end Settings

/-- The name that a JSON value gives to a case of an enumeration. -/
def caseName? : Json → Option String
  | .string name => name
  | .object [(name, .null)] => name
  | _ => none

def Checking.parse? (s : String) : Option Checking := do
  let name ← (Json.parse? s).bind caseName?
  Checking.all.find? fun c => c.text == name

def Management.parse? (s : String) : Option Management := do
  let name ← (Json.parse? s).bind caseName?
  Management.all.find? fun m => m.text == name

end Autodiff
