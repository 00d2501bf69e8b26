import ToffoliBench.Decimal.Reading
import ToffoliBench.Fault
import ToffoliBench.Json

namespace ToffoliBench.Exchange

def isWhole (cs : List Char) : Bool :=
  match cs with
  | '-' :: rest => rest.all Char.isDigit && rest != ['0']
  | _ => cs.all Char.isDigit

def int? (range : Int → Bool) : Json → Option Int
  | .number spelling => if isWhole spelling.toList then Text.intIn? range spelling.toList else none
  | _ => none

def nat? (limit : Nat) (j : Json) : Option Nat :=
  (int? (fun x => decide (0 ≤ x) && decide (x ≤ limit)) j).map Int.toNat

def word? (j : Json) : Option Nat := nat? Range.maxWord j

def float? : Json → Option Float
  | .number spelling => Decimal.float? spelling.toList
  | _ => none

def text? : Json → Option String
  | .string s => some s
  | _ => none

def flag? : Json → Option Bool
  | .bool b => some b
  | _ => none

def list? (item? : Json → Option α) : Json → Option (List α)
  | .array items => items.mapM item?
  | _ => none

def maybe? (item? : Json → Option α) : Json → Option (Option α)
  | .null => some none
  | j => (item? j).map some

-- the name alone, or as a field with nothing in it
def choice? (names : List (String × α)) : Json → Option α
  | .string s => names.lookup s
  | .object [(s, .null)] => names.lookup s
  | _ => none

abbrev Fields := List (String × Json)

-- A record is an object, or an array of its fields in order; fields it does not have are passed over.
def fields? (names : List String) : Json → Option Fields
  | .object fields => some fields
  | .array items => if items.length = names.length then some (names.zip items) else none
  | _ => none

def closedFields? (names : List String) (j : Json) : Option Fields :=
  (fields? names j).filter fun fields => fields.all fun field => names.contains field.1

def field? (fields : Fields) (name : String) (item? : Json → Option α) : Option α :=
  (fields.lookup name).bind item?

def maybeField? (fields : Fields) (name : String) (item? : Json → Option α) : Option (Option α) :=
  maybe? item? ((fields.lookup name).getD .null)

end ToffoliBench.Exchange
