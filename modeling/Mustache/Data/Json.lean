import Mustache.Data.Number
import Mustache.Text.Quoted

/-!
# JSON Data

Data in the form of JSON values. An object lists its members by name in the
order of their code points, which is the order they are printed in.

## Main definitions

* `Json`: A JSON value.
* `Json.ofMembers`: The object with given members.
* `Json.isFalsy`, `Json.items?`, `Json.member?`, `Json.value`: The value as
  data of a template.
* `Json.compact`: The value as JSON text without blanks.
-/

namespace Mustache

/-- A JSON value. -/
inductive Json
  | null
  | bool (b : Bool)
  | number (n : Number)
  | text (s : String)
  | list (items : List Json)
  | object (members : List (String × Json))

namespace Json

/-- The members with one more, in the order of their names. A member of the same
    name is replaced. -/
def insertMember (name : String) (value : Json) : List (String × Json) → List (String × Json)
  | [] => [(name, value)]
  | (other, old) :: members =>
    if name < other then (name, value) :: (other, old) :: members
    else if name = other then (name, value) :: members
    else (other, old) :: insertMember name value members

/-- The object with the given members. Of members with the same name the last
    one counts. -/
def ofMembers (members : List (String × Json)) : Json :=
  object (members.foldl (fun sorted member => insertMember member.1 member.2 sorted) [])

mutual

/-- The value as JSON text without blanks. -/
def compact : Json → String
  | null => "null"
  | bool b => if b then "true" else "false"
  | number n => n.render .json
  | text s => Text.quoteJson s
  | list [] => "[]"
  | list (item :: items) => "[" ++ compact item ++ compactItems items ++ "]"
  | object [] => "\x7b\x7d"
  | object ((name, value) :: members) =>
    "\x7b" ++ Text.quoteJson name ++ ":" ++ compact value ++ compactMembers members ++ "\x7d"

/-- Further items of a list, each after a comma. -/
def compactItems : List Json → String
  | [] => ""
  | item :: items => "," ++ compact item ++ compactItems items

/-- Further members of an object, each after a comma. -/
def compactMembers : List (String × Json) → String
  | [] => ""
  | (name, value) :: members =>
    "," ++ Text.quoteJson name ++ ":" ++ compact value ++ compactMembers members

end

/-- Null, false and the empty list are falsy. -/
def isFalsy : Json → Bool
  | null => true
  | bool b => !b
  | list items => items.isEmpty
  | _ => false

/-- The items of a list. -/
def items? : Json → Option (List Json)
  | list items => some items
  | _ => none

/-- The member of an object with the given name. -/
def member? (name : String) : Json → Option Json
  | object members => members.lookup name
  | _ => none

/-- The text that stands for the value: a string itself, nothing for null, and
    the JSON text of all else. -/
def value : Json → String
  | text s => s
  | null => ""
  | other => other.compact

end Json

end Mustache
