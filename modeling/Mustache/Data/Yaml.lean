import Mustache.Data.Json

/-!
# YAML Data

Data in the form of YAML values. The entries of a mapping may have any value
for a key, but only strings are names of members. A tag carries no meaning for
a template: a tagged value behaves as its content.

## Main definitions

* `Yaml`: A YAML value.
* `Yaml.ofEntries`: The mapping with given entries.
* `Yaml.isFalsy`, `Yaml.items?`, `Yaml.member?`, `Yaml.value`: The value as
  data of a template.
* `Yaml.toJson?`: The value as JSON, where tags are kept as objects.
-/

namespace Mustache

/-- A YAML value. -/
inductive Yaml
  | null
  | bool (b : Bool)
  | number (n : Number)
  | text (s : String)
  | list (items : List Yaml)
  | map (entries : List (Yaml × Yaml))
  | tagged (tag : String) (content : Yaml)

namespace Yaml

mutual

/-- The values are equal as keys of a mapping. -/
def same : Yaml → Yaml → Bool
  | null, null => true
  | bool a, bool b => a == b
  | number m, number n => m.same n
  | text s, text t => s == t
  | list xs, list ys => sameItems xs ys
  | map xs, map ys => sameEntries xs ys
  | tagged s x, tagged t y => s == t && same x y
  | _, _ => false

/-- The lists hold equal values. -/
def sameItems : List Yaml → List Yaml → Bool
  | [], [] => true
  | x :: xs, y :: ys => same x y && sameItems xs ys
  | _, _ => false

/-- The mappings hold equal entries in the same order. -/
def sameEntries : List (Yaml × Yaml) → List (Yaml × Yaml) → Bool
  | [], [] => true
  | (j, x) :: xs, (k, y) :: ys => same j k && same x y && sameEntries xs ys
  | _, _ => false

end

/-- The entries with one more. The value of an entry with an equal key is
    replaced where it stands. -/
def insertEntry (key value : Yaml) : List (Yaml × Yaml) → List (Yaml × Yaml)
  | [] => [(key, value)]
  | (other, old) :: entries =>
    if same other key then (other, value) :: entries
    else (other, old) :: insertEntry key value entries

/-- The mapping with the given entries. -/
def ofEntries (entries : List (Yaml × Yaml)) : Yaml :=
  map (entries.foldl (fun found entry => insertEntry entry.1 entry.2 found) [])

/-- Null, false and the empty list are falsy, with a tag or without. -/
def isFalsy : Yaml → Bool
  | null => true
  | bool b => !b
  | list items => items.isEmpty
  | tagged _ content => isFalsy content
  | _ => false

/-- The items of a list. -/
def items? : Yaml → Option (List Yaml)
  | list items => some items
  | tagged _ content => items? content
  | _ => none

/-- The value of the entry whose key is the given string. -/
def lookupText (name : String) : List (Yaml × Yaml) → Option Yaml
  | [] => none
  | (text key, value) :: entries => if key = name then some value else lookupText name entries
  | _ :: entries => lookupText name entries

/-- The member of a mapping with the given name. -/
def member? (name : String) : Yaml → Option Yaml
  | map entries => lookupText name entries
  | tagged _ content => member? name content
  | _ => none

/-- The text that stands for the value. Only strings, numbers and booleans have
    one. -/
def value : Yaml → String
  | text s => s
  | number n => n.render .yaml
  | bool b => if b then "true" else "false"
  | tagged _ content => value content
  | _ => ""

/-- The number as JSON, which has no infinities. -/
def numberToJson : Number → Json
  | .int n => .number (.int n)
  | .float x => if x.isFinite then .number (.float x) else .null

/-- The name of a member of a JSON object that a key turns into. Only plain
    scalars have one. -/
def memberName? : Yaml → Option String
  | text s => some s
  | bool b => some (if b then "true" else "false")
  | number (.int n) => some (Int.repr n)
  | number (.float x) => if x.isFinite then some (Decimal.Style.json.render x) else none
  | _ => none

/-- The name of a tag with one exclamation mark before it. -/
def tagName (tag : String) : String :=
  match tag.toList with
  | ['!'] => "!!"
  | '!' :: name => String.ofList ('!' :: name)
  | name => String.ofList ('!' :: name)

mutual

/-- The value as JSON. A tagged value becomes an object with the tag as its only
    member. There is no JSON for a mapping with a key that is no plain
    scalar. -/
def toJson? : Yaml → Option Json
  | null => some .null
  | bool b => some (.bool b)
  | number n => some (numberToJson n)
  | text s => some (.text s)
  | list items => (itemsToJson? items).map .list
  | map entries => (entriesToJson? entries).map Json.ofMembers
  | tagged tag content => (toJson? content).map fun value => .object [(tagName tag, value)]

/-- The items of a list as JSON. -/
def itemsToJson? : List Yaml → Option (List Json)
  | [] => some []
  | item :: items =>
    (toJson? item).bind fun value => (itemsToJson? items).map fun values => value :: values

/-- The entries of a mapping as members of a JSON object. -/
def entriesToJson? : List (Yaml × Yaml) → Option (List (String × Json))
  | [] => some []
  | (key, content) :: entries =>
    (memberName? key).bind fun name =>
      (toJson? content).bind fun value =>
        (entriesToJson? entries).map fun members => (name, value) :: members

end

end Yaml

end Mustache
