import Mustache.Text.Quoted

/-!
# Data Built by the Host

Data that the program around the templates builds: plain values, lists and
maps, and in addition functions of the program itself. Such a *callable* takes
no argument, or the text of a section's body, and makes new data. It may
depend on the state of the host and change it, so looking at this data is an
effect: every call is made on the host's state and is written down.

## Main definitions

* `Call`: A call that was made.
* `Host`: The state of the host and the calls made so far.
* `Calling`: A computation that may call into the host.
* `Tree`: Data built by the host.
* `Tree.member`: The member of a map, called where it is a callable.
* `Tree.lambda?`: The text of a callable that makes text.
* `Tree.inspect`: The data as it is shown for inspection.
-/

namespace Mustache

/-- A call of a callable, with its label and its argument. -/
structure Call where
  label : String
  argument : Option String
deriving DecidableEq, Repr

/-- The state of the host and the calls made into it, in order. -/
structure Host (σ : Type) where
  state : σ
  calls : List Call := []

/-- A computation that may call into the host. -/
abbrev Calling (σ : Type) := StateM (Host σ)

/-- Data built by a host with states `σ`. -/
inductive Tree (σ : Type)
  | null
  | bool (b : Bool)
  | text (s : String)
  | list (items : List (Tree σ))
  | map (members : List (String × Tree σ))
  /-- A function without argument. -/
  | callable0 (label : String) (run : σ → Tree σ × σ)
  /-- A function of the text of a section's body. -/
  | callable1 (label : String) (run : String → σ → Tree σ × σ)

/-- Makes a call on the state of the host and writes it down. -/
def Calling.call {σ α : Type} (call : Call) (run : σ → α × σ) : Calling σ α := fun host =>
  let (result, state) := run host.state
  (result, { state := state, calls := host.calls ++ [call] })

namespace Tree

variable {σ : Type}

/-- Null, false and the empty list are falsy. A callable is not. -/
def isFalsy : Tree σ → Bool
  | null => true
  | bool b => !b
  | list items => items.isEmpty
  | _ => false

/-- The items of a list. -/
def items? : Tree σ → Option (List (Tree σ))
  | list items => some items
  | _ => none

/-- The text that stands for the data. Only texts and booleans have one. -/
def value : Tree σ → String
  | text s => s
  | bool b => if b then "true" else "false"
  | _ => ""

/-- The text that a callable without argument makes, if it makes text. It is
    called to find out. -/
def lambda? : Tree σ → Calling σ (Option String)
  | callable0 label run => do
    match ← Calling.call ⟨label, none⟩ run with
    | text s => return some s
    | _ => return none
  | _ => return none

mutual

/-- The data as it is shown for inspection, where callables show only the number
    of their arguments. -/
def inspect : Tree σ → String
  | null => "null"
  | bool b => if b then "true" else "false"
  | text s => Text.quoteInspected s
  | list [] => "[]"
  | list (item :: items) => "[" ++ inspect item ++ inspectItems items ++ "]"
  | map [] => "\x7b\x7d"
  | map ((name, data) :: members) =>
    "\x7b" ++ Text.quoteInspected name ++ ": " ++ inspect data ++ inspectMembers members ++ "\x7d"
  | callable0 _ _ => "<lambda0>"
  | callable1 _ _ => "<lambda1>"

/-- Further items of a list, each after a comma. -/
def inspectItems : List (Tree σ) → String
  | [] => ""
  | item :: items => ", " ++ inspect item ++ inspectItems items

/-- Further members of a map, each after a comma. -/
def inspectMembers : List (String × Tree σ) → String
  | [] => ""
  | (name, data) :: members =>
    ", " ++ Text.quoteInspected name ++ ": " ++ inspect data ++ inspectMembers members

end

end Tree

end Mustache
