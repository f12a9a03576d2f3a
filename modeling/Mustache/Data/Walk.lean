import Mustache.Data.Node

/-!
# Walks Through Data

Going through data by hand: from one piece of data to a member of it or to an
item of it, as a template does when it follows names and goes through lists.

## Main definitions

* `Move`: One step of a walk.
* `Move.Failure`: Why a step cannot be made.
* `Node.move`, `Node.walk`: Where steps lead to.
-/

namespace Mustache

/-- One step from a piece of data to another. -/
inductive Move
  /-- To the member with a name, looked up with the body of a section or
      without. -/
  | member (name : String) (body : Option String)
  /-- To the item with an index, counted from zero. -/
  | item (index : Nat)
deriving DecidableEq, Repr

/-- Why a step cannot be made. -/
inductive Move.Failure
  | noMember
  | noList
  | noItem
deriving DecidableEq, Repr

namespace Node

variable {σ : Type}

/-- Where a step leads to. -/
def move (data : Node σ) : Move → Calling σ (Except Move.Failure (Node σ))
  | .member name body => do
    match ← data.member name body with
    | some found => return .ok found
    | none => return .error .noMember
  | .item index =>
    match data.items? with
    | none => return .error .noList
    | some items =>
      match items[index]? with
      | some item => return .ok item
      | none => return .error .noItem

/-- Where several steps lead to, or why one of them cannot be made. -/
def walk (data : Node σ) : List Move → Calling σ (Except Move.Failure (Node σ))
  | [] => return .ok data
  | move :: moves => do
    match ← data.move move with
    | .ok found => found.walk moves
    | .error failure => return .error failure

end Node

end Mustache
