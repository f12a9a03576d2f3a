import Mustache.Data.Walk

/-!
# One Piece of Data in Three Forms

The same data as JSON, as YAML and as data of the host. What all forms have in
common is null, truth values, texts, lists, and maps from texts; whole numbers are
there in JSON and YAML, and a host writes them down as text. Each form keeps the
members of a map in an order of its own: by their names, or in the order in which
the names came up first, or last. But a member is looked up by its name, and of
members with one name the last one counts in all of them.

So a walk through the data goes the same way in each form, as it looks for names and
counts items only. What it comes to are again the three forms of one piece of data.
These look alike, but for the text that stands for a list or a map: JSON has one, and
the others have none.

## Main definitions

* `Plain`: Data that has all forms.
* `Plain.walk`: Where steps lead to in it.
* `Builder`, `Plain.build`: Data put together in a form.
* `Form`, `Form.node`: The three forms.
* `Plain.IsShownBy`: Data of a template that looks like it.

## Theorems

* `lookup_foldl`: The last member of a name is found, whatever the order in which a
  form keeps them.
* `Form.member_node`, `Form.items?_node`: One step in each form.
* `Form.walk_node`: Any number of steps.
* `Plain.walks_agree`: Walks agree in all forms.
-/

namespace Mustache

section

variable {α β : Type}

/-- The first member is found if it has the name. -/
theorem lookup_cons_eq (name key : String) (value : β) (members : List (String × β)) :
    ((key, value) :: members).lookup name =
      if name = key then some value else members.lookup name := by
  rw [List.lookup_cons]
  by_cases h : name = key
  · rw [if_pos h, beq_iff_eq.mpr h]
  · rw [if_neg h, beq_eq_false_iff_ne.mpr h]

/-- What is made of the members is made of the one that is found. -/
theorem lookup_map (make : α → β) (name : String) (members : List (String × α)) :
    (members.map fun member => (member.1, make member.2)).lookup name =
      (members.lookup name).map make := by
  induction members with
  | nil => rfl
  | cons member members ih =>
      rcases member with ⟨key, value⟩
      rw [List.map_cons, lookup_cons_eq, lookup_cons_eq, ih]
      by_cases h : name = key
      · rw [if_pos h, if_pos h, Option.map_some]
      · rw [if_neg h, if_neg h]

/-- Members are put in one after the other, each in place of the one before it that
    has its name. So the last one of a name is found. -/
theorem lookup_foldl {γ : Type} {find : String → γ → Option β} {insert : String → β → γ → γ}
    (hinsert : ∀ name key value found,
      find name (insert key value found) = if name = key then some value else find name found)
    (name : String) (members : List (String × β)) (found : γ) :
    find name (members.foldl (fun found member => insert member.1 member.2 found) found) =
      (members.reverse.lookup name).or (find name found) := by
  induction members generalizing found with
  | nil => rfl
  | cons member members ih =>
      rcases member with ⟨key, value⟩
      rw [List.foldl_cons, ih, hinsert, List.reverse_cons, List.lookup_append, lookup_cons_eq,
        Option.or_assoc]
      by_cases h : name = key
      · rw [if_pos h, if_pos h, Option.some_or]
      · rw [if_neg h, if_neg h]
        rfl

end

namespace Json

/-- JSON keeps one member of a name, and it has the value that was put in last. -/
theorem lookup_insertMember (name key : String) (value : Json) (members : List (String × Json)) :
    (insertMember key value members).lookup name =
      if name = key then some value else members.lookup name := by
  induction members with
  | nil => rw [insertMember, lookup_cons_eq]
  | cons member members ih =>
      rcases member with ⟨other, old⟩
      rw [insertMember]
      -- The member goes before the first one with a greater name, or takes the place of
      -- one.
      by_cases hlt : key < other
      · rw [if_pos hlt, lookup_cons_eq]
      · rw [if_neg hlt]
        by_cases heq : key = other
        · rw [if_pos heq, lookup_cons_eq, lookup_cons_eq, heq]
          by_cases hname : name = other
          · rw [if_pos hname, if_pos hname]
          · rw [if_neg hname, if_neg hname, if_neg hname]
        · rw [if_neg heq, lookup_cons_eq, lookup_cons_eq, ih]
          by_cases hname : name = other
          · rw [if_pos hname, if_pos hname, if_neg (fun h => heq (h.symm.trans hname))]
          · rw [if_neg hname, if_neg hname]

theorem member?_ofMembers (name : String) (members : List (String × Json)) :
    (ofMembers members).member? name = members.reverse.lookup name := by
  rw [ofMembers, member?]
  exact (lookup_foldl lookup_insertMember name members []).trans Option.or_none

end Json

namespace Yaml

/-- The value of a text key is replaced where it stands, and no other key is the
    same. -/
theorem lookupText_insertEntry (name key : String) (value : Yaml) (entries : List (Yaml × Yaml)) :
    lookupText name (insertEntry (.text key) value entries) =
      if name = key then some value else lookupText name entries := by
  induction entries with
  | nil =>
      rw [insertEntry, lookupText, lookupText]
      by_cases hname : name = key
      · rw [if_pos hname, if_pos hname.symm]
      · rw [if_neg hname, if_neg (Ne.symm hname), lookupText]
  | cons entry entries ih =>
      rcases entry with ⟨other, old⟩
      cases other with
      | text s =>
          rw [insertEntry, same, lookupText]
          by_cases hkey : s = key
          · rw [if_pos (beq_iff_eq.mpr hkey), lookupText, hkey]
            by_cases hname : name = key
            · rw [if_pos hname, if_pos hname.symm]
            · rw [if_neg hname, if_neg (Ne.symm hname), if_neg (Ne.symm hname)]
          · rw [if_neg (by rwa [beq_iff_eq]), lookupText, ih]
            by_cases hname : s = name
            · rw [if_pos hname, if_pos hname, if_neg fun h => hkey (hname.trans h)]
            · rw [if_neg hname, if_neg hname]
      | _ => exact ih

/-- The mapping with texts for keys. -/
def ofMembers (members : List (String × Yaml)) : Yaml :=
  ofEntries (members.map fun member => (.text member.1, member.2))

theorem member?_ofMembers (name : String) (members : List (String × Yaml)) :
    (ofMembers members).member? name = members.reverse.lookup name := by
  rw [ofMembers, ofEntries, List.foldl_map, member?]
  exact (lookup_foldl lookupText_insertEntry name members []).trans Option.or_none

end Yaml

namespace Tree

variable {σ : Type}

/-- The members with one more at the end. A member of the same name is taken out. -/
def insertMember (name : String) (data : Tree σ) (members : List (String × Tree σ)) :
    List (String × Tree σ) :=
  members.filter (fun member => member.1 != name) ++ [(name, data)]

/-- The map with the given members. Of members with the same name the last one
    counts. -/
def ofMembers (members : List (String × Tree σ)) : Tree σ :=
  map (members.foldl (fun found member => insertMember member.1 member.2 found) [])

/-- A host takes out the member of a name before it puts in another one at the
    end. -/
theorem lookup_insertMember (name key : String) (data : Tree σ)
    (members : List (String × Tree σ)) :
    (insertMember key data members).lookup name =
      if name = key then some data else members.lookup name := by
  rw [insertMember, List.lookup_append, lookup_cons_eq]
  induction members with
  | nil => rfl
  | cons member members ih =>
      rcases member with ⟨other, old⟩
      rw [List.filter_cons, lookup_cons_eq]
      by_cases hother : other = key
      · -- The old member of the name is gone.
        rw [if_neg (by rw [bne_iff_ne]; exact not_not_intro hother), ih]
        by_cases hname : name = key
        · rw [if_pos hname, if_pos hname]
        · rw [if_neg hname, if_neg hname, if_neg fun h => hname (h.trans hother)]
      · rw [if_pos (by rwa [bne_iff_ne]), lookup_cons_eq]
        by_cases hname : name = other
        · rw [if_pos hname, if_pos hname, Option.some_or,
            if_neg fun h => hother (hname.symm.trans h)]
        · rw [if_neg hname, if_neg hname, ih]

theorem lookup_ofMembers (name : String) (members : List (String × Tree σ)) :
    (members.foldl (fun found member => insertMember member.1 member.2 found) []).lookup name =
      members.reverse.lookup name :=
  (lookup_foldl lookup_insertMember name members []).trans Option.or_none

end Tree

/-- Data that has all forms. Of members with the same name the last one counts. -/
inductive Plain
  | null
  | bool (b : Bool)
  | int (n : Int)
  | text (s : String)
  | list (items : List Plain)
  | map (members : List (String × Plain))

/-- How data is put together in some form. -/
structure Builder (α : Type) where
  null : α
  bool : Bool → α
  int : Int → α
  text : String → α
  list : List α → α
  map : List (String × α) → α

namespace Plain

section

variable {α : Type}

mutual

/-- The data in a form. -/
def build (builder : Builder α) : Plain → α
  | null => builder.null
  | bool b => builder.bool b
  | int n => builder.int n
  | text s => builder.text s
  | list items => builder.list (buildItems builder items)
  | map members => builder.map (buildMembers builder members)

/-- The items of a list in a form. -/
def buildItems (builder : Builder α) : List Plain → List α
  | [] => []
  | item :: items => build builder item :: buildItems builder items

/-- The members of a map in a form. -/
def buildMembers (builder : Builder α) : List (String × Plain) → List (String × α)
  | [] => []
  | (name, data) :: members => (name, build builder data) :: buildMembers builder members

end

/-- The items of a list are put together one by one. -/
theorem build_list (builder : Builder α) (items : List Plain) :
    (list items).build builder = builder.list (items.map (build builder)) := by
  have hitems : buildItems builder items = items.map (build builder) := by
    induction items with
    | nil => rw [buildItems, List.map_nil]
    | cons item items ih => rw [buildItems, List.map_cons, ih]
  rw [build, hitems]

/-- So are the members of a map. -/
theorem build_map (builder : Builder α) (members : List (String × Plain)) :
    (map members).build builder =
      builder.map (members.map fun member => (member.1, member.2.build builder)) := by
  have hmembers : buildMembers builder members =
      members.map fun member => (member.1, member.2.build builder) := by
    induction members with
    | nil => rw [buildMembers, List.map_nil]
    | cons member members ih => rw [buildMembers, List.map_cons, ih]
  rw [build, hmembers]

end

/-- The member of a map with the given name. -/
def member? (name : String) : Plain → Option Plain
  | map members => members.reverse.lookup name
  | _ => none

/-- The items of a list. -/
def items? : Plain → Option (List Plain)
  | list items => some items
  | _ => none

/-- Null, false and the empty list are falsy. -/
def isFalsy : Plain → Bool
  | null => true
  | bool b => !b
  | list items => items.isEmpty
  | _ => false

/-- The text of data that is neither a list nor a map. -/
def value : Plain → String
  | bool b => if b then "true" else "false"
  | int n => Int.repr n
  | text s => s
  | _ => ""

/-- The data is neither a list nor a map. -/
def isScalar : Plain → Bool
  | list _ => false
  | map _ => false
  | _ => true

/-- Where a step leads to. -/
def move (data : Plain) : Move → Except Move.Failure Plain
  | .member name _ =>
    match data.member? name with
    | some found => .ok found
    | none => .error .noMember
  | .item index =>
    match data.items? with
    | none => .error .noList
    | some items =>
      match items[index]? with
      | some item => .ok item
      | none => .error .noItem

/-- Where several steps lead to, or why one of them cannot be made. -/
def walk (data : Plain) : List Move → Except Move.Failure Plain
  | [] => .ok data
  | move :: moves =>
    match data.move move with
    | .ok found => found.walk moves
    | .error failure => .error failure

/-- A walk that fails does so at one of its steps, and comes as far as that. -/
theorem exists_of_walk_error {data : Plain} {moves : List Move} {failure : Move.Failure}
    (h : data.walk moves = .error failure) :
    ∃ front move back found, moves = front ++ move :: back ∧ data.walk front = .ok found ∧
      found.move move = .error failure := by
  induction moves generalizing data with
  | nil => cases h
  | cons move moves ih =>
      rw [walk] at h
      -- The walk fails at this step or after it.
      cases hmove : data.move move with
      | error failure' =>
          rw [hmove] at h
          rw [← Except.error.inj h]
          exact ⟨[], move, moves, data, rfl, rfl, hmove⟩
      | ok next =>
          rw [hmove] at h
          rcases ih h with ⟨front, last, back, found, rfl, hfront, hlast⟩
          refine ⟨move :: front, last, back, found, rfl, ?_, hlast⟩
          rw [walk, hmove]
          exact hfront

end Plain

/-- The forms of data. -/
inductive Form
  | json
  | yaml
  | tree
deriving DecidableEq

namespace Form

variable {σ : Type}

/-- JSON data. -/
def jsonBuilder : Builder Json where
  null := .null
  bool := .bool
  int n := .number (.int n)
  text := .text
  list := .list
  map := .ofMembers

/-- YAML data. -/
def yamlBuilder : Builder Yaml where
  null := .null
  bool := .bool
  int n := .number (.int n)
  text := .text
  list := .list
  map := .ofMembers

/-- Data of the host, which writes numbers down as text. -/
def treeBuilder : Builder (Tree σ) where
  null := .null
  bool := .bool
  int n := .text (Int.repr n)
  text := .text
  list := .list
  map := .ofMembers

/-- The data in one of its forms. -/
def node (form : Form) (data : Plain) : Node σ :=
  match form with
  | json => .json (data.build jsonBuilder)
  | yaml => .yaml (data.build yamlBuilder)
  | tree => .tree (data.build treeBuilder)

theorem isFalsy_node (form : Form) (data : Plain) :
    (form.node data : Node σ).isFalsy = data.isFalsy := by
  cases data with
  | list items => cases items <;> cases form <;> rfl
  | _ => cases form <;> rfl

theorem value_node (form : Form) {data : Plain} (h : data.isScalar = true) :
    (form.node data : Node σ).value = data.value := by
  cases data with
  | list items => cases h
  | map members => cases h
  | _ => cases form <;> rfl

/-- The items of a form are the forms of the items. -/
theorem items?_node (form : Form) (data : Plain) :
    (form.node data : Node σ).items? = data.items?.map (List.map form.node) := by
  cases data with
  | list items =>
      cases form
      all_goals
        rw [node, Plain.build_list]
        exact congrArg some List.map_map
  | _ => cases form <;> rfl

/-- The last member of a name stands for itself in every form. -/
theorem lookup_reverse {α : Type} (builder : Builder α) (name : String)
    (members : List (String × Plain)) :
    (members.map fun member => (member.1, member.2.build builder)).reverse.lookup name =
      (members.reverse.lookup name).map (Plain.build builder) := by
  rw [← List.map_reverse, lookup_map]

/-- The member of a form is the form of the member. -/
theorem member_node (form : Form) (data : Plain) (name : String) (body : Option String) :
    (form.node data : Node σ).member name body = pure ((data.member? name).map form.node) := by
  cases data with
  | map members =>
      cases form with
      | json =>
          rw [node, Plain.build_map, Node.member]
          change pure ((Json.ofMembers _).member? name |>.map Node.json) = _
          rw [Json.member?_ofMembers, lookup_reverse, Option.map_map]
          rfl
      | yaml =>
          rw [node, Plain.build_map, Node.member]
          change pure ((Yaml.ofMembers _).member? name |>.map Node.yaml) = _
          rw [Yaml.member?_ofMembers, lookup_reverse, Option.map_map]
          rfl
      | tree =>
          rw [node, Plain.build_map, Node.member]
          change Node.treeMember name body (Tree.ofMembers _) = _
          rw [Tree.ofMembers, Node.treeMember.eq_def]
          dsimp only
          rw [Tree.lookup_ofMembers, lookup_reverse, Plain.member?]
          cases members.reverse.lookup name with
          | none => rfl
          | some found =>
              -- What is found is no callable, so it is not called.
              cases found <;> rfl
  | _ => cases form <;> rfl

theorem lambda?_node (form : Form) (data : Plain) :
    (form.node data : Node σ).lambda? = pure none := by
  cases form with
  | json => rfl
  | yaml => rfl
  | tree => cases data <;> rfl

/-- A step in a form leads to the form of where it leads to in the data. -/
theorem move_node (form : Form) (data : Plain) (move : Move) :
    (form.node data : Node σ).move move = pure ((data.move move).map form.node) := by
  cases move with
  | member name body =>
      rw [Node.move, member_node, pure_bind, Plain.move]
      cases data.member? name with
      | none => rfl
      | some found => rfl
  | item index =>
      -- An item is there in the form if it is there in the data.
      rw [Node.move, items?_node, Plain.move]
      cases data.items? with
      | none => rfl
      | some items =>
          simp only [Option.map_some, List.getElem?_map]
          cases items[index]? with
          | none => rfl
          | some item => rfl

/-- A walk goes in every form as it goes in the data itself, and calls nothing. -/
theorem walk_node (form : Form) (data : Plain) (moves : List Move) :
    (form.node data : Node σ).walk moves = pure ((data.walk moves).map form.node) := by
  -- One step at a time, in the form and in the data.
  induction moves generalizing data with
  | nil => rfl
  | cons move moves ih =>
      rw [Node.walk, move_node, pure_bind, Plain.walk]
      cases data.move move with
      | error failure => rfl
      | ok found => exact ih found

end Form

/-- The node looks like the data. It is falsy if the data is, it has as many items if
    the data has any, and it has the text of data that is neither a list nor a map.
    There is no template to render in its place, and nothing is called to find out. -/
structure Plain.IsShownBy {σ : Type} (data : Plain) (node : Node σ) : Prop where
  isFalsy : node.isFalsy = data.isFalsy
  length_items? : node.items?.map List.length = data.items?.map List.length
  lambda? : node.lambda? = pure none
  value : data.isScalar = true → node.value = data.value

namespace Plain

/-- All forms of the data look like it, so they look alike. -/
theorem isShownBy_node {σ : Type} (data : Plain) (form : Form) :
    data.IsShownBy (form.node data : Node σ) where
  isFalsy := Form.isFalsy_node form data
  length_items? := by
    rw [Form.items?_node]
    cases data.items? with
    | none => rfl
    | some items => simp only [Option.map_some, List.length_map]
  lambda? := Form.lambda?_node form data
  value := Form.value_node form

/-- A walk through data goes the same way in all its forms. If it comes to its end,
    it does so in each of them, at the forms of one piece of data, and these look
    alike. If it fails, it goes as far as the same step in each of them, which then
    fails for the same reason. Whole numbers are among the data, and a host has their
    text. -/
theorem walks_agree (σ : Type) (data : Plain) (moves : List Move) :
    match data.walk moves with
    | .ok found =>
      ∀ form : Form, (form.node data : Node σ).walk moves = pure (.ok (form.node found)) ∧
        found.IsShownBy (form.node found : Node σ)
    | .error failure =>
      ∃ front move back found, moves = front ++ move :: back ∧
        ∀ form : Form,
          (form.node data : Node σ).walk front = pure (.ok (form.node found)) ∧
          (form.node found : Node σ).move move = pure (.error failure) ∧
          (form.node data : Node σ).walk moves = pure (.error failure) := by
  cases hwalk : data.walk moves with
  | ok found =>
      intro form
      rw [Form.walk_node, hwalk, Except.map]
      exact ⟨rfl, isShownBy_node found form⟩
  | error failure =>
      rcases exists_of_walk_error hwalk with ⟨front, move, back, found, hmoves, hfront, hmove⟩
      refine ⟨front, move, back, found, hmoves, fun form => ⟨?_, ?_, ?_⟩⟩
      · rw [Form.walk_node, hfront, Except.map]
      · rw [Form.move_node, hmove, Except.map]
      · rw [Form.walk_node, hwalk, Except.map]

-- The second member of a name is found in every form, and its second item.
example (form : Form) :
    (form.node (.map [("a", .null), ("a", .list [.int 1, .int (-2)])]) : Node Unit).walk
      [.member "a" none, .item 1] = pure (.ok (form.node (.int (-2)))) := by
  cases form <;> rfl

end Plain

end Mustache
