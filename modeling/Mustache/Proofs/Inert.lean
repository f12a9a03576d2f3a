import Mustache.Scope

/-!
# Inert Data

Data that can be looked at without calling into the host. Documents are always
inert, and data built by the host is when there is no callable anywhere in it.
In a scope of inert data a name refers to one and the same data at all times,
so looking it up is a function of the scope alone.

## Main definitions

* `Tree.IsInert`, `Node.IsInert`, `Scope.IsInert`: Data without callables.
* `Node.member?`, `Scope.resolve?`: What lookups find in it.

## Theorems

* `Node.member_of_isInert`, `Scope.resolve_of_isInert`: Lookups in inert data
  make no call.
* `Node.isInert_of_member?`, `Scope.isInert_of_resolve?`: What they find is
  inert again.
-/

namespace Mustache

variable {σ : Type}

namespace Tree

mutual

/-- There is no callable in the data. -/
def IsInert : Tree σ → Prop
  | null => True
  | bool _ => True
  | text _ => True
  | list items => AllInert items
  | map members => MembersInert members
  | callable0 _ _ => False
  | callable1 _ _ => False

/-- There is no callable in any of the items. -/
def AllInert : List (Tree σ) → Prop
  | [] => True
  | item :: items => IsInert item ∧ AllInert items

/-- There is no callable in any of the members. -/
def MembersInert : List (String × Tree σ) → Prop
  | [] => True
  | (_, data) :: members => IsInert data ∧ MembersInert members

end

/-- Items of inert data are inert. -/
theorem isInert_of_mem {items : List (Tree σ)} (h : AllInert items) :
    ∀ item ∈ items, item.IsInert := by
  induction items with
  | nil => exact fun item hitem => absurd hitem List.not_mem_nil
  | cons first items ih =>
      rw [AllInert] at h
      intro item hitem
      rcases List.mem_cons.mp hitem with rfl | hmem
      · exact h.1
      · exact ih h.2 item hmem

/-- And so are its members. -/
theorem isInert_of_lookup {members : List (String × Tree σ)} {name : String} {data : Tree σ}
    (h : MembersInert members) (hlookup : members.lookup name = some data) : data.IsInert := by
  induction members with
  | nil => simp only [List.lookup_nil, reduceCtorEq] at hlookup
  | cons member members ih =>
      rw [MembersInert] at h
      rw [List.lookup_cons] at hlookup
      -- The first member with the name is found.
      split at hlookup
      · rw [← Option.some.inj hlookup]
        exact h.1
      · exact ih h.2 hlookup

end Tree

namespace Node

/-- The data is plain, so it is the same whenever it is looked at. -/
def IsInert : Node σ → Prop
  | json _ => True
  | yaml _ => True
  | tree data => data.IsInert
  | script _ => False

/-- The member with the given name, as far as it can be found without a
    call. -/
def member? (name : String) : Node σ → Option (Node σ)
  | json data => (data.member? name).map json
  | yaml data => (data.member? name).map yaml
  | tree (.map members) => (members.lookup name).map tree
  | tree _ => none
  | script _ => none

variable {data : Node σ}

/-- A member is asked for by a call only if it is a callable. -/
theorem member_of_isInert (h : data.IsInert) (name : String) (body : Option String) :
    data.member name body = pure (data.member? name) := by
  cases data with
  | json data => rfl
  | yaml data => rfl
  | script text => rfl
  | tree data =>
      cases data with
      | map members =>
          simp only [member, treeMember, member?]
          cases hlookup : members.lookup name with
          | none => rfl
          | some found =>
              have hfound := Tree.isInert_of_lookup h hlookup
              -- No member of inert data is a callable.
              cases found with
              | callable0 label run => exact absurd hfound (by rw [Tree.IsInert]; exact id)
              | callable1 label run => exact absurd hfound (by rw [Tree.IsInert]; exact id)
              | _ => rfl
      | _ => rfl

/-- A member that is found is inert again. -/
theorem isInert_of_member? {name : String} {found : Node σ} (h : data.IsInert)
    (hfound : data.member? name = some found) : found.IsInert := by
  cases data with
  | json data =>
      rcases Option.map_eq_some_iff.mp hfound with ⟨content, _, rfl⟩
      exact trivial
  | yaml data =>
      rcases Option.map_eq_some_iff.mp hfound with ⟨content, _, rfl⟩
      exact trivial
  | script text => exact absurd h id
  | tree data =>
      cases data with
      | map members =>
          rcases Option.map_eq_some_iff.mp hfound with ⟨content, hlookup, rfl⟩
          exact Tree.isInert_of_lookup h hlookup
      | _ => exact absurd hfound (Option.some_ne_none _).symm

/-- The items of a list are parts of the data, so they are inert with it. -/
theorem isInert_of_items? {items : List (Node σ)} (h : data.IsInert)
    (hitems : data.items? = some items) : ∀ item ∈ items, item.IsInert := by
  intro item hitem
  cases data with
  | json data =>
      rcases Option.map_eq_some_iff.mp hitems with ⟨content, _, rfl⟩
      rcases List.mem_map.mp hitem with ⟨value, _, rfl⟩
      exact trivial
  | yaml data =>
      rcases Option.map_eq_some_iff.mp hitems with ⟨content, _, rfl⟩
      rcases List.mem_map.mp hitem with ⟨value, _, rfl⟩
      exact trivial
  | script text => exact absurd h id
  | tree data =>
      rcases Option.map_eq_some_iff.mp hitems with ⟨content, hcontent, rfl⟩
      rcases List.mem_map.mp hitem with ⟨value, hvalue, rfl⟩
      cases data with
      | list items =>
          rw [Option.some.inj hcontent.symm] at hvalue
          exact Tree.isInert_of_mem h value hvalue
      | _ => exact absurd hcontent (Option.some_ne_none _).symm

/-- Inert data is no template. -/
theorem lambda?_of_isInert (h : data.IsInert) : data.lambda? = pure none := by
  cases data with
  | json data => rfl
  | yaml data => rfl
  | script text => exact absurd h id
  | tree data =>
      cases data with
      | callable0 label run => exact absurd h (by rw [IsInert, Tree.IsInert]; exact id)
      | _ => rfl

end Node

namespace Scope

/-- All data entered is inert. -/
def IsInert (scope : Scope σ) : Prop :=
  ∀ data ∈ scope.frames, data.IsInert

/-- What is reached from `data` by going from member to member. -/
def descend? : List String → Node σ → Option (Node σ)
  | [], data => some data
  | name :: names, data => (data.member? name).bind (descend? names)

/-- The data that a name refers to, as far as it can be found without a call. -/
def resolve? (scope : Scope σ) (name : String) : Option (Node σ) :=
  if name = "." then some scope.current
  else (scope.frames.findSome? (Node.member? (nameParts name).1)).bind
    (descend? (nameParts name).2)

variable {scope : Scope σ}

theorem isInert_enter {data : Node σ} (h : scope.IsInert) (hdata : data.IsInert) :
    (scope.enter data).IsInert := by
  intro frame hframe
  rcases List.mem_cons.mp hframe with rfl | hmem
  · exact hdata
  · exact h frame hmem

theorem isInert_of_current {data : Node σ} (h : data.IsInert) :
    (⟨data, []⟩ : Scope σ).IsInert := by
  intro frame hframe
  rwa [List.mem_singleton.mp hframe]

/-- The search goes on past data without the member, and stops at the first that
    has it. -/
theorem lookup_of_isInert {frames : List (Node σ)} (h : ∀ data ∈ frames, data.IsInert)
    (name : String) (body : Option String) :
    lookup name body frames = pure (frames.findSome? (Node.member? name)) := by
  induction frames with
  | nil => rfl
  | cons data frames ih =>
      rw [lookup, Node.member_of_isInert (h data List.mem_cons_self), pure_bind, List.findSome?]
      cases data.member? name with
      | none => exact ih fun frame hframe => h frame (List.mem_cons_of_mem _ hframe)
      | some found => rfl

/-- Going from member to member makes no call either. -/
theorem descend_of_isInert {data : Node σ} (h : data.IsInert) (names : List String)
    (body : Option String) : descend body names data = pure (descend? names data) := by
  induction names generalizing data with
  | nil => rfl
  | cons name names ih =>
      rw [descend, Node.member_of_isInert h, pure_bind, descend?]
      cases hfound : data.member? name with
      | none => rfl
      | some found => exact ih (Node.isInert_of_member? h hfound)

/-- What is reached is inert. -/
theorem isInert_of_descend? {data found : Node σ} {names : List String} (h : data.IsInert)
    (hfound : descend? names data = some found) : found.IsInert := by
  induction names generalizing data with
  | nil =>
      rw [← Option.some.inj hfound]
      exact h
  | cons name names ih =>
      rcases Option.bind_eq_some_iff.mp hfound with ⟨next, hnext, hrest⟩
      exact ih (Node.isInert_of_member? h hnext) hrest

theorem isInert_of_findSome? {frames : List (Node σ)} (h : ∀ data ∈ frames, data.IsInert)
    {name : String} {found : Node σ} (hfound : frames.findSome? (Node.member? name) = some found) :
    found.IsInert := by
  rcases List.exists_of_findSome?_eq_some hfound with ⟨data, hdata, hmember⟩
  exact Node.isInert_of_member? (h data hdata) hmember

/-- Looking up a name in a scope of inert data makes no call. -/
theorem resolve_of_isInert (h : scope.IsInert) (name : String) (body : Option String) :
    scope.resolve name body = pure (scope.resolve? name) := by
  rw [resolve, resolve?]
  by_cases hpoint : name = "."
  · rw [if_pos hpoint, if_pos hpoint]
  · rw [if_neg hpoint, if_neg hpoint]
    simp only [lookup_of_isInert h, pure_bind]
    -- What the first part of the name refers to decides where the others are looked up.
    cases hfound : scope.frames.findSome? (Node.member? (nameParts name).1) with
    | none => rfl
    | some found => exact descend_of_isInert (isInert_of_findSome? h hfound) _ _

/-- A name refers to inert data. -/
theorem isInert_of_resolve? {name : String} {found : Node σ} (h : scope.IsInert)
    (hfound : scope.resolve? name = some found) : found.IsInert := by
  rw [resolve?] at hfound
  by_cases hpoint : name = "."
  · rw [if_pos hpoint] at hfound
    rw [← Option.some.inj hfound]
    exact h _ List.mem_cons_self
  · rw [if_neg hpoint] at hfound
    -- The first part of the name is looked up in the frames, the others in what it
    -- refers to.
    rcases Option.bind_eq_some_iff.mp hfound with ⟨data, hdata, hrest⟩
    exact isInert_of_descend? (isInert_of_findSome? h hdata) hrest

end Scope

end Mustache
