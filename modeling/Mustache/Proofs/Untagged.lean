import Mustache.Proofs.Alike

/-!
# Data Without Its Tags

A tag on a YAML value says nothing to a template. Taking away all tags, around
the value and around everything inside of it, changes no text. The keys of a
mapping keep their tags: a key with a tag is not the name of a member, and it
would become one without it.

Every way to look at a value goes through the tags around it, and what is found
inside is again a value with its tags. So a scope looks the same when the tags of
all data in it are taken away.

## Main definitions

* `Yaml.untag`: A value without tags.
* `Node.untag`, `Scope.untag`: The same for data of any form and for scopes.

## Theorems

* `Yaml.member?_untag`, `Yaml.items?_untag`: What is found without tags.
* `Scope.resolve?_untag`: What a name refers to without tags.
* `isLikeness_untag`: Without tags a scope looks the same.
* `Template.render_untag`: Tags change no text.
-/

namespace Mustache

variable {σ ρ : Type}

namespace Yaml

mutual

/-- The value without the tags around it and around all values inside of it. Keys
    are left as they are. -/
def untag : Yaml → Yaml
  | null => null
  | bool b => bool b
  | number n => number n
  | text s => text s
  | list items => list (untagItems items)
  | map entries => map (untagEntries entries)
  | tagged _ content => untag content

/-- The items of a list without tags. -/
def untagItems : List Yaml → List Yaml
  | [] => []
  | item :: items => untag item :: untagItems items

/-- The entries of a mapping without the tags of their values. -/
def untagEntries : List (Yaml × Yaml) → List (Yaml × Yaml)
  | [] => []
  | (key, content) :: entries => (key, untag content) :: untagEntries entries

end

/-- Each item of a list loses its tags. -/
theorem untagItems_eq_map (items : List Yaml) : untagItems items = items.map untag := by
  induction items with
  | nil => rw [untagItems, List.map_nil]
  | cons item items ih => rw [untagItems, List.map_cons, ih]

/-- An entry is found by its key, which is left as it is. -/
theorem lookupText_untag (name : String) (entries : List (Yaml × Yaml)) :
    lookupText name (untagEntries entries) = (lookupText name entries).map untag := by
  induction entries with
  | nil => rfl
  | cons entry entries ih =>
      rcases entry with ⟨key, content⟩
      rw [untagEntries]
      cases key with
      | text s =>
          rw [lookupText, lookupText]
          by_cases hname : s = name
          · rw [if_pos hname, if_pos hname, Option.map_some]
          · rw [if_neg hname, if_neg hname, ih]
      | _ => exact ih

/-- Data is as falsy without tags. -/
theorem isFalsy_untag : ∀ data : Yaml, data.untag.isFalsy = data.isFalsy
  | null => rfl
  | bool b => rfl
  | number n => rfl
  | text s => rfl
  | list items => by
      rw [untag, isFalsy, isFalsy, untagItems_eq_map, List.isEmpty_map]
  | map entries => rfl
  | tagged tag content => by
      rw [untag, isFalsy]
      exact isFalsy_untag content

/-- And it has the same text. -/
theorem value_untag : ∀ data : Yaml, data.untag.value = data.value
  | null => rfl
  | bool b => rfl
  | number n => rfl
  | text s => rfl
  | list items => rfl
  | map entries => rfl
  | tagged tag content => by
      rw [untag, value]
      exact value_untag content

/-- The items of a list without tags are the items, without theirs. -/
theorem items?_untag : ∀ data : Yaml, data.untag.items? = data.items?.map (List.map untag)
  | null => rfl
  | bool b => rfl
  | number n => rfl
  | text s => rfl
  | list items => by
      rw [untag, items?, items?, untagItems_eq_map, Option.map_some]
  | map entries => rfl
  | tagged tag content => by
      rw [untag, items?]
      exact items?_untag content

/-- A member of a value without tags is the member, without its tags. -/
theorem member?_untag (name : String) :
    ∀ data : Yaml, data.untag.member? name = (data.member? name).map untag
  | null => rfl
  | bool b => rfl
  | number n => rfl
  | text s => rfl
  | list items => rfl
  | map entries => by
      rw [untag, member?, member?]
      exact lookupText_untag name entries
  | tagged tag content => by
      rw [untag, member?]
      exact member?_untag name content

end Yaml

namespace Node

/-- The data without tags, if it comes as YAML. -/
def untag : Node σ → Node σ
  | yaml data => yaml data.untag
  | data => data

theorem untag_json (data : Json) : (json data : Node σ).untag = json data := rfl

theorem untag_tree (data : Tree σ) : (tree data).untag = tree data := rfl

theorem isFalsy_untag (data : Node σ) : data.untag.isFalsy = data.isFalsy := by
  cases data with
  | yaml data => exact Yaml.isFalsy_untag data
  | _ => rfl

theorem value_untag (data : Node σ) : data.untag.value = data.value := by
  cases data with
  | yaml data => exact Yaml.value_untag data
  | _ => rfl

/-- The items of a list are those with their tags taken away. -/
theorem items?_untag (data : Node σ) : data.untag.items? = data.items?.map (List.map untag) := by
  cases data with
  | yaml data =>
      -- Items are wrapped as data after they were found.
      rw [untag, items?, items?, Yaml.items?_untag, Option.map_map, Option.map_map]
      refine Option.map_congr fun items _ => ?_
      rw [Function.comp, Function.comp, List.map_map, List.map_map]
      rfl
  | json data =>
      rw [untag_json, items?, Option.map_map]
      refine Option.map_congr fun items _ => ?_
      rw [Function.comp, List.map_map]
      rfl
  | tree data =>
      rw [untag_tree, items?, Option.map_map]
      refine Option.map_congr fun items _ => ?_
      rw [Function.comp, List.map_map]
      rfl
  | script text => rfl

/-- So are the members. -/
theorem member?_untag (name : String) (data : Node σ) :
    data.untag.member? name = (data.member? name).map untag := by
  cases data with
  | yaml data =>
      rw [untag, member?, member?, Yaml.member?_untag, Option.map_map, Option.map_map]
      rfl
  | json data =>
      rw [untag_json, member?, Option.map_map]
      rfl
  | tree data =>
      cases data with
      | map members =>
          rw [untag_tree, member?, Option.map_map]
          rfl
      | _ => rfl
  | script text => rfl

theorem isInert_untag {data : Node σ} (h : data.IsInert) : data.untag.IsInert := by
  cases data with
  | yaml data => exact trivial
  | _ => exact h

end Node

namespace Scope

/-- The scope with all data without tags. -/
def untag (scope : Scope σ) : Scope σ :=
  ⟨scope.current.untag, scope.outer.map Node.untag⟩

theorem frames_untag (scope : Scope σ) : scope.untag.frames = scope.frames.map Node.untag := rfl

theorem isInert_untag {scope : Scope σ} (h : scope.IsInert) : scope.untag.IsInert := by
  intro frame hframe
  rw [frames_untag] at hframe
  rcases List.mem_map.mp hframe with ⟨data, hdata, rfl⟩
  exact Node.isInert_untag (h data hdata)

/-- The nearest frame with a member is the same one. -/
theorem findSome?_untag (name : String) (frames : List (Node σ)) :
    (frames.map Node.untag).findSome? (Node.member? name) =
      (frames.findSome? (Node.member? name)).map Node.untag := by
  induction frames with
  | nil => rfl
  | cons data frames ih =>
      rw [List.map_cons, List.findSome?, List.findSome?, Node.member?_untag]
      cases data.member? name with
      | none => exact ih
      | some found => rfl

/-- From there the same members are gone through. -/
theorem descend?_untag (names : List String) (data : Node σ) :
    descend? names data.untag = (descend? names data).map Node.untag := by
  induction names generalizing data with
  | nil => rfl
  | cons name names ih =>
      rw [descend?, descend?, Node.member?_untag]
      cases data.member? name with
      | none => rfl
      | some found => exact ih found

/-- Without tags a name refers to the same data, without its tags. -/
theorem resolve?_untag (scope : Scope σ) (name : String) :
    scope.untag.resolve? name = (scope.resolve? name).map Node.untag := by
  rw [resolve?, resolve?]
  by_cases hpoint : name = "."
  · rw [if_pos hpoint, if_pos hpoint]
    rfl
  · rw [if_neg hpoint, if_neg hpoint, frames_untag, findSome?_untag]
    -- The first part is looked up in the frames, and the others in what it refers to.
    cases scope.frames.findSome? (Node.member? (nameParts name).1) with
    | none => rfl
    | some found => exact descend?_untag (nameParts name).2 found

end Scope

/-- A scope without callables looks the same without tags. -/
theorem isLikeness_untag : IsLikeness (σ := σ) Node.untag (fun _ => True) fun scope other =>
    scope.IsInert ∧ other = scope.untag where
  inert h := h.1
  resolve h name _ body := by
    rw [h.2, Scope.resolve_of_isInert (Scope.isInert_untag h.1), Scope.resolve?_untag]
  enter h _ hdata := ⟨Scope.isInert_enter h.1 hdata, h.2 ▸ rfl⟩
  isFalsy := Node.isFalsy_untag
  value := Node.value_untag
  items? := Node.items?_untag
  lambda? hdata := Node.lambda?_of_isInert (Node.isInert_untag hdata)

/-- Rendering up to a depth shows the same without tags. -/
theorem renderWithin_untag (partials : Store ρ) (depth : Nat) (segments : List Segment)
    (place : Place σ) (hinert : place.scope.IsInert) :
    renderWithin partials depth segments { place with scope := place.scope.untag } =
      renderWithin partials depth segments place := by
  -- The induction is on the depth: at one level more, the segments of other templates
  -- show the same without tags.
  induction depth generalizing segments place with
  | zero => rfl
  | succ depth ih =>
      have hinner : Environment.SeesAlike
          (fun scope other : Scope σ => scope.IsInert ∧ other = scope.untag)
          ⟨partials, renderWithin partials depth⟩ := by
        rintro segments place other ⟨hinert, rfl⟩
        exact ih segments place hinert
      exact isLikeness_untag.renderSegments_eq segments place place.scope.untag
        (Segment.EverywhereAll.of_forall (fun _ => ⟨fun _ _ => trivial, fun _ => hinner⟩) segments)
        ⟨hinert, rfl⟩

namespace Template

/-- Tags say nothing to a template: rendering it for a value is the same computation
    as rendering it for the value without tags, with any store and to any depth. -/
theorem render_untag (template : Template) (data : Yaml) (partials : Store ρ) (depth : Nat) :
    template.render (.yaml data : Node σ) partials depth =
      template.render (.yaml data.untag) partials depth := by
  have hinert : Scope.IsInert (⟨.yaml data, []⟩ : Scope σ) := Scope.isInert_of_current trivial
  exact (renderWithin_untag partials depth template.segments ⟨⟨.yaml data, []⟩, "", true⟩
    hinert).symm

end Template

end Mustache
