import Mustache.Proofs.Shown

/-!
# Sections and Inverted Sections

A section and an inverted section of one name are complementary: one of the two
shows its children, and never both. They do not ask the data the same
questions. The section wants to know whether it is a list and only then whether
it is falsy, and the inverted section asks for the latter alone. What brings them
together is that a list is falsy if it is empty, whatever form the data comes
in and however many tags there are around it.

The children are any segments, so showing them may ask the store for templates
and may fail. What a section does is therefore told as a computation: which
renderings of its children it runs, where, and in which order.

## Main definitions

* `ShowsEach`: Something is shown for each item of a list, in order.

## Theorems

* `Node.isFalsy_of_items?`: A list is falsy if it is empty.
* `renderItems_eq_ok_iff`: The items of a list are shown one by one, and their
  texts are joined.
* `renderSegment_sect_complements_inverted`: The two kinds of sections are
  complementary.
-/

namespace Mustache

variable {σ ρ : Type}

/-- A JSON list is falsy if it is empty. -/
theorem Json.isFalsy_of_items? {data : Json} {items : List Json}
    (h : data.items? = some items) : data.isFalsy = items.isEmpty := by
  cases data with
  | list content =>
      rw [← Option.some.inj h]
      rfl
  | _ => exact absurd h (Option.some_ne_none _).symm

/-- The tags around a list say nothing about it. -/
theorem Yaml.isFalsy_of_items? {data : Yaml} {items : List Yaml}
    (h : data.items? = some items) : data.isFalsy = items.isEmpty := by
  induction data using Yaml.items?.induct with
  | case1 list =>
      rw [items?, Option.some.injEq] at h
      rw [isFalsy, h]
  | case2 tag content ih =>
      rw [items?] at h
      rw [isFalsy]
      exact ih h
  | case3 data hlist htagged =>
      rw [items?] at h
      · exact absurd h (Option.some_ne_none _).symm
      · exact hlist
      · exact htagged

/-- A list of the host is falsy if it is empty. -/
theorem Tree.isFalsy_of_items? {data : Tree σ} {items : List (Tree σ)}
    (h : data.items? = some items) : data.isFalsy = items.isEmpty := by
  cases data with
  | list content =>
      rw [← Option.some.inj h]
      rfl
  | _ => exact absurd h (Option.some_ne_none _).symm

/-- A list is falsy if it is empty, whatever form the data comes in. -/
theorem Node.isFalsy_of_items? {data : Node σ} {items : List (Node σ)}
    (h : data.items? = some items) : data.isFalsy = items.isEmpty := by
  cases data with
  | json data =>
      rcases Option.map_eq_some_iff.mp h with ⟨content, hcontent, rfl⟩
      rw [List.isEmpty_map]
      exact Json.isFalsy_of_items? hcontent
  | yaml data =>
      rcases Option.map_eq_some_iff.mp h with ⟨content, hcontent, rfl⟩
      rw [List.isEmpty_map]
      exact Yaml.isFalsy_of_items? hcontent
  | tree data =>
      rcases Option.map_eq_some_iff.mp h with ⟨content, hcontent, rfl⟩
      rw [List.isEmpty_map]
      exact Tree.isFalsy_of_items? hcontent
  | script text => exact absurd h (Option.some_ne_none _).symm

/-- Something is shown one time for each item of a list, from the first to the
    last one, in the scope with the item entered. The flag says whether the next
    text begins a line, and an item that shows nothing leaves it as it is. -/
inductive ShowsEach (render : Place σ → Rendering σ ρ String) (scope : Scope σ) (indent : String) :
    Bool → List (Node σ) → Host σ × ρ → List String → Host σ × ρ → Prop
  | nil (newLine : Bool) (state : Host σ × ρ) :
      ShowsEach render scope indent newLine [] state [] state
  | cons {newLine : Bool} {item : Node σ} {items : List (Node σ)} {state next last : Host σ × ρ}
      {text : String} {texts : List String}
      (hfirst : render ⟨scope.enter item, indent, newLine⟩ state = (.ok text, next))
      (hrest : ShowsEach render scope indent (beginsAfter newLine text) items next texts last) :
      ShowsEach render scope indent newLine (item :: items) state (text :: texts) last

/-- Rendering the items of a list shows each of them and joins their texts. It
    fails only when one of them fails. -/
theorem renderItems_eq_ok_iff {render : Place σ → Rendering σ ρ String} {place : Place σ}
    {items : List (Node σ)} {state last : Host σ × ρ} {shown : String} :
    renderItems render place items state = (.ok shown, last) ↔
      ∃ texts, ShowsEach render place.scope place.indent place.newLine items state texts last ∧
        shown = String.join texts := by
  induction items generalizing place state shown with
  | nil =>
      constructor
      · intro h
        rcases Prod.mk.inj h with ⟨hshown, rfl⟩
        cases Except.ok.inj hshown
        exact ⟨[], .nil _ _, rfl⟩
      · rintro ⟨texts, hshows, rfl⟩
        cases hshows with
        | nil _ _ => rfl
  | cons item items ih =>
      -- The other items are shown at the place after the first one.
      have hplace : ∀ text : String, (if text.isEmpty then place else place.after text) =
          ⟨place.scope, place.indent, beginsAfter place.newLine text⟩ := by
        intro text
        rw [beginsAfter]
        split
        · rfl
        · rfl
      rw [renderItems]
      constructor
      · intro h
        -- A list that is shown has its first item shown and then the others.
        rcases Rendering.exists_of_bind h with ⟨text, next, hfirst, hmore⟩
        rcases Rendering.exists_of_map hmore with ⟨more, hitems, rfl⟩
        rw [hplace] at hitems
        rcases ih.mp hitems with ⟨texts, hshows, rfl⟩
        exact ⟨text :: texts, .cons hfirst hshows, (String.join_cons).symm⟩
      · rintro ⟨texts, hshows, rfl⟩
        cases hshows with
        | @cons _ _ _ _ next _ text texts hfirst hrest =>
            have hfirst : render (place.enter item) state = (.ok text, next) := hfirst
            have hmore : renderItems render (if text.isEmpty then place else place.after text) items
                next = (.ok (String.join texts), last) := by
              rw [hplace]
              exact ih.mpr ⟨texts, hrest, rfl⟩
            rw [Rendering.bind_of_ok hfirst, Rendering.bind_of_ok hmore, String.join_cons]
            rfl

/-- A section of a list shows its items in the same way. -/
theorem some_renderItems_eq_ok_iff {render : Place σ → Rendering σ ρ String} {place : Place σ}
    {items : List (Node σ)} {state last : Host σ × ρ} {shown : Option String} :
    (some <$> renderItems render place items : Rendering σ ρ (Option String)) state =
        (.ok shown, last) ↔
      ∃ texts, ShowsEach render place.scope place.indent place.newLine items state texts last ∧
        shown = some (String.join texts) := by
  rw [map_eq_pure_bind]
  constructor
  · intro h
    rcases Rendering.exists_of_map h with ⟨text, hitems, rfl⟩
    rcases renderItems_eq_ok_iff.mp hitems with ⟨texts, hshows, rfl⟩
    exact ⟨texts, hshows, rfl⟩
  · rintro ⟨texts, hshows, rfl⟩
    rw [Rendering.bind_of_ok (renderItems_eq_ok_iff.mpr ⟨texts, hshows, rfl⟩)]
    rfl

section

variable (env : Environment σ ρ) {place : Place σ} {head : SectionHead}

/-- A section of data without callables shows nothing, its items, or its
    children once. -/
theorem renderSegment_sect_of_isInert (hinert : place.scope.IsInert)
    (hmode : head.isIterationCheck = false) (children : List Segment) :
    renderSegment env (.sect head children) place =
      match place.scope.resolve? head.name with
      | none => pure none
      | some data =>
        match data.items? with
        | some items =>
          some <$> renderItems (renderSegments env children) place items
        | none =>
          if data.isFalsy then pure none
          else some <$> renderSegments env children (place.enter data) := by
  rw [renderSegment, Place.resolve_of_isInert hinert, pure_bind]
  cases hfound : place.scope.resolve? head.name with
  | none => rfl
  | some data =>
      exact renderSection_of_isIterationCheck_eq_false env hmode
        (Scope.isInert_of_resolve? hinert hfound) _

/-- A section and an inverted section of one name are complementary for data
    without callables, and find the same data whether there is a body or not.
    Either this is missing or falsy, and then the inverted section shows its
    children where it stands and the section shows no text and does nothing. Or
    the data is truthy, and then the inverted section is suppressed and the
    section shows its children, for each item of a list, which is not empty, and
    one time for the data itself if it is no list. -/
theorem renderSegment_sect_complements_inverted (hinert : place.scope.IsInert)
    (hmode : head.isIterationCheck = false) (children invertedChildren : List Segment) :
    ∃ found : Option (Node σ),
      (∀ body, (place.resolve head.name body : Rendering σ ρ _) = pure found) ∧
      ((∀ data ∈ found, data.isFalsy = true) ∧
          renderSegment env (.inverted head.name invertedChildren) place =
            some <$> renderSegments env invertedChildren place ∧
          (renderSegment env (.sect head children) place = pure none ∨
            renderSegment env (.sect head children) place = pure (some "")) ∨
        ∃ data, found = some data ∧ data.isFalsy = false ∧
          renderSegment env (.inverted head.name invertedChildren) place = pure none ∧
          ((∃ items, data.items? = some items ∧ items ≠ [] ∧
              ∀ state shown last,
                renderSegment env (.sect head children) place state = (.ok shown, last) ↔
                  ∃ texts, ShowsEach (renderSegments env children) place.scope
                    place.indent place.newLine items state texts last ∧
                      shown = some (String.join texts)) ∨
            data.items? = none ∧
              renderSegment env (.sect head children) place =
                some <$> renderSegments env children (place.enter data))) := by
  refine ⟨place.scope.resolve? head.name, Place.resolve_of_isInert hinert head.name, ?_⟩
  rw [renderSegment_inverted_of_isInert env hinert, renderSegment_sect_of_isInert env hinert hmode,
    Scope.lacks]
  cases place.scope.resolve? head.name with
  | none =>
      exact Or.inl ⟨fun data hdata => absurd hdata (Option.not_mem_none data), rfl, Or.inl rfl⟩
  | some data =>
      dsimp only
      -- The same test decides both sections, as a list is tested by its items.
      by_cases hfalsy : data.isFalsy = true
      · refine Or.inl ⟨fun found hfound => Option.mem_some.mp hfound ▸ hfalsy, if_pos hfalsy, ?_⟩
        cases hitems : data.items? with
        | none => exact Or.inl (if_pos hfalsy)
        | some items =>
            -- A falsy list is empty, so there is nothing to show.
            rw [Node.isFalsy_of_items? hitems, List.isEmpty_iff] at hfalsy
            rw [hfalsy]
            exact Or.inr rfl
      · refine Or.inr ⟨data, rfl, Bool.eq_false_iff.mpr hfalsy, if_neg hfalsy, ?_⟩
        cases hitems : data.items? with
        | none => exact Or.inr ⟨rfl, if_neg hfalsy⟩
        | some items =>
            rw [Node.isFalsy_of_items? hitems, List.isEmpty_iff] at hfalsy
            exact Or.inl ⟨items, rfl, hfalsy, fun state shown last => some_renderItems_eq_ok_iff⟩

end

/-- A tag around a list changes nothing: the inverted section is suppressed and
    the section shows its children for both items. -/
theorem renderSegment_sect_complements_inverted_tagged :
    renderSegment (⟨Store.empty, fun _ _ => .halt .tooDeep⟩ : Environment Unit Unit)
        (.inverted "a" [.text "none"])
        ⟨⟨.yaml (.map [(.text "a", .tagged "!t" (.list [.text "x", .text "y"]))]), []⟩, "", true⟩ =
      pure none ∧
    ∃ texts last,
      ShowsEach (renderSegments ⟨Store.empty, fun _ _ => .halt .tooDeep⟩
        [.value "." true, .text ","])
        ⟨.yaml (.map [(.text "a", .tagged "!t" (.list [.text "x", .text "y"]))]), []⟩ "" true
        [.yaml (.text "x"), .yaml (.text "y")] ((⟨(), []⟩, ()) : Host Unit × Unit) texts last ∧
      String.join texts = "x,y," := by
  let env : Environment Unit Unit := ⟨Store.empty, fun _ _ => .halt .tooDeep⟩
  let scope : Scope Unit :=
    ⟨.yaml (.map [(.text "a", .tagged "!t" (.list [.text "x", .text "y"]))]), []⟩
  let children : List Segment := [.value "." true, .text ","]
  have hinert : scope.IsInert := by
    intro frame hframe
    rw [List.mem_singleton.mp hframe]
    exact trivial
  rcases @renderSegment_sect_complements_inverted Unit Unit env ⟨scope, "", true⟩
    ⟨"a", false, .standard, ⟨0, 0⟩, ""⟩ hinert rfl children [.text "none"] with
    ⟨found, hfound, hcases⟩
  have hlist : found = some (.yaml (.tagged "!t" (.list [.text "x", .text "y"]))) := by
    have hresolve := congrFun (hfound none) (⟨(), []⟩, ())
    exact (Except.ok.inj (Prod.mk.inj hresolve).1).symm
  subst hlist
  rcases hcases with ⟨hfalsy, _⟩ |
    ⟨data, hdata, _, hinverted, ⟨items, hitems, _, hshows⟩ | ⟨hnone, _⟩⟩
  · exact Bool.noConfusion (hfalsy _ rfl)
  · rw [← Option.some.inj hdata] at hitems
    have hlist : [.yaml (.text "x"), .yaml (.text "y")] = items := Option.some.inj hitems
    rw [← hlist] at hshows
    have hrun : (renderSegment env (.sect ⟨"a", false, .standard, ⟨0, 0⟩, ""⟩ children)
        ⟨scope, "", true⟩ (⟨(), []⟩, ())).1.toOption = some (some "x,y,") := by decide
    rcases hshown : renderSegment env (.sect ⟨"a", false, .standard, ⟨0, 0⟩, ""⟩ children)
      ⟨scope, "", true⟩ (⟨(), []⟩, ()) with ⟨_ | shown, last⟩
    · rw [hshown] at hrun
      cases hrun
    · rw [hshown] at hrun
      rcases (hshows _ _ _).mp hshown with ⟨texts, htexts, rfl⟩
      exact ⟨hinverted, texts, last, htexts, Option.some.inj (Option.some.inj hrun)⟩
  · rw [← Option.some.inj hdata] at hnone
    exact absurd hnone (Option.some_ne_none _)

end Mustache
