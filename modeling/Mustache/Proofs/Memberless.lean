import Mustache.Proofs.Alike
import Mustache.Proofs.Complement

/-!
# Data Without Members

Entering data that has no members changes nothing but what a single point refers
to. The search for a name passes such data by, wherever it stands between the
data around it. So a text, a number, a boolean, null or a list can be put in
anywhere in a scope, and segments that do not use the point show the same. In
particular a section whose name refers to a text, a number or true shows what
its children show without it.

A callable may make any script, and a reference may lead to any template, and
these may use the point. So there must be no callable in the scope and no
reference among the segments. What was put in may hold callables: nobody looks
at it.

## Main definitions

* `Node.IsMemberless`: Data in which no member is found.
* `Node.isMapping`: Data that may have members.
* `Scope.Widens`: A scope with data put in somewhere.

## Theorems

* `Node.isMemberless_of_isMapping`: All data but mappings has no members.
* `Scope.resolve_of_widens`: Data without members hides no name.
* `isLikeness_widens`: A scope and a wider one look alike.
* `renderSegments_of_memberless`: Data without members is not seen.
-/

namespace Mustache

variable {σ ρ : Type}

/-- Looking for a member of the data finds nothing and makes no call. -/
def Node.IsMemberless (data : Node σ) : Prop :=
  ∀ name body, data.member name body = pure none

/-- The value is a mapping, with a tag or without. -/
def Yaml.isMapping : Yaml → Bool
  | map _ => true
  | tagged _ content => isMapping content
  | _ => false

/-- The data is a mapping or an object. -/
def Node.isMapping : Node σ → Bool
  | json (.object _) => true
  | yaml data => data.isMapping
  | tree (.map _) => true
  | _ => false

/-- A YAML value that is no mapping has no members, whatever tags it has. -/
theorem Yaml.member?_of_isMapping {data : Yaml} (h : data.isMapping = false) (name : String) :
    data.member? name = none := by
  -- A tag is passed by, so the induction goes down through the tags.
  induction data using Yaml.isMapping.induct with
  | case1 entries => exact absurd h Bool.noConfusion
  | case2 tag content ih =>
      rw [isMapping] at h
      rw [member?]
      exact ih h
  | case3 data hmap htagged =>
      rw [member?]
      · exact hmap
      · exact htagged

/-- Texts, numbers, booleans, null and lists have no members, and neither has a
    callable before it is called. -/
theorem Node.isMemberless_of_isMapping {data : Node σ} (h : data.isMapping = false) :
    data.IsMemberless := by
  intro name body
  cases data with
  | json data =>
      cases data with
      | object members => exact absurd h Bool.noConfusion
      | _ => rfl
  | yaml data =>
      rw [member, Yaml.member?_of_isMapping h]
      rfl
  | tree data =>
      cases data with
      | map members => exact absurd h Bool.noConfusion
      | _ => rfl
  | script text => rfl

namespace Scope

variable {frame : Node σ} {scope wider : Scope σ} {name : String}

/-- The wider scope is the scope with one more frame, which stands at any place
    between the others, inside of them or around them. -/
def Widens (frame : Node σ) (scope wider : Scope σ) : Prop :=
  ∃ nearer farther, scope.frames = nearer ++ farther ∧ wider.frames = nearer ++ frame :: farther

theorem widens_enter (frame : Node σ) (scope : Scope σ) : Widens frame scope (scope.enter frame) :=
  ⟨[], scope.frames, rfl, rfl⟩

theorem Widens.enter (h : Widens frame scope wider) (data : Node σ) :
    Widens frame (scope.enter data) (wider.enter data) := by
  rcases h with ⟨nearer, farther, hscope, hwider⟩
  exact ⟨data :: nearer, farther, congrArg (data :: ·) hscope, congrArg (data :: ·) hwider⟩

/-- The search asks the frame and goes on with the one behind it. -/
theorem lookup_of_isMemberless (hframe : frame.IsMemberless) (body : Option String)
    (nearer farther : List (Node σ)) :
    lookup name body (nearer ++ frame :: farther) = lookup name body (nearer ++ farther) := by
  induction nearer with
  | nil =>
      rw [List.nil_append, List.nil_append, lookup, hframe name body, pure_bind]
  | cons data nearer ih =>
      rw [List.cons_append, List.cons_append, lookup, lookup, ih]

/-- Data without members hides no name but the point. -/
theorem resolve_of_widens (hframe : frame.IsMemberless) (h : Widens frame scope wider)
    (hname : name ≠ ".") (body : Option String) :
    wider.resolve name body = scope.resolve name body := by
  rcases h with ⟨nearer, farther, hscope, hwider⟩
  rw [resolve, resolve, if_neg hname, if_neg hname, hscope, hwider]
  simp only [lookup_of_isMemberless hframe]

end Scope

/-- With data that has no members put in, a scope without callables looks the same
    to all names but the point. -/
theorem isLikeness_widens {frame : Node σ} (hframe : frame.IsMemberless) :
    IsLikeness id (· ≠ ".") fun scope wider => scope.IsInert ∧ Scope.Widens frame scope wider where
  inert h := h.1
  resolve h name hname body := by
    rw [Scope.resolve_of_widens hframe h.2 hname, Scope.resolve_of_isInert h.1, Option.map_id, id]
  enter h _ hdata := ⟨Scope.isInert_enter h.1 hdata, h.2.enter _⟩
  isFalsy _ := rfl
  value _ := rfl
  items? data := by rw [List.map_id_fun, Option.map_id, id, id]
  lambda? hdata := Node.lambda?_of_isInert hdata

section

variable (env : Environment σ ρ) {segments : List Segment} {place : Place σ} {frame : Node σ}

/-- Data without members is not seen. Segments that hold no reference and do not use
    the point show the same when it is put in anywhere in a scope without
    callables. So a section whose name refers to such data, which is truthy and no
    list, shows what its children show without it, unless it is for lists only. -/
theorem renderSegments_of_memberless (hframe : frame.IsMemberless)
    (hsegments : Segment.EverywhereAll
      (fun segment => segment.isReference = false ∧ segment.Asks (· ≠ ".")) segments)
    (hinert : place.scope.IsInert) :
    (∀ wider, Scope.Widens frame place.scope wider →
      renderSegments env segments { place with scope := wider } =
        renderSegments env segments place) ∧
    ∀ head, head.isIterationCheck = false → place.scope.resolve? head.name = some frame →
      frame.isFalsy = false → frame.items? = none →
      renderSegment env (.sect head segments) place =
        some <$> renderSegments env segments place := by
  have halike := Segment.EverywhereAll.mono
    (q := Segment.IsAlike (· ≠ ".")
      (fun scope wider => scope.IsInert ∧ Scope.Widens frame scope wider) env)
    (fun segment h => ⟨h.2, fun href => absurd (href.symm.trans h.1) Bool.noConfusion⟩)
    segments hsegments
  -- Segments that ask for no point only meet scopes that look alike.
  have hunseen : ∀ wider, Scope.Widens frame place.scope wider →
      renderSegments env segments { place with scope := wider } =
        renderSegments env segments place := fun wider hwider =>
    (isLikeness_widens hframe).renderSegments_eq segments place wider halike ⟨hinert, hwider⟩
  refine ⟨hunseen, fun head hmode hfound htruthy hitems => ?_⟩
  -- The section enters the data, which is putting it in.
  rw [renderSegment_sect_of_isInert env hinert hmode, hfound]
  simp only [hitems, htruthy, Bool.false_eq_true, if_false]
  exact congrArg (some <$> ·) (hunseen _ (Scope.widens_enter frame place.scope))

end

/-- Around the data or entered last, the flag is not seen by a list that is
    shown inside of it. -/
theorem renderSegments_of_memberless_flag :
    renderSegments (⟨Store.empty, fun _ _ => .halt .tooDeep⟩ : Environment Unit Unit)
        [.sect ⟨"l", false, .standard, ⟨0, 0⟩, ""⟩ [.value "x" true], .inverted "y" [.text "!"]]
        ⟨⟨.json (.object [("f", .bool true), ("l", .list [.null]), ("x", .text "X")]),
          [.json (.bool true)]⟩, "", true⟩ =
      renderSegments ⟨Store.empty, fun _ _ => .halt .tooDeep⟩
        [.sect ⟨"l", false, .standard, ⟨0, 0⟩, ""⟩ [.value "x" true], .inverted "y" [.text "!"]]
        ⟨⟨.json (.object [("f", .bool true), ("l", .list [.null]), ("x", .text "X")]), []⟩,
          "", true⟩ ∧
    renderSegment (⟨Store.empty, fun _ _ => .halt .tooDeep⟩ : Environment Unit Unit)
        (.sect ⟨"f", false, .standard, ⟨0, 0⟩, ""⟩
          [.sect ⟨"l", false, .standard, ⟨0, 0⟩, ""⟩ [.value "x" true], .inverted "y" [.text "!"]])
        ⟨⟨.json (.object [("f", .bool true), ("l", .list [.null]), ("x", .text "X")]), []⟩,
          "", true⟩ =
      some <$> renderSegments ⟨Store.empty, fun _ _ => .halt .tooDeep⟩
        [.sect ⟨"l", false, .standard, ⟨0, 0⟩, ""⟩ [.value "x" true], .inverted "y" [.text "!"]]
        ⟨⟨.json (.object [("f", .bool true), ("l", .list [.null]), ("x", .text "X")]), []⟩,
          "", true⟩ := by
  let place : Place Unit :=
    ⟨⟨.json (.object [("f", .bool true), ("l", .list [.null]), ("x", .text "X")]), []⟩, "", true⟩
  let segments : List Segment :=
    [.sect ⟨"l", false, .standard, ⟨0, 0⟩, ""⟩ [.value "x" true], .inverted "y" [.text "!"]]
  have hframe : (Node.json (.bool true) : Node Unit).IsMemberless :=
    Node.isMemberless_of_isMapping rfl
  have hsegments : Segment.EverywhereAll
      (fun segment => segment.isReference = false ∧ segment.Asks (· ≠ ".")) segments := by
    have hasks : ∀ {segment : Segment} {question : Question},
        segment.question? = some question → question.name ≠ "." → segment.Asks (· ≠ ".") :=
      fun hsome hname other hother => Option.some.inj (hsome.symm.trans hother) ▸ hname
    have htext : (Segment.text "!").Asks (· ≠ ".") := fun other hother =>
      absurd hother (Option.some_ne_none other).symm
    exact ⟨⟨⟨rfl, hasks rfl (by decide)⟩, ⟨rfl, hasks rfl (by decide)⟩, trivial⟩,
      ⟨⟨rfl, hasks rfl (by decide)⟩, ⟨rfl, htext⟩, trivial⟩, trivial⟩
  have hinert : place.scope.IsInert := Scope.isInert_of_current trivial
  have hunseen := @renderSegments_of_memberless Unit Unit ⟨Store.empty, fun _ _ => .halt .tooDeep⟩
    segments place (.json (.bool true)) hframe hsegments hinert
  exact ⟨hunseen.1 _ ⟨[place.scope.current], [], rfl, rfl⟩, hunseen.2 _ rfl rfl rfl rfl⟩

end Mustache
