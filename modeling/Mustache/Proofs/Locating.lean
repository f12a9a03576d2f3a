import Mustache.Segment.Location

/-!
# Where Paths Lead

A path is a text, and it may be the path of several sections: names may hold
points, so it can be cut in more than one way, and sections next to each other
may have the same name. What a path stands for is told here without cutting it.
Going down from section to section gives a chain, and the names of the chain
with points between them are its path. Chains are compared by the places of
their sections among the segments around them, so that a section comes before
those inside of it and these come before what follows it.

The search goes below a section as soon as its name begins the path, and goes on
behind it when it finds nothing there. So a chain that only begins like the path
hides no other chain, and the first chain with the path is found.

## Main definitions

* `Segment.Chain`: The sections met on a way down.
* `SectionHead.dotted`: The names of sections with points between them.
* `Segment.IsFirst`: The first chain with a path.
* `Segment.Answers`: What the search may answer.

## Theorems

* `pathBelow?_eq_some_iff`: What is left of a path below a section.
* `Segment.answers_locate`, `Segment.answers_locateAll`: The search is right.
* `Template.locates_first_chain`: The section with a path is the last one of the
  first chain.
-/

namespace Mustache

/-- What is left behind a beginning of a text. -/
theorem dropPrefix?_eq_some_iff {front text rest : List Char} :
    dropPrefix? front text = some rest ↔ text = front ++ rest := by
  -- The two are compared from the front, character by character.
  induction front generalizing text with
  | nil => rw [dropPrefix?, Option.some.injEq, List.nil_append]
  | cons a front ih =>
      cases text with
      | nil => simp only [dropPrefix?, reduceCtorEq, List.cons_append]
      | cons c text =>
          rw [dropPrefix?, List.cons_append, List.cons.injEq]
          by_cases heq : a = c
          · rw [if_pos heq, ih]
            exact ⟨fun h => ⟨heq.symm, h⟩, fun h => h.2⟩
          · rw [if_neg heq]
            exact ⟨fun h => absurd h (Option.some_ne_none rest).symm, fun h => absurd h.1.symm heq⟩

/-- What is left of a path below a section comes after its name and a point. -/
theorem pathBelow?_eq_some_iff {name path rest : String} :
    pathBelow? name path = some rest ↔ path = name ++ "." ++ rest := by
  rw [pathBelow?, Option.map_eq_some_iff, ← String.toList_inj, String.toList_append,
    String.toList_append]
  -- Both texts are compared by their characters.
  constructor
  · rintro ⟨text, hdrop, rfl⟩
    have hrest : (String.ofList text).toList = text := String.toList_ofList
    rw [dropPrefix?_eq_some_iff.mp hdrop, hrest]
    rfl
  · intro h
    exact ⟨rest.toList, dropPrefix?_eq_some_iff.mpr h, String.ofList_toList⟩

/-- The names of sections, from the outermost one to the innermost one, with
    points between them. -/
def SectionHead.dotted (heads : List SectionHead) : String :=
  ".".intercalate (heads.map SectionHead.name)

namespace Segment

/-- The sections met on a way down: one of the segments, then one of its children,
    and so on. The places are those of the sections among the segments around
    them. -/
inductive Chain : List Segment → List Nat → List SectionHead → Prop
  | last {segments children : List Segment} {place : Nat} {head : SectionHead}
      (hplace : segments[place]? = some (.sect head children)) : Chain segments [place] [head]
  | down {segments children : List Segment} {place : Nat} {places : List Nat} {head : SectionHead}
      {heads : List SectionHead} (hplace : segments[place]? = some (.sect head children))
      (hbelow : Chain children places heads) : Chain segments (place :: places) (head :: heads)

/-- The chain has the given path, and no chain with this path comes before it. -/
structure IsFirst (segments : List Segment) (path : String) (places : List Nat)
    (heads : List SectionHead) : Prop where
  chain : Chain segments places heads
  dotted_eq : SectionHead.dotted heads = path
  first : ∀ earlier others, Chain segments earlier others → SectionHead.dotted others = path →
    ¬earlier < places

/-- The answer is right for the path: the span of the last section of the first
    chain, or nothing if there is no chain with the path. -/
def Answers (segments : List Segment) (path : String) : Option Span → Prop
  | none => ∀ places heads, Chain segments places heads → SectionHead.dotted heads ≠ path
  | some span => ∃ places heads, IsFirst segments path places heads ∧
      heads.getLast?.map SectionHead.span = some span

variable {segment : Segment} {segments children : List Segment} {path : String} {place : Nat}
  {places : List Nat} {head : SectionHead} {heads : List SectionHead}

theorem Chain.ne_nil (h : Chain segments places heads) : heads ≠ [] := by
  cases h with
  | last hplace => exact List.cons_ne_nil _ _
  | down hplace hbelow => exact List.cons_ne_nil _ _

theorem not_chain_nil : ¬Chain [] places heads := by
  intro h
  cases h with
  | last hplace => exact absurd hplace (Option.some_ne_none _).symm
  | down hplace hbelow => exact absurd hplace (Option.some_ne_none _).symm

/-- Only the segment at the first place of a chain matters. -/
theorem Chain.congr {others : List Segment} {other : Nat}
    (hsame : segments[place]? = others[other]?) (h : Chain segments (place :: places) heads) :
    Chain others (other :: places) heads := by
  cases h with
  | last hplace => exact .last (hsame ▸ hplace)
  | down hplace hbelow => exact .down (hsame ▸ hplace) hbelow

theorem chain_zero_iff :
    Chain (segment :: segments) (0 :: places) heads ↔ Chain [segment] (0 :: places) heads :=
  ⟨Chain.congr rfl, Chain.congr rfl⟩

theorem chain_succ_iff :
    Chain (segment :: segments) ((place + 1) :: places) heads ↔
      Chain segments (place :: places) heads :=
  ⟨Chain.congr rfl, Chain.congr rfl⟩

/-- A chain goes through the first segment or through the others. -/
theorem chain_cons_cases (h : Chain (segment :: segments) places heads) :
    (∃ below, places = 0 :: below ∧ Chain [segment] (0 :: below) heads) ∨
      ∃ place below, places = (place + 1) :: below ∧ Chain segments (place :: below) heads := by
  cases places with
  | nil => cases h
  | cons place below =>
      -- The place of the outermost section tells them apart.
      cases place with
      | zero => exact Or.inl ⟨below, rfl, chain_zero_iff.mp h⟩
      | succ place => exact Or.inr ⟨place, below, rfl, chain_succ_iff.mp h⟩

/-- A chain through a single segment starts at it, and it is a section. -/
theorem exists_of_chain_singleton (h : Chain [segment] places heads) :
    ∃ head children below, segment = .sect head children ∧ places = 0 :: below := by
  rcases chain_cons_cases h with ⟨below, rfl, hchain⟩ | ⟨place, below, rfl, hchain⟩
  · cases hchain with
    | last hplace => exact ⟨_, _, _, Option.some.inj hplace, rfl⟩
    | down hplace hbelow => exact ⟨_, _, _, Option.some.inj hplace, rfl⟩
  · exact absurd hchain not_chain_nil

/-- A chain through a section ends with it or goes on among its children. -/
theorem chain_sect_cases (h : Chain [.sect head children] places heads) :
    (places = [0] ∧ heads = [head]) ∨
      ∃ below rest, places = 0 :: below ∧ heads = head :: rest ∧ Chain children below rest := by
  rcases chain_cons_cases h with ⟨below, rfl, hchain⟩ | ⟨place, below, rfl, hchain⟩
  · cases hchain with
    | last hplace =>
        rw [List.getElem?_cons_zero, Option.some.injEq, sect.injEq] at hplace
        exact Or.inl ⟨rfl, by rw [hplace.1]⟩
    | down hplace hbelow =>
        rw [List.getElem?_cons_zero, Option.some.injEq, sect.injEq] at hplace
        rw [hplace.1]
        exact Or.inr ⟨_, _, rfl, rfl, hplace.2 ▸ hbelow⟩
  · exact absurd hchain not_chain_nil

/-- The places of a chain tell its sections. -/
theorem Chain.unique {others : List SectionHead} (h : Chain segments places heads)
    (hothers : Chain segments places others) : heads = others := by
  -- Level by level, the section at a place is the same for both.
  induction h generalizing others with
  | last hplace =>
      cases hothers with
      | last hplace' =>
          rw [hplace, Option.some.injEq, sect.injEq] at hplace'
          rw [hplace'.1]
      | down hplace' hbelow' => cases hbelow'
  | down hplace hbelow ih =>
      cases hothers with
      | last hplace' => cases hbelow
      | down hplace' hbelow' =>
          rw [hplace, Option.some.injEq, sect.injEq] at hplace'
          rw [hplace'.1, ih (hplace'.2 ▸ hbelow')]

/-- There is only one first chain. -/
theorem IsFirst.unique {places' : List Nat} {heads' : List SectionHead}
    (h : IsFirst segments path places heads) (h' : IsFirst segments path places' heads') :
    heads = heads' := by
  -- Neither comes before the other, and places are ordered linearly.
  have hplaces : places = places' := List.le_antisymm
    (List.not_lt.mp (h.first places' heads' h'.chain h'.dotted_eq))
    (List.not_lt.mp (h'.first places heads h.chain h.dotted_eq))
  exact h.chain.unique (hplaces ▸ h'.chain)

theorem dotted_singleton : SectionHead.dotted [head] = head.name :=
  String.intercalate_singleton

theorem dotted_cons (hheads : heads ≠ []) :
    SectionHead.dotted (head :: heads) = head.name ++ "." ++ SectionHead.dotted heads := by
  rcases List.exists_cons_of_ne_nil hheads with ⟨next, rest, rfl⟩
  rw [SectionHead.dotted, SectionHead.dotted, List.map_cons, List.map_cons,
    String.intercalate_cons_cons]

/-- A section whose name is the path is found. -/
theorem answers_sect_self (hname : head.name = path) :
    Answers [.sect head children] path (some head.span) := by
  -- The section itself comes before all that is inside of it.
  refine ⟨[0], [head], ⟨.last rfl, dotted_singleton.trans hname, ?_⟩, rfl⟩
  intro earlier others hchain _ hlt
  rcases chain_sect_cases hchain with ⟨rfl, _⟩ | ⟨below, rest, rfl, _, _⟩
  · exact List.lt_irrefl _ hlt
  · rcases List.cons_lt_cons_iff.mp hlt with hplace | ⟨_, hbelow⟩
    · exact Nat.lt_irrefl 0 hplace
    · exact List.not_lt_nil below hbelow

/-- Below a section with another name, the search is right if it is right among
    the children for what is left of the path. -/
theorem answers_sect_below {rest : String} {answer : Option Span} (hname : head.name ≠ path)
    (hpath : path = head.name ++ "." ++ rest) (h : Answers children rest answer) :
    Answers [.sect head children] path answer := by
  -- The chains with the path are those of the children with the rest of it.
  have hbelow : ∀ places heads, Chain [.sect head children] places heads →
      SectionHead.dotted heads = path → ∃ below inner, places = 0 :: below ∧
        heads = head :: inner ∧ Chain children below inner ∧ SectionHead.dotted inner = rest := by
    intro places heads hchain hdotted
    rcases chain_sect_cases hchain with ⟨_, rfl⟩ | ⟨below, inner, rfl, rfl, hinner⟩
    · exact absurd (dotted_singleton.symm.trans hdotted) hname
    · refine ⟨below, inner, rfl, rfl, hinner, ?_⟩
      rw [dotted_cons hinner.ne_nil, hpath] at hdotted
      exact String.append_right_inj _ |>.mp hdotted
  cases answer with
  | none =>
      intro places heads hchain hdotted
      rcases hbelow places heads hchain hdotted with ⟨below, inner, _, _, hinner, hrest⟩
      exact h below inner hinner hrest
  | some span =>
      rcases h with ⟨below, inner, hfirst, hlast⟩
      refine ⟨0 :: below, head :: inner, ⟨.down rfl hfirst.chain, ?_, ?_⟩, ?_⟩
      · rw [dotted_cons hfirst.chain.ne_nil, hfirst.dotted_eq, hpath]
      · -- An earlier chain would also be earlier among the children.
        intro earlier others hchain hdotted hlt
        rcases hbelow earlier others hchain hdotted with ⟨before, less, rfl, _, hless, hrest⟩
        rcases List.cons_lt_cons_iff.mp hlt with hplace | ⟨_, hbefore⟩
        · exact Nat.lt_irrefl 0 hplace
        · exact hfirst.first before less hless hrest hbefore
      · rw [List.getLast?_cons_of_ne_nil hfirst.chain.ne_nil]
        exact hlast

/-- In a segment that is no section, nothing is found. -/
theorem answers_of_ne_sect (hsegment : ∀ head children, segment ≠ .sect head children) :
    Answers [segment] path (locate path segment) := by
  rw [locate]
  · intro places heads hchain
    rcases exists_of_chain_singleton hchain with ⟨head, children, _, hsect, _⟩
    exact absurd hsect (hsegment head children)
  · exact hsegment

/-- Nor is anything found in a section if the path neither is its name nor goes
    on below it. -/
theorem answers_sect_none (hname : head.name ≠ path) (hpath : pathBelow? head.name path = none) :
    Answers [.sect head children] path none := by
  intro places heads hchain hdotted
  -- A chain of one section has its name, and a longer one goes on below it.
  rcases chain_sect_cases hchain with ⟨_, rfl⟩ | ⟨below, inner, _, rfl, hinner⟩
  · exact hname (dotted_singleton.symm.trans hdotted)
  · rw [dotted_cons hinner.ne_nil] at hdotted
    rw [pathBelow?_eq_some_iff.mpr hdotted.symm] at hpath
    exact absurd hpath (Option.some_ne_none _)

/-- What is found in the first segment comes before all else. -/
theorem answers_cons_some {span : Span} (h : Answers [segment] path (some span)) :
    Answers (segment :: segments) path (some span) := by
  rcases h with ⟨places, heads, hfirst, hlast⟩
  rcases chain_cons_cases hfirst.chain with ⟨below, rfl, hchain⟩ | ⟨place, below, rfl, hchain⟩
  · refine ⟨0 :: below, heads, ⟨chain_zero_iff.mpr hchain, hfirst.dotted_eq, ?_⟩, hlast⟩
    intro earlier others hothers hdotted hlt
    -- An earlier chain is in the first segment too, since all others have later places.
    rcases chain_cons_cases hothers with ⟨before, rfl, hbefore⟩ | ⟨place, before, rfl, _⟩
    · exact hfirst.first _ others hbefore hdotted hlt
    · rcases List.cons_lt_cons_iff.mp hlt with hplace | ⟨hplace, _⟩
      · exact Nat.not_lt_zero _ hplace
      · exact Nat.succ_ne_zero place hplace
  · exact absurd hchain not_chain_nil

/-- If the first segment has no chain with the path, the search goes on behind
    it. -/
theorem answers_cons_none {answer : Option Span} (hnone : Answers [segment] path none)
    (h : Answers segments path answer) : Answers (segment :: segments) path answer := by
  cases answer with
  | none =>
      intro places heads hchain
      rcases chain_cons_cases hchain with ⟨below, _, hfirst⟩ | ⟨place, below, _, hmore⟩
      · exact hnone _ heads hfirst
      · exact h _ heads hmore
  | some span =>
      rcases h with ⟨places, heads, hfirst, hlast⟩
      cases places with
      | nil => cases hfirst.chain
      | cons place below =>
          refine ⟨(place + 1) :: below, heads,
            ⟨chain_succ_iff.mpr hfirst.chain, hfirst.dotted_eq, ?_⟩, hlast⟩
          intro earlier others hothers hdotted hlt
          -- The first segment has no chain, so only those behind it are compared.
          rcases chain_cons_cases hothers with ⟨before, _, hbefore⟩ | ⟨other, before, rfl, hmore⟩
          · exact hnone _ others hbefore hdotted
          · refine hfirst.first _ others hmore hdotted (List.cons_lt_cons_iff.mpr ?_)
            rcases List.cons_lt_cons_iff.mp hlt with hplace | ⟨hplace, hbefore⟩
            · exact Or.inl (Nat.lt_of_succ_lt_succ hplace)
            · exact Or.inr ⟨Nat.succ.inj hplace, hbefore⟩

-- The induction is on the segments, for all paths, since a shorter path is looked
-- for below a section.
mutual

/-- The search in one segment is right. -/
theorem answers_locate (path : String) : ∀ segment : Segment,
    Answers [segment] path (locate path segment)
  | .sect head children => by
      rw [locate]
      by_cases hname : head.name = path
      · rw [if_pos hname]
        exact answers_sect_self hname
      · rw [if_neg hname]
        cases hpath : pathBelow? head.name path with
        | none => exact answers_sect_none hname hpath
        | some rest =>
            exact answers_sect_below hname (pathBelow?_eq_some_iff.mp hpath)
              (answers_locateAll rest children)
  | .text content => answers_of_ne_sect fun _ _ => Segment.noConfusion
  | .value name isEscaped => answers_of_ne_sect fun _ _ => Segment.noConfusion
  | .inverted name children => answers_of_ne_sect fun _ _ => Segment.noConfusion
  | .block b => answers_of_ne_sect fun _ _ => Segment.noConfusion
  | .reference r => answers_of_ne_sect fun _ _ => Segment.noConfusion
  | .parent r parameters => answers_of_ne_sect fun _ _ => Segment.noConfusion

/-- So is the search in segments in a row. -/
theorem answers_locateAll (path : String) : ∀ segments : List Segment,
    Answers segments path (locateAll path segments)
  | [] => by
      rw [locateAll]
      exact fun _ _ hchain => absurd hchain not_chain_nil
  | segment :: segments => by
      have hsegment := answers_locate path segment
      rw [locateAll]
      cases hlocate : locate path segment with
      | some span => exact answers_cons_some (hlocate ▸ hsegment)
      | none => exact answers_cons_none (hlocate ▸ hsegment) (answers_locateAll path segments)

end

end Segment

namespace Template

/-- A path has a span if there is a chain of sections whose names with points between
    them are the path, from a section that is in no other to one among the children
    of the section before it. The span is that of the last section of the first
    such chain, in the order of the text. -/
theorem locates_first_chain (template : Template) (path : String) :
    ((template.sectionSpan? path).isSome = true ↔
      ∃ places heads, Segment.Chain template.segments places heads ∧
        SectionHead.dotted heads = path) ∧
    ∀ span, template.sectionSpan? path = some span ↔
      ∃ places heads, Segment.IsFirst template.segments path places heads ∧
        heads.getLast?.map SectionHead.span = some span := by
  have hanswers := Segment.answers_locateAll path template.segments
  change Segment.Answers template.segments path (template.sectionSpan? path) at hanswers
  -- No span is found exactly if there is no chain, since a right answer tells which.
  cases hspan : template.sectionSpan? path with
  | none =>
      rw [hspan] at hanswers
      refine ⟨⟨fun h => absurd h Bool.false_ne_true, ?_⟩, fun span => ⟨fun h => ?_, ?_⟩⟩
      · rintro ⟨places, heads, hchain, hdotted⟩
        exact absurd hdotted (hanswers places heads hchain)
      · exact absurd h (Option.some_ne_none span).symm
      · rintro ⟨places, heads, hfirst, _⟩
        exact absurd hfirst.dotted_eq (hanswers places heads hfirst.chain)
  | some found =>
      rw [hspan] at hanswers
      rcases hanswers with ⟨places, heads, hfirst, hlast⟩
      refine ⟨⟨fun _ => ⟨places, heads, hfirst.chain, hfirst.dotted_eq⟩, fun _ => rfl⟩,
        fun span => ⟨fun h => ?_, ?_⟩⟩
      · exact ⟨places, heads, hfirst, hlast.trans h⟩
      · -- There is one first chain, so its last section is the one that was found.
        rintro ⟨others, heads', hfirst', hlast'⟩
        rw [hfirst.unique hfirst', hlast'] at hlast
        exact hlast.symm

-- The path begins with the name of a section that has no such section inside.
example : sectionSpan? ⟨[.sect ⟨"a", false, .standard, ⟨6, 19⟩, ""⟩
      [.sect ⟨"c", false, .standard, ⟨12, 12⟩, ""⟩ []],
    .sect ⟨"a.b", false, .standard, ⟨34, 40⟩, ""⟩ []]⟩ "a.b" = some ⟨34, 40⟩ := by
  decide

end Template

end Mustache
