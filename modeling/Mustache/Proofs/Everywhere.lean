import Mustache.Segment

/-!
# Properties of All Segments of a Tree

What can be said of a tree of segments by saying it of each segment in it: the
segments themselves, the children of sections and blocks, and the parameters of
parents, at any depth.

## Main definitions

* `Segment.Everywhere`, `Segment.EverywhereAll`: A property of all segments of a
  tree.

## Theorems

* `Segment.Everywhere.mono`, `Segment.EverywhereAll.mono`: A weaker property
  holds as well.
* `Segment.EverywhereAll.append`, `Segment.EverywhereAll.blocks`: It holds of
  segments in a row, and of the blocks among segments.
* `Segment.Everywhere.of_forall`, `Segment.EverywhereAll.of_forall`: A property of
  all segments holds of those of a tree.
-/

namespace Mustache

mutual

/-- The property holds of the segment and of all segments inside of it. -/
def Segment.Everywhere (p : Segment → Prop) : Segment → Prop
  | .text content => p (.text content)
  | .value name isEscaped => p (.value name isEscaped)
  | .sect head children => p (.sect head children) ∧ Segment.EverywhereAll p children
  | .inverted name children => p (.inverted name children) ∧ Segment.EverywhereAll p children
  | .block block => p (.block block) ∧ Block.Everywhere p block
  | .reference reference => p (.reference reference)
  | .parent reference parameters =>
    p (.parent reference parameters) ∧ Block.EverywhereAll p parameters

/-- The property holds of all segments inside of the block. -/
def Block.Everywhere (p : Segment → Prop) : Block → Prop
  | .mk _ children => Segment.EverywhereAll p children

/-- The property holds of the segments and of all segments inside of them. -/
def Segment.EverywhereAll (p : Segment → Prop) : List Segment → Prop
  | [] => True
  | segment :: segments => Segment.Everywhere p segment ∧ Segment.EverywhereAll p segments

/-- The property holds of all segments inside of the blocks. -/
def Block.EverywhereAll (p : Segment → Prop) : List Block → Prop
  | [] => True
  | block :: blocks => Block.Everywhere p block ∧ Block.EverywhereAll p blocks

end

section

variable {p q : Segment → Prop}

-- The induction is on the tree, one case for each kind of segment.
mutual

/-- What follows from a property holds where the property does. -/
theorem Segment.Everywhere.mono (himp : ∀ segment, p segment → q segment) :
    ∀ segment : Segment, segment.Everywhere p → segment.Everywhere q
  | .text content, h => by
      rw [Segment.Everywhere] at h ⊢
      exact himp _ h
  | .value name isEscaped, h => by
      rw [Segment.Everywhere] at h ⊢
      exact himp _ h
  | .sect head children, h => by
      rw [Segment.Everywhere] at h ⊢
      exact ⟨himp _ h.1, Segment.EverywhereAll.mono himp children h.2⟩
  | .inverted name children, h => by
      rw [Segment.Everywhere] at h ⊢
      exact ⟨himp _ h.1, Segment.EverywhereAll.mono himp children h.2⟩
  | .block block, h => by
      rw [Segment.Everywhere] at h ⊢
      exact ⟨himp _ h.1, Block.Everywhere.mono himp block h.2⟩
  | .reference reference, h => by
      rw [Segment.Everywhere] at h ⊢
      exact himp _ h
  | .parent reference parameters, h => by
      rw [Segment.Everywhere] at h ⊢
      exact ⟨himp _ h.1, Block.EverywhereAll.mono himp parameters h.2⟩

/-- The same for what is inside of a block. -/
theorem Block.Everywhere.mono (himp : ∀ segment, p segment → q segment) :
    ∀ block : Block, block.Everywhere p → block.Everywhere q
  | .mk name children, h => by
      rw [Block.Everywhere] at h ⊢
      exact Segment.EverywhereAll.mono himp children h

/-- The same for segments in a row. -/
theorem Segment.EverywhereAll.mono (himp : ∀ segment, p segment → q segment) :
    ∀ segments : List Segment, Segment.EverywhereAll p segments →
      Segment.EverywhereAll q segments
  | [], _ => by
      rw [Segment.EverywhereAll]
      trivial
  | segment :: segments, h => by
      rw [Segment.EverywhereAll] at h ⊢
      exact ⟨Segment.Everywhere.mono himp segment h.1,
        Segment.EverywhereAll.mono himp segments h.2⟩

/-- The same for the blocks that a parent is given. -/
theorem Block.EverywhereAll.mono (himp : ∀ segment, p segment → q segment) :
    ∀ blocks : List Block, Block.EverywhereAll p blocks → Block.EverywhereAll q blocks
  | [], _ => by
      rw [Block.EverywhereAll]
      trivial
  | block :: blocks, h => by
      rw [Block.EverywhereAll] at h ⊢
      exact ⟨Block.Everywhere.mono himp block h.1, Block.EverywhereAll.mono himp blocks h.2⟩

end

end

section

variable {p : Segment → Prop} {segments front back : List Segment}

/-- Two rows of segments have the property if each of them has. -/
theorem Segment.EverywhereAll.append (h : Segment.EverywhereAll p front)
    (h' : Segment.EverywhereAll p back) : Segment.EverywhereAll p (front ++ back) := by
  induction front with
  | nil => exact h'
  | cons segment front ih =>
      rw [Segment.EverywhereAll] at h
      rw [List.cons_append, Segment.EverywhereAll]
      exact ⟨h.1, ih h.2⟩

theorem Segment.everywhereAll_singleton {segment : Segment} (h : segment.Everywhere p) :
    Segment.EverywhereAll p [segment] := by
  rw [Segment.EverywhereAll, Segment.EverywhereAll]
  exact ⟨h, trivial⟩

/-- What holds of all segments holds of the blocks among them and inside of those. -/
theorem Segment.EverywhereAll.blocks (h : Segment.EverywhereAll p segments) :
    (∀ block ∈ Segment.blocks segments, p (.block block)) ∧
      Block.EverywhereAll p (Segment.blocks segments) := by
  induction segments with
  | nil =>
      rw [show Segment.blocks [] = [] from rfl, Block.EverywhereAll]
      exact ⟨fun block hmem => absurd hmem List.not_mem_nil, trivial⟩
  | cons segment segments ih =>
      rw [Segment.EverywhereAll] at h
      have hrest := ih h.2
      cases segment with
      | block first =>
          have hfirst := h.1
          rw [Segment.Everywhere] at hfirst
          rw [show Segment.blocks (.block first :: segments) = first :: Segment.blocks segments from
            rfl, Block.EverywhereAll]
          exact ⟨List.forall_mem_cons.mpr ⟨hfirst.1, hrest.1⟩, hfirst.2, hrest.2⟩
      | _ => exact hrest

end

section

variable {p : Segment → Prop}

-- Again by induction on the tree.
mutual

/-- A property of all segments holds everywhere in a tree. -/
theorem Segment.Everywhere.of_forall (h : ∀ segment, p segment) :
    ∀ segment : Segment, segment.Everywhere p
  | .text content => by
      rw [Segment.Everywhere]
      exact h _
  | .value name isEscaped => by
      rw [Segment.Everywhere]
      exact h _
  | .sect head children => by
      rw [Segment.Everywhere]
      exact ⟨h _, Segment.EverywhereAll.of_forall h children⟩
  | .inverted name children => by
      rw [Segment.Everywhere]
      exact ⟨h _, Segment.EverywhereAll.of_forall h children⟩
  | .block block => by
      rw [Segment.Everywhere]
      exact ⟨h _, Block.Everywhere.of_forall h block⟩
  | .reference reference => by
      rw [Segment.Everywhere]
      exact h _
  | .parent reference parameters => by
      rw [Segment.Everywhere]
      exact ⟨h _, Block.EverywhereAll.of_forall h parameters⟩

theorem Block.Everywhere.of_forall (h : ∀ segment, p segment) :
    ∀ block : Block, block.Everywhere p
  | .mk name children => by
      rw [Block.Everywhere]
      exact Segment.EverywhereAll.of_forall h children

theorem Segment.EverywhereAll.of_forall (h : ∀ segment, p segment) :
    ∀ segments : List Segment, Segment.EverywhereAll p segments
  | [] => by
      rw [Segment.EverywhereAll]
      trivial
  | segment :: segments => by
      rw [Segment.EverywhereAll]
      exact ⟨Segment.Everywhere.of_forall h segment, Segment.EverywhereAll.of_forall h segments⟩

theorem Block.EverywhereAll.of_forall (h : ∀ segment, p segment) :
    ∀ blocks : List Block, Block.EverywhereAll p blocks
  | [] => by
      rw [Block.EverywhereAll]
      trivial
  | block :: blocks => by
      rw [Block.EverywhereAll]
      exact ⟨Block.Everywhere.of_forall h block, Block.EverywhereAll.of_forall h blocks⟩

end

end

end Mustache
