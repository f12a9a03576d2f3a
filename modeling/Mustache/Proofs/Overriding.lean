import Mustache.Segment.Override

/-!
# Laws of Overriding

What becomes of segments when their blocks are replaced more than once, as
happens when a parent leads to a template that is a parent itself. Replacing
blocks by some and then by others is replacing them once, by both together,
where the blocks given last take precedence. This is how a parent merges the
blocks it is given with its own.

The law needs that the later blocks leave alone what the earlier ones brought
in. A block in force is put in place as it is, so the second replacement sees
its segments, while a replacement by both at once does not look into it. Blocks
that are replaced the second time do not matter, so replacing blocks a second
time by the same ones never changes anything.

## Main definitions

* `Block.without`: The blocks whose names others do not have.
* `Block.Spares`: What blocks replace is not found in the segments of others.

## Theorems

* `Block.find?_merge`: A name stands for a block of the later ones, or else for
  one of the earlier ones.
* `Block.merge_merge`: Merging is associative.
* `Segment.overrideAll_nil`: No blocks replace nothing.
* `Segment.overrideAll_overrideAll`: Two replacements are one by merged blocks.
* `Segment.overrideAll_laws`: The three laws together.
-/

namespace Mustache

namespace Block

/-- The blocks of `own` whose names are no names of the blocks `others`. -/
def without (own others : List Block) : List Block :=
  own.filter fun block => others.all fun other => other.name != block.name

/-- A name that no block has is not found. -/
theorem find?_eq_none_iff {name : String} {blocks : List Block} :
    find? name blocks = none ↔ ∀ block ∈ blocks, block.name ≠ name := by
  simp only [find?, List.find?_eq_none, beq_iff_eq, ne_eq]

/-- A block that is found has the name. -/
theorem name_of_find? {name : String} {blocks : List Block} {block : Block}
    (h : find? name blocks = some block) : block.name = name := by
  have hname := List.find?_some h
  exact beq_iff_eq.mp hname

/-- The blocks that are kept come before those that are given. -/
theorem merge_eq (own blocks : List Block) : merge own blocks = without own blocks ++ blocks := by
  have hkept : ∀ block ∈ own, (find? block.name blocks).isNone =
      blocks.all fun other => other.name != block.name := by
    intro block _
    -- Not being found and having another name than all are the same.
    rw [Bool.eq_iff_iff, Option.isNone_iff_eq_none, find?_eq_none_iff, List.all_eq_true]
    simp only [bne_iff_ne, ne_eq]
  rw [merge, without, List.filter_congr hkept]

/-- Merging with no blocks keeps all of them. -/
theorem merge_nil (own : List Block) : merge own [] = own := by
  rw [merge_eq, without, List.append_nil]
  exact List.filter_eq_self.mpr fun block _ => rfl

/-- Merging blocks with themselves leaves them as they are. -/
theorem merge_self (blocks : List Block) : merge blocks blocks = blocks := by
  have hnone : without blocks blocks = [] := by
    rw [without, List.filter_eq_nil_iff]
    intro block hblock hall
    exact bne_iff_ne.mp (List.all_eq_true.mp hall block hblock) rfl
  rw [merge_eq, hnone, List.nil_append]

/-- A block that is left out has a name of the later blocks, so no other name
    misses it. -/
theorem find?_without_of_none {name : String} {others : List Block}
    (h : find? name others = none) (own : List Block) :
    find? name (without own others) = find? name own := by
  rw [find?, without, List.find?_filter, find?]
  congr 1
  funext block
  rw [Bool.eq_iff_iff, decide_eq_true_eq]
  refine ⟨fun hboth => hboth.2, fun hname => ⟨?_, hname⟩⟩
  rw [List.all_eq_true]
  intro other hother
  rw [bne_iff_ne, beq_iff_eq.mp hname]
  exact find?_eq_none_iff.mp h other hother

/-- A name of the later blocks is left out of the earlier ones. -/
theorem find?_without_of_some {name : String} {others : List Block} {block : Block}
    (h : find? name others = some block) (own : List Block) :
    find? name (without own others) = none := by
  rw [find?_eq_none_iff]
  intro kept hkept hname
  have hall := (List.mem_filter.mp hkept).2
  have hne := List.all_eq_true.mp hall block (List.mem_of_find?_eq_some h)
  exact bne_iff_ne.mp hne ((name_of_find? h).trans hname.symm)

/-- A name stands for a block of the later ones, or else for one of the earlier
    ones. -/
theorem find?_merge (name : String) (own blocks : List Block) :
    find? name (merge own blocks) = (find? name blocks).or (find? name own) := by
  rw [merge_eq, find?, List.find?_append]
  change (find? name (without own blocks)).or (find? name blocks) = _
  cases h : find? name blocks with
  | none => rw [find?_without_of_none h, Option.or_none, Option.none_or]
  | some block => rw [find?_without_of_some h, Option.none_or, Option.some_or]

theorem isNone_find?_merge (name : String) (own blocks : List Block) :
    (find? name (merge own blocks)).isNone =
      ((find? name own).isNone && (find? name blocks).isNone) := by
  rw [find?_merge]
  cases find? name blocks with
  | none => rw [Option.none_or, Option.isNone_none, Bool.and_true]
  | some block => rw [Option.some_or, Option.isNone_some, Bool.and_false]

/-- Blocks are merged in any grouping. -/
theorem merge_merge (own blocks others : List Block) :
    merge (merge own blocks) others = merge own (merge blocks others) := by
  have hkept : (fun block : Block => (find? block.name (merge blocks others)).isNone) =
      fun block => (find? block.name others).isNone && (find? block.name blocks).isNone := by
    funext block
    rw [isNone_find?_merge, Bool.and_comm]
  -- Both sides keep a block of the first ones if none of the others has its name.
  rw [merge.eq_1 own (merge blocks others), hkept, merge.eq_1 (merge own blocks) others,
    merge.eq_1 own blocks, merge.eq_1 blocks others, List.filter_append, List.filter_filter,
    List.append_assoc]

/-- The blocks `others` replace nothing in the segments of a block of `own`,
    unless they replace that block itself. -/
def Spares (others own : List Block) : Prop :=
  ∀ block ∈ own, find? block.name others = none →
    Segment.overrideAll others block.children = block.children

end Block

namespace Segment

-- The induction is on the segments; a parent is settled by its parameters alone.
mutual

/-- No blocks replace nothing in a segment. -/
theorem override_nil : ∀ segment : Segment, override [] segment = segment
  | .text content => by rw [override]
  | .value name isEscaped => by rw [override]
  | .sect head children => by rw [override, overrideAll_nil children]
  | .inverted name children => by rw [override, overrideAll_nil children]
  | .block (.mk name children) => by
      simp only [override, show Block.find? name [] = none from rfl, overrideAll_nil children]
  | .reference r => by rw [override]
  | .parent r parameters => by rw [override, Block.merge_nil]

/-- No blocks replace nothing in segments. -/
theorem overrideAll_nil : ∀ segments : List Segment, overrideAll [] segments = segments
  | [] => by rw [overrideAll]
  | segment :: segments => by
      rw [overrideAll, override_nil segment, overrideAll_nil segments]

end

section

variable {own blocks : List Block}

-- A block is looked up among the later blocks first. Where it is none of them,
-- it was replaced by an earlier block, which they spare, or by none.
mutual

/-- Replacing blocks in a segment twice is replacing them by the merged blocks. -/
theorem override_override (hspares : Block.Spares blocks own) : ∀ segment : Segment,
    override blocks (override own segment) = override (Block.merge own blocks) segment
  | .text content => by rw [override, override, override]
  | .value name isEscaped => by rw [override, override, override]
  | .sect head children => by
      rw [override, override, override, overrideAll_overrideAll hspares children]
  | .inverted name children => by
      rw [override, override, override, overrideAll_overrideAll hspares children]
  | .block (.mk name children) => by
      have hmerge := Block.find?_merge name own blocks
      -- An earlier block may have this name.
      cases hown : Block.find? name own with
      | none =>
          simp only [override, hown, hmerge, Option.or_none]
          cases hblocks : Block.find? name blocks with
          | none => simp only [overrideAll_overrideAll hspares children]
          | some other => rfl
      | some replaced =>
          rcases replaced with ⟨name', body⟩
          have hname : name' = name := Block.name_of_find? hown
          simp only [override, hown, hmerge, hname]
          cases hblocks : Block.find? name blocks with
          | none =>
              -- The later blocks find nothing to replace in what was put in.
              have hbody := hspares (.mk name' body) (List.mem_of_find?_eq_some hown)
                (hname ▸ hblocks)
              simp only [Option.none_or, show overrideAll blocks body = body from hbody]
          | some other => rfl
  | .reference r => by rw [override, override, override]
  | .parent r parameters => by
      rw [override, override, override, Block.merge_merge]

/-- Replacing blocks twice is replacing them by the merged blocks, if the later
    ones spare the earlier ones. -/
theorem overrideAll_overrideAll (hspares : Block.Spares blocks own) : ∀ segments : List Segment,
    overrideAll blocks (overrideAll own segments) = overrideAll (Block.merge own blocks) segments
  | [] => by rw [overrideAll, overrideAll, overrideAll]
  | segment :: segments => by
      rw [overrideAll, overrideAll, overrideAll, override_override hspares segment,
        overrideAll_overrideAll hspares segments]

end

end

/-- Replacing blocks is an action of merged blocks: none replace nothing, the
    same blocks replace nothing more the second time, and replacing by `own` and
    then by `blocks` is replacing by both, merged as a parent merges its
    parameters with the blocks it is given. -/
theorem overrideAll_laws (segments : List Segment) (own blocks : List Block) :
    overrideAll [] segments = segments ∧
    overrideAll blocks (overrideAll blocks segments) = overrideAll blocks segments ∧
    ((∀ block ∈ own, overrideAll blocks block.children = block.children) →
      overrideAll blocks (overrideAll own segments) =
        overrideAll (Block.without own blocks ++ blocks) segments) ∧
    ∀ reference, override blocks (.parent reference own) =
      .parent reference (Block.without own blocks ++ blocks) := by
  refine ⟨overrideAll_nil segments, ?_, fun hstable => ?_, fun reference => ?_⟩
  · -- Every block of the same name is replaced again, so there is nothing to spare.
    have hspares : Block.Spares blocks blocks := fun block hblock hnone =>
      absurd rfl (Block.find?_eq_none_iff.mp hnone block hblock)
    rw [overrideAll_overrideAll hspares, Block.merge_self]
  · rw [overrideAll_overrideAll fun block hblock _ => hstable block hblock, Block.merge_eq]
  · rw [override, Block.merge_eq]

/-- A layout in which a block is replaced and a parent takes the blocks along.
    Of the two blocks named `b` that were put in first none is left. -/
theorem overrideAll_laws_of_layout :
    (∀ block ∈ [Block.mk "b" [.text "1"], .mk "a" [.block (.mk "c" [])], .mk "b" []],
      overrideAll [.mk "b" [.text "2"]] block.children = block.children) ∧
    overrideAll [.mk "b" [.text "2"]]
        (overrideAll [.mk "b" [.text "1"], .mk "a" [.block (.mk "c" [])], .mk "b" []]
          [.inverted "x" [.block (.mk "b" [])], .parent ⟨"p", false, ""⟩ [.mk "d" []]]) =
      [.inverted "x" [.block (.mk "b" [.text "2"])],
        .parent ⟨"p", false, ""⟩
          [.mk "d" [], .mk "a" [.block (.mk "c" [])], .mk "b" [.text "2"]]] := by
  have hstable : ∀ block ∈ [Block.mk "b" [.text "1"], .mk "a" [.block (.mk "c" [])], .mk "b" []],
      overrideAll [.mk "b" [.text "2"]] block.children = block.children := by
    intro block hblock
    simp only [List.mem_cons, List.not_mem_nil, or_false] at hblock
    rcases hblock with rfl | rfl | rfl <;> rfl
  exact ⟨hstable, ((overrideAll_laws _ _ _).2.2.1 hstable).trans rfl⟩

end Segment

end Mustache
