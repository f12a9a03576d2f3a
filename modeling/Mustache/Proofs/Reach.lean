import Mathlib.Data.List.Nodup
import Mustache.Proofs.Overriding

/-!
# How Far Overriding Reaches

Where replacing blocks replaces them. Blocks are replaced at any depth of
sections and of blocks that stay, and a parent takes all of them among its
parameters, in place of its own of the same names. Wherever this comes to, every
block with a name of theirs is the one of that name.

It does not come to the parameters that a parent keeps. These stay as they are,
with all the blocks in them, so a block that a template declares inside of a
parameter of its own parent is not replaced by the pages that show the template.
This is the only place that is left out: all blocks are replaced if and only if
there is nothing to replace in the parameters that are kept.

## Main definitions

* `Block.IsInForce`: A block is the one that is given for its name.
* `Segment.opened`: The segments of a section or of a block that stays.
* `Segment.Reaches`: What is in sections and in blocks that stay, at any depth.
* `Segment.Holds`: A block stands among segments or is a parameter there.
* `Segment.KeepsParameter`: A parameter that no block is given for.
* `Segment.HasBlock`: A block stands anywhere, but not in one that was put in.

## Theorems

* `Segment.reaches_overrideAll_iff`: Replacing goes the way it went before.
* `Segment.keepsParameter_overrideAll_iff`: Kept parameters stay as they are.
* `Segment.overrideAll_reaches`: Every block is replaced, but in kept parameters.
-/

namespace Mustache

variable {blocks : List Block}

namespace Block

/-- The block is the one of `blocks` that has its name, if there is one. -/
def IsInForce (blocks : List Block) (block : Block) : Prop :=
  ∀ other, find? block.name blocks = some other → block = other

/-- A block whose name is not given is in force. -/
theorem isInForce_of_none {block : Block} (h : find? block.name blocks = none) :
    block.IsInForce blocks := by
  intro other hother
  rw [h] at hother
  cases hother

/-- A block that is found is found by its own name. -/
theorem find?_name_of_find? {name : String} {block : Block} (h : find? name blocks = some block) :
    find? block.name blocks = some block := by
  rw [name_of_find? h, h]

/-- A block that is found is in force. -/
theorem isInForce_of_find? {name : String} {block : Block} (h : find? name blocks = some block) :
    block.IsInForce blocks := by
  intro other hother
  rw [find?_name_of_find? h] at hother
  exact Option.some.inj hother

/-- A block whose name is not given is none of the given ones. -/
theorem notMem_of_find?_eq_none {block : Block} (h : find? block.name blocks = none) :
    block ∉ blocks :=
  fun hmem => find?_eq_none_iff.mp h block hmem rfl

/-- The given blocks are in force if no two of them have one name. -/
theorem isInForce_of_mem (hdistinct : (blocks.map Block.name).Nodup) {block : Block}
    (h : block ∈ blocks) : block.IsInForce blocks := by
  intro other hother
  exact List.inj_on_of_nodup_map hdistinct h (List.mem_of_find?_eq_some hother)
    (name_of_find? hother).symm

theorem mem_merge_iff {own : List Block} {block : Block} :
    block ∈ merge own blocks ↔ block ∈ own ∧ find? block.name blocks = none ∨ block ∈ blocks := by
  rw [merge, List.mem_append, List.mem_filter, Option.isNone_iff_eq_none]

end Block

namespace Segment

/-- The segments that replacing blocks goes on with: those of a section, and
    those of a block that none of `blocks` is put in place of. -/
def opened (blocks : List Block) : Segment → Option (List Segment)
  | sect _ children => some children
  | inverted _ children => some children
  | block b => if (Block.find? b.name blocks).isNone then some b.children else none
  | _ => none

/-- The segments `inner` are `segments`, or they are in sections and in blocks
    that stay, at any depth. -/
inductive Reaches (blocks : List Block) : List Segment → List Segment → Prop
  | here (segments : List Segment) : Reaches blocks segments segments
  | into {segment : Segment} {segments children inner : List Segment} :
      segment ∈ segments → segment.opened blocks = some children →
      Reaches blocks children inner → Reaches blocks segments inner

/-- The block is one of the segments, or a parameter of a parent among them. -/
def Holds (segments : List Segment) (b : Block) : Prop :=
  block b ∈ segments ∨ ∃ r parameters, parent r parameters ∈ segments ∧ b ∈ parameters

/-- A parent that is reached has the parameter, and none of `blocks` is given in
    its place. -/
def KeepsParameter (blocks : List Block) (segments : List Segment) (parameter : Block) : Prop :=
  ∃ inner r parameters, Reaches blocks segments inner ∧ parent r parameters ∈ inner ∧
    parameter ∈ parameters ∧ Block.find? parameter.name blocks = none

/-- The block stands somewhere in the segments, at any depth of sections, blocks
    and parameters, but not inside of one of `blocks`. -/
inductive HasBlock (blocks : List Block) : List Segment → Block → Prop
  | here {segments : List Segment} {b : Block} : Holds segments b → HasBlock blocks segments b
  | sect {head : SectionHead} {segments children : List Segment} {b : Block} :
      Segment.sect head children ∈ segments → HasBlock blocks children b →
      HasBlock blocks segments b
  | inverted {name : String} {segments children : List Segment} {b : Block} :
      Segment.inverted name children ∈ segments → HasBlock blocks children b →
      HasBlock blocks segments b
  | inside {outer : Block} {segments : List Segment} {b : Block} :
      Holds segments outer → outer ∉ blocks → HasBlock blocks outer.children b →
      HasBlock blocks segments b

/-! ### Where replacing goes -/

theorem overrideAll_eq_map (segments : List Segment) :
    overrideAll blocks segments = segments.map (override blocks) := by
  induction segments with
  | nil => rw [overrideAll, List.map_nil]
  | cons segment segments ih => rw [overrideAll, ih, List.map_cons]

theorem mem_overrideAll_iff {segment : Segment} {segments : List Segment} :
    segment ∈ overrideAll blocks segments ↔
      ∃ original ∈ segments, override blocks original = segment := by
  rw [overrideAll_eq_map, List.mem_map]

theorem override_block_of_none {b : Block} (h : Block.find? b.name blocks = none) :
    override blocks (block b) = block (.mk b.name (overrideAll blocks b.children)) := by
  rcases b with ⟨name, children⟩
  simp only [override, show Block.find? name blocks = none from h, Block.name, Block.children]

theorem override_block_of_some {b other : Block} (h : Block.find? b.name blocks = some other) :
    override blocks (block b) = block other := by
  rcases b with ⟨name, children⟩
  simp only [override, show Block.find? name blocks = some other from h]

/-- A replaced block is not gone on with, and what is gone on with is replaced
    in place. -/
theorem opened_override (segment : Segment) :
    (override blocks segment).opened blocks = (segment.opened blocks).map (overrideAll blocks) := by
  cases segment with
  | text content => rw [override]; rfl
  | value name isEscaped => rw [override]; rfl
  | sect head children => rw [override]; rfl
  | inverted name children => rw [override]; rfl
  | block b =>
      cases h : Block.find? b.name blocks with
      | none =>
          rw [override_block_of_none h, opened, opened, if_pos (Option.isNone_iff_eq_none.mpr h)]
          exact if_pos (Option.isNone_iff_eq_none.mpr h)
      | some other =>
          rw [override_block_of_some h, opened, opened, Block.find?_name_of_find? h, h]
          rfl
  | reference r => rw [override]; rfl
  | parent r parameters => rw [override]; rfl

/-- Replacing goes the same way through segments that are replaced already, and
    finds there what it left. -/
theorem reaches_overrideAll_iff {segments inner : List Segment} :
    Reaches blocks (overrideAll blocks segments) inner ↔
      ∃ original, Reaches blocks segments original ∧ overrideAll blocks original = inner := by
  -- The induction follows the way down; one step of it in the overridden segments is
  -- one step in the original ones.
  constructor
  · intro h
    generalize hresult : overrideAll blocks segments = result at h
    induction h generalizing segments with
    | here result => exact ⟨segments, .here segments, hresult⟩
    | into hmem hopened _ ih =>
        subst hresult
        rcases mem_overrideAll_iff.mp hmem with ⟨segment, hsegment, rfl⟩
        rw [opened_override, Option.map_eq_some_iff] at hopened
        rcases hopened with ⟨children, hchildren, rfl⟩
        rcases ih rfl with ⟨original, hreaches, horiginal⟩
        exact ⟨original, .into hsegment hchildren hreaches, horiginal⟩
  · rintro ⟨original, hreaches, rfl⟩
    induction hreaches with
    | here segments => exact .here _
    | @into segment segments children inner hmem hopened _ ih =>
        have hnext : (override blocks segment).opened blocks =
            some (overrideAll blocks children) := by
          rw [opened_override, hopened, Option.map_some]
        exact .into (mem_overrideAll_iff.mpr ⟨segment, hmem, rfl⟩) hnext ih

/-! ### What stands there -/

theorem block_mem_overrideAll {segments : List Segment} {b : Block}
    (h : block b ∈ overrideAll blocks segments) :
    ∃ original, block original ∈ segments ∧ override blocks (block original) = block b := by
  rcases mem_overrideAll_iff.mp h with ⟨segment, hmem, hsegment⟩
  cases segment with
  | block original => exact ⟨original, hmem, hsegment⟩
  | _ => rw [override] at hsegment; cases hsegment

/-- Where a parent stands, a parent stood before, and its parameters were
    merged. -/
theorem parent_mem_overrideAll_iff {segments : List Segment} {r : Reference}
    {parameters : List Block} :
    parent r parameters ∈ overrideAll blocks segments ↔
      ∃ own, parent r own ∈ segments ∧ Block.merge own blocks = parameters := by
  constructor
  · intro h
    rcases mem_overrideAll_iff.mp h with ⟨segment, hmem, hsegment⟩
    cases segment with
    | parent r' own =>
        rw [override] at hsegment
        cases hsegment
        exact ⟨own, hmem, rfl⟩
    | block b =>
        rcases b with ⟨name, children⟩
        rw [override] at hsegment
        split at hsegment <;> cases hsegment
    | _ => rw [override] at hsegment; cases hsegment
  · rintro ⟨own, hmem, rfl⟩
    exact mem_overrideAll_iff.mpr ⟨.parent r own, hmem, by rw [override]⟩

/-- What stands where a block is given for it is replaced, also as a parameter. -/
theorem holds_overrideAll {segments : List Segment} {b other : Block}
    (hother : Block.find? b.name blocks = some other) (h : Holds segments b) :
    Holds (overrideAll blocks segments) other := by
  rcases h with hblock | ⟨r, own, hparent, -⟩
  · exact .inl (mem_overrideAll_iff.mpr ⟨block b, hblock, override_block_of_some hother⟩)
  · exact .inr ⟨r, _, parent_mem_overrideAll_iff.mpr ⟨own, hparent, rfl⟩,
      Block.mem_merge_iff.mpr (.inr (List.mem_of_find?_eq_some hother))⟩

/-- Where segments were replaced, no other block stands under a given name. -/
theorem isInForce_of_holds (hdistinct : (blocks.map Block.name).Nodup) {segments : List Segment}
    {b : Block} (h : Holds (overrideAll blocks segments) b) : b.IsInForce blocks := by
  rcases h with hblock | ⟨r, parameters, hparent, hb⟩
  · rcases block_mem_overrideAll hblock with ⟨original, -, horiginal⟩
    -- A block among the segments stayed or was put in.
    cases hfind : Block.find? original.name blocks with
    | none =>
        rw [override_block_of_none hfind, Segment.block.injEq] at horiginal
        subst horiginal
        exact Block.isInForce_of_none hfind
    | some other =>
        rw [override_block_of_some hfind, Segment.block.injEq] at horiginal
        subst horiginal
        exact Block.isInForce_of_find? hfind
  · rcases parent_mem_overrideAll_iff.mp hparent with ⟨own, -, rfl⟩
    -- A parameter was kept or is one of the given blocks.
    rcases Block.mem_merge_iff.mp hb with ⟨-, hnone⟩ | hmem
    · exact Block.isInForce_of_none hnone
    · exact Block.isInForce_of_mem hdistinct hmem

/-- A parameter that is kept is kept as it is. -/
theorem keepsParameter_overrideAll_iff {segments : List Segment} {parameter : Block} :
    KeepsParameter blocks (overrideAll blocks segments) parameter ↔
      KeepsParameter blocks segments parameter := by
  constructor
  · rintro ⟨inner, r, parameters, hreaches, hparent, hmem, hnone⟩
    rcases reaches_overrideAll_iff.mp hreaches with ⟨original, horiginal, rfl⟩
    rcases parent_mem_overrideAll_iff.mp hparent with ⟨own, hown, rfl⟩
    rcases Block.mem_merge_iff.mp hmem with ⟨hkept, -⟩ | hgiven
    · exact ⟨original, r, own, horiginal, hown, hkept, hnone⟩
    · exact absurd hgiven (Block.notMem_of_find?_eq_none hnone)
  · rintro ⟨inner, r, own, hreaches, hparent, hmem, hnone⟩
    exact ⟨_, r, _, reaches_overrideAll_iff.mpr ⟨inner, hreaches, rfl⟩,
      parent_mem_overrideAll_iff.mpr ⟨own, hparent, rfl⟩,
      Block.mem_merge_iff.mpr (.inl ⟨hmem, hnone⟩), hnone⟩

/-! ### All blocks -/

/-- A block that is found in what is reached is found from the start. -/
theorem HasBlock.of_reaches {segments inner : List Segment} {b : Block}
    (hreaches : Reaches blocks segments inner) (h : HasBlock blocks inner b) :
    HasBlock blocks segments b := by
  induction hreaches with
  | here segments => exact h
  | @into segment segments children inner hmem hopened _ ih =>
      cases segment with
      | sect head own =>
          cases hopened
          exact .sect hmem (ih h)
      | inverted name own =>
          cases hopened
          exact .inverted hmem (ih h)
      | block outer =>
          rw [opened] at hopened
          split at hopened
          next hnone =>
            cases hopened
            have hstays := Block.notMem_of_find?_eq_none (Option.isNone_iff_eq_none.mp hnone)
            exact .inside (.inl hmem) hstays (ih h)
          next => cases hopened
      | _ => cases hopened

theorem KeepsParameter.into {segment : Segment} {segments children : List Segment}
    {parameter : Block} (h : KeepsParameter blocks children parameter) (hmem : segment ∈ segments)
    (hopened : segment.opened blocks = some children) :
    KeepsParameter blocks segments parameter := by
  rcases h with ⟨inner, r, parameters, hreaches, hkept⟩
  exact ⟨inner, r, parameters, .into hmem hopened hreaches, hkept⟩

/-- All blocks are those in force if they are where replacing comes to, and in
    the parameters that are kept. -/
theorem HasBlock.isInForce {segments : List Segment} {b : Block} (h : HasBlock blocks segments b)
    (hreached : ∀ inner, Reaches blocks segments inner →
      ∀ outer, Holds inner outer → outer.IsInForce blocks)
    (hkept : ∀ parameter, KeepsParameter blocks segments parameter →
      ∀ inside, HasBlock blocks parameter.children inside → inside.IsInForce blocks) :
    b.IsInForce blocks := by
  -- The induction goes down to the block. It comes past the parameters that are kept,
  -- or else it goes where replacing goes.
  induction h with
  | here hholds => exact hreached _ (.here _) _ hholds
  | sect hmem _ ih =>
      exact ih (fun inner hinner => hreached inner (.into hmem rfl hinner))
        fun parameter hparameter => hkept parameter (hparameter.into hmem rfl)
  | inverted hmem _ ih =>
      exact ih (fun inner hinner => hreached inner (.into hmem rfl hinner))
        fun parameter hparameter => hkept parameter (hparameter.into hmem rfl)
  | @inside outer segments b hholds hnotMem hinside ih =>
      -- A block that is gone into has no given name, or it would be the given one.
      have hnone : Block.find? outer.name blocks = none := by
        cases hfind : Block.find? outer.name blocks with
        | none => rfl
        | some other =>
            have houter := hreached _ (.here _) outer hholds other hfind
            exact absurd (houter ▸ List.mem_of_find?_eq_some hfind) hnotMem
      rcases hholds with hmem | ⟨r, parameters, hparent, hmem⟩
      · have hopened : (Segment.block outer).opened blocks = some outer.children := by
          rw [opened, if_pos (Option.isNone_iff_eq_none.mpr hnone)]
        exact ih (fun inner hinner => hreached inner (.into hmem hopened hinner))
          fun parameter hparameter => hkept parameter (hparameter.into hmem hopened)
      · exact hkept outer ⟨segments, r, parameters, .here segments, hparent, hmem, hnone⟩ b hinside

/-- Replacing blocks by `blocks`, of which no two have the same name, goes
    through sections and through blocks that stay. What it comes to holds the
    blocks in force and no others of their names, neither as segments nor as
    parameters, and holds them wherever there was one to replace. Parameters that
    are kept stay as they were, and so the blocks everywhere are those in force
    if and only if they already are in the parameters that are kept. -/
theorem overrideAll_reaches (hdistinct : (blocks.map Block.name).Nodup)
    (segments : List Segment) :
    (∀ inner, Reaches blocks (overrideAll blocks segments) inner ↔
      ∃ original, Reaches blocks segments original ∧ overrideAll blocks original = inner) ∧
    (∀ inner, Reaches blocks (overrideAll blocks segments) inner →
      ∀ b, Holds inner b → b.IsInForce blocks) ∧
    (∀ original b other, Block.find? b.name blocks = some other →
      Holds original b → Holds (overrideAll blocks original) other) ∧
    (∀ parameter, KeepsParameter blocks (overrideAll blocks segments) parameter ↔
      KeepsParameter blocks segments parameter) ∧
    ((∀ b, HasBlock blocks (overrideAll blocks segments) b → b.IsInForce blocks) ↔
      ∀ parameter, KeepsParameter blocks segments parameter →
        ∀ b, HasBlock blocks parameter.children b → b.IsInForce blocks) := by
  have hreached : ∀ inner, Reaches blocks (overrideAll blocks segments) inner →
      ∀ b, Holds inner b → b.IsInForce blocks := by
    intro inner hinner b hholds
    rcases reaches_overrideAll_iff.mp hinner with ⟨original, -, rfl⟩
    exact isInForce_of_holds hdistinct hholds
  refine ⟨fun inner => reaches_overrideAll_iff, hreached,
    fun original b other => holds_overrideAll, fun parameter => keepsParameter_overrideAll_iff,
    fun hall parameter hparameter b hb => ?_, fun hkept b hb => ?_⟩
  · rcases keepsParameter_overrideAll_iff.mpr hparameter with
      ⟨inner, r, parameters, hinner, hparent, hmem, hnone⟩
    have hstands : Holds inner parameter := .inr ⟨r, parameters, hparent, hmem⟩
    have hnotMem := Block.notMem_of_find?_eq_none hnone
    exact hall b (.of_reaches hinner (.inside hstands hnotMem hb))
  · exact hb.isInForce hreached fun parameter hparameter =>
      hkept parameter (keepsParameter_overrideAll_iff.mp hparameter)

/-- A layout that shows a title in a header for its own parent. The title is
    replaced as a parameter of the parent, but the one in the header is not. -/
theorem overrideAll_misses_kept_parameter :
    ([Block.mk "title" [.text "Page"]].map Block.name).Nodup ∧
    overrideAll [.mk "title" [.text "Page"]]
        [.parent ⟨"base", false, ""⟩
          [.mk "header" [.block (.mk "title" [.text "Default"])], .mk "title" []]] =
      [.parent ⟨"base", false, ""⟩
        [.mk "header" [.block (.mk "title" [.text "Default"])], .mk "title" [.text "Page"]]] ∧
    ¬ ∀ b, HasBlock [.mk "title" [.text "Page"]]
        (overrideAll [.mk "title" [.text "Page"]]
          [.parent ⟨"base", false, ""⟩
            [.mk "header" [.block (.mk "title" [.text "Default"])], .mk "title" []]]) b →
        b.IsInForce [.mk "title" [.text "Page"]] := by
  have hdistinct : ([Block.mk "title" [.text "Page"]].map Block.name).Nodup := by decide
  refine ⟨hdistinct, rfl, fun hall => ?_⟩
  have hkept := (overrideAll_reaches hdistinct _).2.2.2.2.mp hall
    (.mk "header" [.block (.mk "title" [.text "Default"])])
    ⟨_, _, _, .here _, List.mem_cons_self, List.mem_cons_self, rfl⟩
  have htitle := hkept (.mk "title" [.text "Default"]) (.here (.inl List.mem_cons_self))
    (.mk "title" [.text "Page"]) rfl
  simp only [Block.mk.injEq, List.cons.injEq, Segment.text.injEq, and_true, true_and] at htitle
  exact absurd htitle (by decide)

end Segment

end Mustache
