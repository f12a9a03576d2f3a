import Mathlib.Data.List.Chain
import Mustache.Proofs.Enclosure
import Mustache.Proofs.Lossless

/-!
# Spans of Sections

Where the bodies of sections lie in the text of a template. A body starts after
the opening tag of its section and stops before the closing tag, but on a
trimmed line it starts with the next line, past the blanks that were trimmed,
and stops where the line starts. So the offsets of a span come from four places,
and it takes an invariant of reading to see that they never go back: whatever
tag is read next, it ends past the last offset, and the line it is on was not
trimmed at the start, or starts past that offset, or was reached before.

Once the offsets of the tags are known to rise, the tree that is made of them
has no choice. The spans inside of a section lie between its own ends, and what
is read after it lies behind.

## Main definitions

* `Segment.SpansIn`: The spans of a tree lie in order between two offsets.
* `Token.offset?`: The offset that a tag around a section gives to its span.
* `Rises`: The offsets of tokens never go back.
* `Reader.IsPast`: No tag that is read from here on gives a lower offset.
* `Nesting.Spans`: The spans that were read so far lie in order.
* `Nesting.opened`: The sections that were opened so far, in order.

## Theorems

* `Reader.IsPast.rises`: The offsets of the tags that are read rise.
* `Nesting.Spans.run`: Tokens with rising offsets make spans in order.
* `Nesting.opened_run`: The sections of a tree are in the order of their tags.
* `Template.spans_of_compile`: The spans of a template are nested.
-/

namespace Mustache

open Text

mutual

/-- The spans of the segment lie between the offsets `lo` and `hi`, those inside
    of a section within its span. -/
def Segment.SpansIn : Segment → (lo hi : Nat) → Prop
  | .text _, lo, hi => lo ≤ hi
  | .value _ _, lo, hi => lo ≤ hi
  | .sect head children, lo, hi =>
    lo ≤ head.span.start ∧ head.span.stop ≤ hi ∧
      Segment.SpansInAll children head.span.start head.span.stop
  | .inverted _ children, lo, hi => Segment.SpansInAll children lo hi
  | .block block, lo, hi => Block.SpansIn block lo hi
  | .reference _, lo, hi => lo ≤ hi
  | .parent _ parameters, lo, hi => Block.SpansInAll parameters lo hi

/-- The spans of the block lie between the offsets. -/
def Block.SpansIn : Block → (lo hi : Nat) → Prop
  | .mk _ children, lo, hi => Segment.SpansInAll children lo hi

/-- The spans of the segments lie between the offsets, and those of each segment
    before those of the next. -/
def Segment.SpansInAll : List Segment → (lo hi : Nat) → Prop
  | [], lo, hi => lo ≤ hi
  | segment :: segments, lo, hi =>
    ∃ mid, Segment.SpansIn segment lo mid ∧ Segment.SpansInAll segments mid hi

/-- The spans of the blocks lie between the offsets, and those of each block before
    those of the next. -/
def Block.SpansInAll : List Block → (lo hi : Nat) → Prop
  | [], lo, hi => lo ≤ hi
  | block :: blocks, lo, hi => ∃ mid, Block.SpansIn block lo mid ∧ Block.SpansInAll blocks mid hi

end

mutual

/-- The spans of a segment lie between offsets that are in order. -/
theorem Segment.SpansIn.le : ∀ {segment : Segment} {lo hi : Nat}, segment.SpansIn lo hi → lo ≤ hi
  | .text _, _, _, h => by rwa [Segment.SpansIn] at h
  | .value _ _, _, _, h => by rwa [Segment.SpansIn] at h
  | .sect head children, _, _, h => by
      rw [Segment.SpansIn] at h
      have hbody := Segment.SpansInAll.le h.2.2
      omega
  | .inverted _ _, _, _, h => by
      rw [Segment.SpansIn] at h
      exact Segment.SpansInAll.le h
  | .block _, _, _, h => by
      rw [Segment.SpansIn] at h
      exact Block.SpansIn.le h
  | .reference _, _, _, h => by rwa [Segment.SpansIn] at h
  | .parent _ _, _, _, h => by
      rw [Segment.SpansIn] at h
      exact Block.SpansInAll.le h

theorem Block.SpansIn.le : ∀ {block : Block} {lo hi : Nat}, block.SpansIn lo hi → lo ≤ hi
  | .mk _ _, _, _, h => by
      rw [Block.SpansIn] at h
      exact Segment.SpansInAll.le h

/-- The offsets that spans lie between are in order. -/
theorem Segment.SpansInAll.le : ∀ {segments : List Segment} {lo hi : Nat},
    Segment.SpansInAll segments lo hi → lo ≤ hi
  | [], _, _, h => by rwa [Segment.SpansInAll] at h
  | _ :: _, _, _, h => by
      rw [Segment.SpansInAll] at h
      rcases h with ⟨mid, hfirst, hrest⟩
      exact (Segment.SpansIn.le hfirst).trans (Segment.SpansInAll.le hrest)

theorem Block.SpansInAll.le : ∀ {blocks : List Block} {lo hi : Nat},
    Block.SpansInAll blocks lo hi → lo ≤ hi
  | [], _, _, h => by rwa [Block.SpansInAll] at h
  | _ :: _, _, _, h => by
      rw [Block.SpansInAll] at h
      rcases h with ⟨mid, hfirst, hrest⟩
      exact (Block.SpansIn.le hfirst).trans (Block.SpansInAll.le hrest)

end

mutual

/-- The offsets around a segment may be further apart. -/
theorem Segment.SpansIn.mono : ∀ {segment : Segment} {lo hi lo' hi' : Nat},
    segment.SpansIn lo hi → lo' ≤ lo → hi ≤ hi' → segment.SpansIn lo' hi'
  | .text _, _, _, _, _, h, hlo, hhi => by
      rw [Segment.SpansIn] at h ⊢
      omega
  | .value _ _, _, _, _, _, h, hlo, hhi => by
      rw [Segment.SpansIn] at h ⊢
      omega
  | .sect _ _, _, _, _, _, h, hlo, hhi => by
      rw [Segment.SpansIn] at h ⊢
      exact ⟨hlo.trans h.1, h.2.1.trans hhi, h.2.2⟩
  | .inverted _ _, _, _, _, _, h, hlo, hhi => by
      rw [Segment.SpansIn] at h ⊢
      exact Segment.SpansInAll.mono h hlo hhi
  | .block _, _, _, _, _, h, hlo, hhi => by
      rw [Segment.SpansIn] at h ⊢
      exact Block.SpansIn.mono h hlo hhi
  | .reference _, _, _, _, _, h, hlo, hhi => by
      rw [Segment.SpansIn] at h ⊢
      omega
  | .parent _ _, _, _, _, _, h, hlo, hhi => by
      rw [Segment.SpansIn] at h ⊢
      exact Block.SpansInAll.mono h hlo hhi

theorem Block.SpansIn.mono : ∀ {block : Block} {lo hi lo' hi' : Nat},
    block.SpansIn lo hi → lo' ≤ lo → hi ≤ hi' → block.SpansIn lo' hi'
  | .mk _ _, _, _, _, _, h, hlo, hhi => by
      rw [Block.SpansIn] at h ⊢
      exact Segment.SpansInAll.mono h hlo hhi

/-- Spans lie between offsets that are further apart as well. -/
theorem Segment.SpansInAll.mono : ∀ {segments : List Segment} {lo hi lo' hi' : Nat},
    Segment.SpansInAll segments lo hi → lo' ≤ lo → hi ≤ hi' → Segment.SpansInAll segments lo' hi'
  | [], _, _, _, _, h, hlo, hhi => by
      rw [Segment.SpansInAll] at h ⊢
      omega
  | _ :: _, _, _, _, _, h, hlo, hhi => by
      rw [Segment.SpansInAll] at h ⊢
      rcases h with ⟨mid, hfirst, hrest⟩
      exact ⟨mid, Segment.SpansIn.mono hfirst hlo (Nat.le_refl mid),
        Segment.SpansInAll.mono hrest (Nat.le_refl mid) hhi⟩

theorem Block.SpansInAll.mono : ∀ {blocks : List Block} {lo hi lo' hi' : Nat},
    Block.SpansInAll blocks lo hi → lo' ≤ lo → hi ≤ hi' → Block.SpansInAll blocks lo' hi'
  | [], _, _, _, _, h, hlo, hhi => by
      rw [Block.SpansInAll] at h ⊢
      omega
  | _ :: _, _, _, _, _, h, hlo, hhi => by
      rw [Block.SpansInAll] at h ⊢
      rcases h with ⟨mid, hfirst, hrest⟩
      exact ⟨mid, Block.SpansIn.mono hfirst hlo (Nat.le_refl mid),
        Block.SpansInAll.mono hrest (Nat.le_refl mid) hhi⟩

end

section

variable {segments front back : List Segment} {segment : Segment} {lo mid hi : Nat}

theorem Segment.spansInAll_nil (h : lo ≤ hi) : Segment.SpansInAll [] lo hi := by
  rwa [Segment.SpansInAll]

theorem Segment.spansInAll_singleton (h : segment.SpansIn lo hi) :
    Segment.SpansInAll [segment] lo hi := by
  rw [Segment.SpansInAll]
  exact ⟨hi, h, Segment.spansInAll_nil (Nat.le_refl hi)⟩

/-- Segments lie behind those that stop where they start. -/
theorem Segment.SpansInAll.append (h : Segment.SpansInAll front lo mid)
    (h' : Segment.SpansInAll back mid hi) : Segment.SpansInAll (front ++ back) lo hi := by
  induction front generalizing lo with
  | nil =>
      rw [Segment.SpansInAll] at h
      exact h'.mono h (Nat.le_refl hi)
  | cons segment front ih =>
      rw [Segment.SpansInAll] at h
      rcases h with ⟨first, hfirst, hrest⟩
      rw [List.cons_append, Segment.SpansInAll]
      exact ⟨first, hfirst, ih hrest⟩

/-- What a parent leaves out makes no difference to the blocks that it keeps. -/
theorem Segment.SpansInAll.blocks (h : Segment.SpansInAll segments lo hi) :
    Block.SpansInAll (Segment.blocks segments) lo hi := by
  induction segments generalizing lo with
  | nil =>
      rw [Segment.SpansInAll] at h
      rwa [show Segment.blocks [] = [] from rfl, Block.SpansInAll]
  | cons segment segments ih =>
      rw [Segment.SpansInAll] at h
      rcases h with ⟨first, hfirst, hrest⟩
      have hle := hfirst.le
      -- Only blocks are kept, and each of them lies where it did.
      cases segment with
      | block b =>
          have hblocks : Segment.blocks (.block b :: segments) = b :: Segment.blocks segments := rfl
          rw [Segment.SpansIn] at hfirst
          rw [hblocks, Block.SpansInAll]
          exact ⟨first, hfirst, ih hrest⟩
      | _ => exact (ih hrest).mono hle (Nat.le_refl hi)

end

/-- The sections, each before those inside of it, lie between the offsets. The ones
    inside of a section follow it and lie within its span, and all others after it
    lie behind its span. -/
structure NestedIn (lo hi : Nat) (made : List (SectionHead × List Segment)) : Prop where
  between : ∀ inner ∈ made, lo ≤ inner.1.span.start ∧ inner.1.span.stop ≤ hi
  nested : ∀ front head children rest, made = front ++ (head, children) :: rest →
    head.span.start ≤ head.span.stop ∧ ∃ after, rest = Segment.sectionsAll children ++ after ∧
      (∀ inner ∈ Segment.sectionsAll children,
        head.span.start ≤ inner.1.span.start ∧ inner.1.span.stop ≤ head.span.stop) ∧
      ∀ later ∈ after, head.span.stop ≤ later.1.span.start

namespace NestedIn

variable {lo mid hi : Nat} {made more : List (SectionHead × List Segment)}

theorem nil : NestedIn lo hi [] :=
  ⟨nofun, fun _ _ _ _ h =>
    absurd h.symm (List.append_ne_nil_of_right_ne_nil _ (List.cons_ne_nil _ _))⟩

/-- Nested sections that lie behind others that are nested. -/
theorem append (h : NestedIn lo mid made) (h' : NestedIn mid hi more) (hlo : lo ≤ mid)
    (hhi : mid ≤ hi) : NestedIn lo hi (made ++ more) := by
  refine ⟨?_, ?_⟩
  · intro inner hinner
    rcases List.mem_append.mp hinner with hmade | hmore
    · have hbetween := h.between inner hmade
      omega
    · have hbetween := h'.between inner hmore
      omega
  · intro front head children rest hsplit
    -- The section belongs to the ones behind or to the ones before.
    rcases List.append_eq_append_iff.mp hsplit with ⟨between, hfront, hmore⟩ |
      ⟨between, hmade, hrest⟩
    · exact h'.nested between head children rest hmore
    · -- With nothing in between, it is the first one of those behind.
      cases between with
      | nil =>
          rw [List.nil_append] at hrest
          exact h'.nested [] head children rest hrest.symm
      | cons first between =>
          rw [List.cons_append, List.cons.injEq] at hrest
          rw [← hrest.1] at hmade
          rcases h.nested front head children between hmade with
            ⟨hle, after, hafter, hinner, hlater⟩
          refine ⟨hle, after ++ more, ?_, hinner, ?_⟩
          · rw [hrest.2, hafter, List.append_assoc]
          · intro later hmem
            rcases List.mem_append.mp hmem with hmade' | hmore
            · exact hlater later hmade'
            · -- The section stops before the offset at which the others start.
              have hhead := (h.between (head, children)
                (hmade ▸ List.mem_append_right _ List.mem_cons_self)).2
              exact hhead.trans (h'.between later hmore).1

/-- A section around nested ones that lie within its span. -/
theorem sect {head : SectionHead} {children : List Segment}
    (h : NestedIn head.span.start head.span.stop (Segment.sectionsAll children))
    (hlo : lo ≤ head.span.start) (hle : head.span.start ≤ head.span.stop)
    (hhi : head.span.stop ≤ hi) :
    NestedIn lo hi ((head, children) :: Segment.sectionsAll children) := by
  refine ⟨?_, ?_⟩
  · intro inner hinner
    rcases List.mem_cons.mp hinner with rfl | hmem
    · exact ⟨hlo, hhi⟩
    · have hbetween := h.between inner hmem
      omega
  · intro front head' children' rest hsplit
    cases front with
    | nil =>
        rw [List.nil_append, List.cons.injEq, Prod.mk.injEq] at hsplit
        rcases hsplit with ⟨⟨rfl, rfl⟩, rfl⟩
        exact ⟨hle, [], (List.append_nil _).symm, h.between, nofun⟩
    | cons first front =>
        rw [List.cons_append, List.cons.injEq] at hsplit
        exact h.nested front head' children' rest hsplit.2

end NestedIn

mutual

/-- A segment whose spans lie in order has nested sections. -/
theorem Segment.SpansIn.nestedIn : ∀ {segment : Segment} {lo hi : Nat},
    segment.SpansIn lo hi → NestedIn lo hi segment.sections
  | .text _, _, _, _ => .nil
  | .value _ _, _, _, _ => .nil
  | .sect head children, _, _, h => by
      rw [Segment.SpansIn] at h
      exact (Segment.SpansInAll.nestedIn h.2.2).sect h.1 h.2.2.le h.2.1
  | .inverted _ _, _, _, h => by
      rw [Segment.SpansIn] at h
      exact Segment.SpansInAll.nestedIn h
  | .block _, _, _, h => by
      rw [Segment.SpansIn] at h
      exact Block.SpansIn.nestedIn h
  | .reference _, _, _, _ => .nil
  | .parent _ _, _, _, h => by
      rw [Segment.SpansIn] at h
      exact Block.SpansInAll.nestedIn h

theorem Block.SpansIn.nestedIn : ∀ {block : Block} {lo hi : Nat},
    block.SpansIn lo hi → NestedIn lo hi block.sections
  | .mk _ _, _, _, h => by
      rw [Block.SpansIn] at h
      exact Segment.SpansInAll.nestedIn h

/-- A tree whose spans lie in order has nested sections. -/
theorem Segment.SpansInAll.nestedIn : ∀ {segments : List Segment} {lo hi : Nat},
    Segment.SpansInAll segments lo hi → NestedIn lo hi (Segment.sectionsAll segments)
  | [], _, _, _ => .nil
  | _ :: _, _, _, h => by
      rw [Segment.SpansInAll] at h
      rcases h with ⟨mid, hfirst, hrest⟩
      exact (Segment.SpansIn.nestedIn hfirst).append (Segment.SpansInAll.nestedIn hrest)
        hfirst.le hrest.le

theorem Block.SpansInAll.nestedIn : ∀ {blocks : List Block} {lo hi : Nat},
    Block.SpansInAll blocks lo hi → NestedIn lo hi (Block.sectionsAll blocks)
  | [], _, _, _ => .nil
  | _ :: _, _, _, h => by
      rw [Block.SpansInAll] at h
      rcases h with ⟨mid, hfirst, hrest⟩
      exact (Block.SpansIn.nestedIn hfirst).append (Block.SpansInAll.nestedIn hrest)
        hfirst.le hrest.le

end

/-- The offset that a tag around a section gives to its span. -/
def Token.offset? : Token → Option Nat
  | .opening _ _ start _ => some start
  | .closing _ stop _ => some stop
  | .text _ => none
  | .value _ _ => none
  | .reference _ => none

theorem offset?_of_mem_textTokens {token : Token} {text : List Char}
    (h : token ∈ textTokens text) : token.offset? = none := by
  cases text with
  | nil => exact absurd h List.not_mem_nil
  | cons ch text => rw [List.mem_singleton.mp h, Token.offset?]

/-- From `lo` on, the offsets of the tokens never go back. -/
def Rises (lo : Nat) (tokens : List Token) : Prop :=
  List.IsChain (· ≤ ·) (lo :: tokens.filterMap Token.offset?)

section

variable {lo lo' offset : Nat} {token : Token} {tokens : List Token}

theorem Rises.of_le (h : Rises lo tokens) (hle : lo' ≤ lo) : Rises lo' tokens :=
  h.cons_of_imp fun _ hlo => hle.trans hlo

theorem rises_cons_of_none (h : token.offset? = none) :
    Rises lo (token :: tokens) ↔ Rises lo tokens := by
  rw [Rises, Rises, List.filterMap_cons_none h]

theorem rises_cons_of_some (h : token.offset? = some offset) :
    Rises lo (token :: tokens) ↔ lo ≤ offset ∧ Rises offset tokens := by
  rw [Rises, Rises, List.filterMap_cons_some h, List.isChain_cons_cons]

end

namespace Cursor

variable {c after : Cursor} {ch : Char}

theorem pos_le_bodyStart (c : Cursor) : c.pos ≤ c.bodyStart := by
  rw [bodyStart]
  split
  case isTrue => exact Nat.le_add_right _ _
  case isFalse => exact Nat.le_refl _

/-- A character that is read lies past the place at which a body would start
    before it. -/
theorem bodyStart_add_le_of_next? (hnext : c.next? = some (ch, after)) :
    c.bodyStart + ch.utf8Size ≤ after.pos := by
  rw [bodyStart]
  rcases next?_cases hnext with ⟨hahead, hafter⟩ | ⟨hnil, _, _, hafter⟩
  · rw [hahead, List.isEmpty_cons, if_neg Bool.false_ne_true, hafter]
    simp only [pos, behind, List.cons_append, byteLength]
    omega
  · rw [hnil, List.isEmpty_nil, if_pos rfl, hafter]
    simp only [pos, behind, nextLine, List.cons_append, List.nil_append, byteLength_append,
      byteLength_reverse, byteLength]
    omega

/-- The line stays the same, or it starts where a body would start before it. -/
theorem lineStart_cases (hnext : c.next? = some (ch, after)) :
    (after.lineStart = c.lineStart ∧ after.lead = c.lead) ∨ c.bodyStart ≤ after.lineStart := by
  rcases sameLine_of_next? hnext with ⟨_, hsame⟩ | ⟨hnil, _, hstart⟩
  · exact Or.inl ⟨hsame.lineStart, hsame.lead⟩
  · rw [hstart, bodyStart, hnil, List.isEmpty_nil, if_pos rfl, lineEnd, hnil, List.nil_append]
    exact Or.inr (Nat.le_refl _)

/-- A character that is read lies past the blanks at the start of its line. -/
theorem textStart_lt_pos_of_next? (hnext : c.next? = some (ch, after)) :
    after.textStart < after.pos := by
  have hsize := ch.utf8Size_pos
  rw [(eq_of_next? hnext).2]
  simp only [textStart, lineStart, pos, behind, List.cons_append, byteLength, byteLength_append,
    byteLength_reverse]
  omega

/-- A tag that is completed leaves the reader where it is. -/
theorem complete_kept {place : Cursor} {sigil : Char} {text : List Char} {tag : Tag}
    (h : c.complete sigil text = .ok (tag, place)) :
    place.lineStart = c.lineStart ∧ place.lead = c.lead ∧ place.pos = c.pos := by
  rcases complete_cases h with rfl | ⟨new, _, rfl⟩
  · exact ⟨rfl, rfl, rfl⟩
  · rcases changeDelimiters_kept new c with ⟨hbefore, hlead, hread⟩
    rw [lineStart, pos, behind, hbefore, hlead, hread]
    exact ⟨rfl, rfl, rfl⟩

end Cursor

/-- What reading is in the middle of started past the offset `floor`. -/
def Mode.IsPast (floor : Nat) (place : Cursor) : Mode → Prop
  | text buffer => floor + byteLength buffer ≤ place.bodyStart
  | opened start => floor ≤ start ∧ start < place.pos
  | content start _ _ => floor ≤ start ∧ start < place.pos

/-- No tag that is read from here on gives an offset below `floor`. A closing tag
    at the start of a trimmed line gives the start of the line, so the line was not
    trimmed there, or it starts past the floor, or its text was reached before. -/
structure Reader.IsPast (floor : Nat) (r : Reader) : Prop where
  mode : r.mode.IsPast floor r.place
  line : floor ≤ r.place.lineStart ∨ r.place.lead = [] ∨ r.place.textStart < floor

namespace Reader

variable {r next : Reader} {event : Event} {floor : Nat}

theorem isPast_start (c : Cursor) : (Reader.mk (.text []) c).IsPast 0 :=
  ⟨Nat.zero_le _, Or.inl (Nat.zero_le _)⟩

/-- A body starts past the floor. -/
theorem IsPast.le_bodyStart (h : r.IsPast floor) : floor ≤ r.place.bodyStart := by
  have hpos := r.place.pos_le_bodyStart
  have hmode := h.mode
  cases hm : r.mode with
  | text buffer =>
      rw [hm] at hmode
      exact (Nat.le_add_right _ _).trans hmode
  | opened start =>
      rw [hm] at hmode
      exact (hmode.1.trans hmode.2.le).trans hpos
  | content start sigil buffer =>
      rw [hm] at hmode
      exact (hmode.1.trans hmode.2.le).trans hpos

/-- What is known of the line of a reader is known of the line of the next
    character. -/
theorem IsPast.line_next {ch : Char} {after : Cursor} (h : r.IsPast floor)
    (hnext : r.place.next? = some (ch, after)) :
    floor ≤ after.lineStart ∨ after.lead = [] ∨ after.textStart < floor := by
  rcases Cursor.lineStart_cases hnext with ⟨hstart, hlead⟩ | hstart
  · rw [Cursor.textStart, hstart, hlead]
    exact h.line
  · exact Or.inl (h.le_bodyStart.trans hstart)

/-- A closing tag that was opened past the floor gives an offset past the
    floor. -/
theorem le_bodyEnd {after : Cursor} {start : Nat}
    (hline : floor ≤ after.lineStart ∨ after.lead = [] ∨ after.textStart < floor)
    (hstart : floor ≤ start) : floor ≤ after.bodyEnd start := by
  rw [Cursor.bodyEnd]
  split
  case isFalse => exact hstart
  case isTrue htrimmed =>
    rw [Bool.and_eq_true, decide_eq_true_iff, Bool.not_eq_true'] at htrimmed
    rcases hline with hpast | hnil | hbefore
    · exact hpast
    · rw [hnil] at htrimmed
      exact absurd htrimmed.2.symm Bool.false_ne_true
    · omega

/-- The offsets of a tag are those at which a body would start or end there. -/
theorem offset_of_tokensFrom {tag : Tag} {start offset : Nat} {after : Cursor} {token : Token}
    (hmem : token ∈ tag.tokensFrom start after) (hoffset : token.offset? = some offset) :
    offset = after.bodyStart ∨ offset = after.bodyEnd start := by
  rcases tag with (_ | _ | _ | _) | ⟨_, _⟩ | _
  case opening =>
    rw [List.mem_singleton.mp hmem, Token.offset?, Option.some.injEq] at hoffset
    exact Or.inl hoffset.symm
  case closing =>
    rw [List.mem_singleton.mp hmem, Token.offset?, Option.some.injEq] at hoffset
    exact Or.inr hoffset.symm
  case single.comment | single.delimiters => exact absurd hmem List.not_mem_nil
  all_goals
    rw [List.mem_singleton.mp hmem] at hoffset
    simp only [Token.offset?, reduceCtorEq] at hoffset

/-- A body stops before the end of the tag after it. -/
theorem bodyEnd_lt_pos {after : Cursor} {start : Nat} (h : start < after.pos) :
    after.bodyEnd start < after.pos := by
  rw [Cursor.bodyEnd]
  split
  case isFalse => exact h
  case isTrue htrimmed =>
    rw [Bool.and_eq_true, decide_eq_true_iff, Cursor.textStart] at htrimmed
    omega

/-- A character leaves the reader past the floor, or it ends a tag. Then the floor
    rises to the place at which the body would start, past the offset of the tag. -/
theorem IsPast.moves (h : r.IsPast floor) (hmoves : r.Moves event next) :
    ∃ floor', floor ≤ floor' ∧ next.IsPast floor' ∧
      ∀ token ∈ event.tokens next.place, ∀ offset, token.offset? = some offset →
        floor ≤ offset ∧ offset ≤ floor' := by
  rcases hmoves with ⟨ch, after, hnext, hstep⟩
  have hline := h.line_next hnext
  have hread := Cursor.bodyStart_add_le_of_next? hnext
  have hpos := Cursor.pos_lt_of_next? hnext
  have hsteps := Mode.steps_of_step hstep
  rcases r with ⟨mode, place⟩
  have hmode := h.mode
  dsimp only at hnext hread hpos hsteps hmode
  -- Most characters make no token, so the floor stays where it is.
  have hquiet : ∀ token ∈ ([] : List Token), ∀ offset, token.offset? = some offset →
      floor ≤ offset ∧ offset ≤ floor :=
    fun token hmem => absurd hmem List.not_mem_nil
  cases hsteps with
  | @text buffer hjust =>
      have hbuffer : floor + byteLength buffer ≤ place.bodyStart := hmode
      have hbody := after.pos_le_bodyStart
      refine ⟨floor, Nat.le_refl _, ⟨?_, hline⟩, hquiet⟩
      simp only [Mode.IsPast, byteLength]
      omega
  | @opens buffer hjust =>
      have hbuffer : floor + byteLength buffer ≤ place.bodyStart := hmode
      -- The delimiter is part of what was read, and not empty, so its start is before
      -- the place.
      have hword := byteLength_le_of_justRead hjust
      have hsize : 0 < byteLength after.delimiters.opening :=
        Nat.pos_of_ne_zero fun hzero => after.delimiters.opening_ne_nil (byteLength_eq_zero hzero)
      rw [byteLength] at hword
      refine ⟨floor, Nat.le_refl _, ⟨?_, hline⟩, ?_⟩
      · simp only [Mode.IsPast, Cursor.tagStart]
        omega
      · intro token hmem offset hoffset
        rw [offset?_of_mem_textTokens hmem] at hoffset
        simp only [reduceCtorEq] at hoffset
  | blank hblank => exact ⟨floor, Nat.le_refl _, ⟨⟨hmode.1, hmode.2.trans hpos⟩, hline⟩, hquiet⟩
  | sigil hblank hmem =>
      exact ⟨floor, Nat.le_refl _, ⟨⟨hmode.1, hmode.2.trans hpos⟩, hline⟩, hquiet⟩
  | kept hblank hmem hjust =>
      exact ⟨floor, Nat.le_refl _, ⟨⟨hmode.1, hmode.2.trans hpos⟩, hline⟩, hquiet⟩
  | content hjust => exact ⟨floor, Nat.le_refl _, ⟨⟨hmode.1, hmode.2.trans hpos⟩, hline⟩, hquiet⟩
  | @ends start sigil buffer tag last hjust hcomplete =>
      -- The body behind the tag starts past everything on the way.
      rcases hmode with ⟨hstart, hbefore⟩
      rcases Cursor.complete_kept hcomplete with ⟨hlineStart, hlead, hlast⟩
      have hbody := last.pos_le_bodyStart
      have htext := Cursor.textStart_lt_pos_of_next? hnext
      rw [Cursor.textStart, ← hlineStart, ← hlead, ← hlast] at htext
      rw [Cursor.textStart, ← hlineStart, ← hlead] at hline
      refine ⟨last.bodyStart, by omega, ⟨Nat.le_refl _, Or.inr (Or.inr (htext.trans_le hbody))⟩, ?_⟩
      intro token hmem offset hoffset
      have hend := le_bodyEnd hline hstart
      have hstop := bodyEnd_lt_pos (show start < last.pos by omega)
      have hplace : offset = last.bodyStart ∨ offset = last.bodyEnd start :=
        offset_of_tokensFrom hmem hoffset
      omega

/-- The offsets of the tags that are read from here on rise. -/
theorem IsPast.rises (h : r.IsPast floor) : Rises floor r.run.tokens := by
  -- By induction on the run. The floor rises with every tag.
  fun_induction run r generalizing floor with
  | case1 r hnext =>
      have hnone : (r.mode.finish r.place).tokens.filterMap Token.offset? = [] := by
        rw [List.filterMap_eq_nil_iff]
        intro token hmem
        rcases r with ⟨mode, place⟩
        cases mode with
        | text buffer => exact offset?_of_mem_textTokens hmem
        | opened start => exact absurd hmem List.not_mem_nil
        | content start sigil buffer => exact absurd hmem List.not_mem_nil
      rw [Rises, hnone]
      exact List.isChain_singleton floor
  | case2 r ch after hnext error hstep => exact List.isChain_singleton floor
  | case3 r ch after hnext event next hstep ih =>
      rcases h.moves ⟨ch, after, hnext, hstep⟩ with ⟨floor', hle, hpast, htokens⟩
      have hrest := ih hpast
      rw [Stream.prepend]
      rcases event.tokens_cases next.place with hnil | ⟨token, htoken⟩
      · rw [hnil]
        exact hrest.of_le hle
      · rw [htoken] at htokens ⊢
        cases hoffset : token.offset? with
        | none => exact (rises_cons_of_none hoffset).mpr (hrest.of_le hle)
        | some offset =>
            have hbetween := htokens token (List.mem_singleton_self token) offset hoffset
            exact (rises_cons_of_some hoffset).mpr ⟨hbetween.1, hrest.of_le hbetween.2⟩

end Reader

namespace Nesting

variable {source : List Char} {options : Options} {nesting next last : Nesting}
  {frames : List Frame} {segments more : List Segment} {token : Token} {tokens : List Token}
  {lo mid hi : Nat}

/-- The spans that were read so far lie in order before `hi`: those in a section
    that is open from its start on, and those before it ahead of its start. -/
def Spans : List Frame → List Segment → (hi : Nat) → Prop
  | [], segments, hi => Segment.SpansInAll segments 0 hi
  | frame :: frames, segments, hi =>
    Segment.SpansInAll segments frame.start hi ∧ Spans frames frame.outer frame.start

theorem Spans.append (h : Spans frames segments mid) (h' : Segment.SpansInAll more mid hi) :
    Spans frames (segments ++ more) hi := by
  cases frames with
  | nil => exact Segment.SpansInAll.append h h'
  | cons frame frames => exact ⟨h.1.append h', h.2⟩

theorem Spans.mono (h : Spans frames segments lo) (hle : lo ≤ hi) : Spans frames segments hi := by
  have happend := h.append (Segment.spansInAll_nil hle)
  rwa [List.append_nil] at happend

/-- A section that stops past all that it holds has a span between its ends. -/
theorem spansIn_of_close? {frame : Frame} {stop : Nat} {segment : Segment}
    (hclose : frame.close? source options segments stop = some segment)
    (h : Segment.SpansInAll segments frame.start hi) (hstop : hi ≤ stop) :
    segment.SpansIn frame.start stop := by
  have hspans := h.mono (Nat.le_refl _) hstop
  rw [Frame.close?] at hclose
  -- Only a section has a span of its own. The others leave the spans as they are.
  cases hkind : frame.kind with
  | sect =>
      simp only [hkind] at hclose
      rcases Option.map_eq_some_iff.mp hclose with ⟨body, _, rfl⟩
      rw [Segment.SpansIn, Nat.max_eq_right hspans.le]
      exact ⟨Nat.le_refl _, Nat.le_refl _, hspans⟩
  | inverted =>
      simp only [hkind, Option.some.injEq] at hclose
      rwa [← hclose, Segment.SpansIn]
  | block =>
      simp only [hkind, Option.some.injEq] at hclose
      rwa [← hclose, Segment.SpansIn, Block.SpansIn]
  | parent reference =>
      simp only [hkind, Option.some.injEq] at hclose
      rw [← hclose, Segment.SpansIn]
      exact hspans.blocks

/-- A token whose offset does not go back leaves the spans in order. -/
theorem Spans.step (h : Spans nesting.frames nesting.segments lo)
    (hrises : Rises lo (token :: tokens))
    (hstep : nesting.step source options token = .ok next) :
    ∃ hi, Spans next.frames next.segments hi ∧ Rises hi tokens := by
  cases token with
  | text content =>
      rw [← Except.ok.inj hstep]
      refine ⟨lo, h.append (Segment.spansInAll_singleton ?_), (rises_cons_of_none rfl).mp hrises⟩
      rw [Segment.SpansIn]
  | value name isEscaped =>
      rw [← Except.ok.inj hstep]
      refine ⟨lo, h.append (Segment.spansInAll_singleton ?_), (rises_cons_of_none rfl).mp hrises⟩
      rw [Segment.SpansIn]
  | reference r =>
      rw [← Except.ok.inj hstep]
      refine ⟨lo, h.append (Segment.spansInAll_singleton ?_), (rises_cons_of_none rfl).mp hrises⟩
      rw [Segment.SpansIn]
  | opening kind name start delimiters =>
      rw [← Except.ok.inj hstep]
      rcases (rises_cons_of_some rfl).mp hrises with ⟨hle, hrest⟩
      exact ⟨start, ⟨Segment.spansInAll_nil (Nat.le_refl start), h.mono hle⟩, hrest⟩
  | closing name stop offset =>
      rcases (rises_cons_of_some rfl).mp hrises with ⟨hle, hrest⟩
      rcases close_eq_ok hstep with ⟨frame, frames, segment, hframes, _, hclose, rfl⟩
      rw [hframes] at h
      have hsegment := spansIn_of_close? hclose h.1 hle
      exact ⟨stop, h.2.append (Segment.spansInAll_singleton hsegment), hrest⟩

/-- Tokens with rising offsets make spans in order. -/
theorem Spans.run (h : Spans nesting.frames nesting.segments lo) (hrises : Rises lo tokens)
    (hrun : nesting.run source options tokens = .ok last) :
    ∃ hi, Spans last.frames last.segments hi := by
  induction tokens generalizing nesting lo with
  | nil =>
      rw [Nesting.run, Except.ok.injEq] at hrun
      rw [← hrun]
      exact ⟨lo, h⟩
  | cons token tokens ih =>
      rcases run_cons_eq_ok hrun with ⟨next, hstep, hrest⟩
      rcases h.step hrises hstep with ⟨hi, hnext, hmore⟩
      exact ih hnext hmore hrest

end Nesting

/-- The name and the start of the section that a token opens, if it opens one. -/
def Token.section? : Token → Option (String × Nat)
  | .opening .sect name start _ => some (name, start)
  | _ => none

/-- The names and the starts of the sections of a tree, each before those inside of
    it. -/
def Segment.sectionStarts (segments : List Segment) : List (String × Nat) :=
  (Segment.sectionsAll segments).map fun made => (made.1.name, made.1.span.start)

theorem Segment.sectionStarts_append (front back : List Segment) :
    sectionStarts (front ++ back) = sectionStarts front ++ sectionStarts back := by
  rw [sectionStarts, sectionsAll_append, List.map_append]
  rfl

namespace Nesting

variable {source : List Char} {options : Options} {nesting next last : Nesting}
  {frames : List Frame} {segments : List Segment} {token : Token} {tokens : List Token}

/-- The sections that were opened so far, those that are still open among them. -/
def opened : List Frame → List Segment → List (String × Nat)
  | [], segments => Segment.sectionStarts segments
  | frame :: frames, segments =>
    opened frames frame.outer ++ frame.token.section?.toList ++ Segment.sectionStarts segments

theorem opened_append (frames : List Frame) (front back : List Segment) :
    opened frames (front ++ back) = opened frames front ++ Segment.sectionStarts back := by
  cases frames with
  | nil => exact Segment.sectionStarts_append front back
  | cons frame frames => rw [opened, opened, Segment.sectionStarts_append, ← List.append_assoc]

/-- A section that is closed keeps its place before those inside of it. Only a
    parent leaves sections out. -/
theorem sublist_of_close? {frame : Frame} {stop : Nat} {segment : Segment}
    (hclose : frame.close? source options segments stop = some segment) :
    List.Sublist (Segment.sectionStarts [segment])
      (frame.token.section?.toList ++ Segment.sectionStarts segments) := by
  rw [Frame.close?] at hclose
  rw [Segment.sectionStarts, Segment.sectionsAll, Segment.sectionsAll, List.append_nil, Frame.token]
  -- A section comes before those inside of it, as its tag does.
  cases hkind : frame.kind with
  | sect =>
      simp only [hkind] at hclose
      rcases Option.map_eq_some_iff.mp hclose with ⟨body, _, rfl⟩
      exact List.Sublist.refl _
  | inverted =>
      simp only [hkind, Option.some.injEq] at hclose
      rw [← hclose]
      exact List.Sublist.refl _
  | block =>
      simp only [hkind, Option.some.injEq] at hclose
      rw [← hclose]
      exact List.Sublist.refl _
  | parent reference =>
      simp only [hkind, Option.some.injEq] at hclose
      rw [← hclose]
      exact (Segment.sublist_sectionsAll segments).map _

/-- A token opens one section at most, and keeps the order of the others. -/
theorem opened_step (hstep : nesting.step source options token = .ok next) :
    List.Sublist (opened next.frames next.segments)
      (opened nesting.frames nesting.segments ++ token.section?.toList) := by
  cases token with
  | text content =>
      rw [← Except.ok.inj hstep, add, opened_append]
      exact List.Sublist.refl _
  | value name isEscaped =>
      rw [← Except.ok.inj hstep, add, opened_append]
      exact List.Sublist.refl _
  | reference r =>
      rw [← Except.ok.inj hstep, add, opened_append]
      exact List.Sublist.refl _
  | opening kind name start delimiters =>
      rw [← Except.ok.inj hstep, opened]
      exact (List.append_nil _).symm ▸ List.Sublist.refl _
  | closing name stop offset =>
      rcases close_eq_ok hstep with ⟨frame, frames, segment, hframes, _, hclose, rfl⟩
      rw [hframes, opened_append, opened]
      simp only [Token.section?, Option.toList_none, List.append_nil, List.append_assoc]
      exact (sublist_of_close? hclose).append_left _

/-- The sections are in the order of the tags that opened them. -/
theorem opened_run (hrun : nesting.run source options tokens = .ok last) :
    List.Sublist (opened last.frames last.segments)
      (opened nesting.frames nesting.segments ++ tokens.filterMap Token.section?) := by
  induction tokens generalizing nesting with
  | nil =>
      rw [run, Except.ok.injEq] at hrun
      rw [hrun, List.filterMap_nil, List.append_nil]
  | cons token tokens ih =>
      rcases run_cons_eq_ok hrun with ⟨next, hstep, hrest⟩
      have hfirst : (token :: tokens).filterMap Token.section? =
          token.section?.toList ++ tokens.filterMap Token.section? := by
        cases hsection : token.section? with
        | none => exact List.filterMap_cons_none hsection
        | some start => exact List.filterMap_cons_some hsection
      rw [hfirst, ← List.append_assoc]
      exact (ih hrest).trans ((opened_step hstep).append_right _)

end Nesting

namespace Template

/-- The spans of a template are nested. The sections of its tree, each before those
    inside of it, are in the order of their opening tags in the text. The spans
    inside of a section, at any depth and whatever else is around them, lie within
    its span, and every other section that comes after it starts no sooner than it
    stops. -/
theorem spans_of_compile {d : Delimiters} {options : Options} {source : String}
    {template : Template} (h : compileWith d options source = .ok template) :
    List.Sublist (Segment.sectionStarts template.segments)
        ((Cursor.ofText d source.toList).stream.tokens.filterMap Token.section?) ∧
      ∀ front head children rest,
        Segment.sectionsAll template.segments = front ++ (head, children) :: rest →
        head.span.start ≤ head.span.stop ∧ ∃ after, rest = Segment.sectionsAll children ++ after ∧
          (∀ inner ∈ Segment.sectionsAll children,
            head.span.start ≤ inner.1.span.start ∧ inner.1.span.stop ≤ head.span.stop) ∧
          ∀ later ∈ after, head.span.stop ≤ later.1.span.start := by
  have hrun := (run_of_compileWith h).2
  refine ⟨Nesting.opened_run hrun, ?_⟩
  have hrises := (Reader.isPast_start (.ofText d source.toList)).rises
  rw [Cursor.run_eq_stream] at hrises
  -- Nothing was read before the first tag.
  have hempty : Nesting.Spans Nesting.empty.frames Nesting.empty.segments 0 :=
    Segment.spansInAll_nil (Nat.le_refl 0)
  rcases hempty.run hrises hrun with ⟨hi, hspans⟩
  exact (Segment.SpansInAll.nestedIn hspans).nested

/-- The section "b" lies inside of "a", whose tags are on lines of their own, and
    "c" comes behind it. -/
theorem spans_of_compile_nested :
    compileWith .standard {}
      ("\x7b\x7b#a\x7d\x7d\n \x7b\x7b#b\x7d\x7dx\x7b\x7b/b\x7d\x7d\n" ++
        " \x7b\x7b/a\x7d\x7d\n\x7b\x7b#c\x7d\x7d\x7b\x7b/c\x7d\x7d") =
        .ok ⟨[.sect ⟨"a", false, .standard, ⟨7, 22⟩, " \x7b\x7b#b\x7d\x7dx\x7b\x7b/b\x7d\x7d\n"⟩
            [.text " ", .sect ⟨"b", false, .standard, ⟨14, 15⟩, "x"⟩ [.text "x"], .text "\n"],
          .sect ⟨"c", false, .standard, ⟨36, 36⟩, ""⟩ []]⟩ ∧
      ∃ after, [(⟨"b", false, .standard, ⟨14, 15⟩, "x"⟩, [.text "x"]),
          (⟨"c", false, .standard, ⟨36, 36⟩, ""⟩, [])] =
            Segment.sectionsAll [.text " ",
              .sect ⟨"b", false, .standard, ⟨14, 15⟩, "x"⟩ [.text "x"], .text "\n"] ++ after ∧
        ∀ later ∈ after, 22 ≤ later.1.span.start := by
  have hcompile : compileWith .standard {}
      ("\x7b\x7b#a\x7d\x7d\n \x7b\x7b#b\x7d\x7dx\x7b\x7b/b\x7d\x7d\n" ++
        " \x7b\x7b/a\x7d\x7d\n\x7b\x7b#c\x7d\x7d\x7b\x7b/c\x7d\x7d") =
        .ok ⟨[.sect ⟨"a", false, .standard, ⟨7, 22⟩, " \x7b\x7b#b\x7d\x7dx\x7b\x7b/b\x7d\x7d\n"⟩
            [.text " ", .sect ⟨"b", false, .standard, ⟨14, 15⟩, "x"⟩ [.text "x"], .text "\n"],
          .sect ⟨"c", false, .standard, ⟨36, 36⟩, ""⟩ []]⟩ := by
    with_unfolding_all rfl
  rcases (spans_of_compile hcompile).2 [] _ _ _ rfl with ⟨_, after, hafter, _, hlater⟩
  exact ⟨hcompile, after, hafter, hlater⟩

end Template

end Mustache
