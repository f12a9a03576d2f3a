import Mustache.Proofs.Offence
import Mustache.Proofs.Slices

/-!
# Bodies of Sections

The text between the tags of a section. A callable is given this text as it
stands in the template, so it is the one slice that goes into the tree. Where
it starts is a place that reading came to. Where it stops is computed from the
place after the opening delimiter of the closing tag, one delimiter back, and
this is where the tag starts only as long as the delimiter was read from one
line: trimming can pass over blanks between two of its characters. Then the
offset may lie inside of one of these blanks, and the section has no body.

## Main definitions

* `Segment.heads`: The sections of a tree.
* `SectionHead.IsCut`: The body of a section is the slice at its span.

## Theorems

* `Nesting.isCut_run`: Running tokens makes only sections that are cut.
* `Nesting.mem_frames_run`: A section that is open was opened by a token.
* `Stream.isSplit_iff`: A body is missing where it would stop inside of a
  character.
* `Template.compile_slices`: No other slice of a template is ever missing.
-/

namespace Mustache

open Text

mutual

/-- The sections of a segment, each before those inside of it. -/
def Segment.heads : Segment → List SectionHead
  | .text _ => []
  | .value _ _ => []
  | .sect head children => head :: Segment.headsAll children
  | .inverted _ children => Segment.headsAll children
  | .block block => Block.heads block
  | .reference _ => []
  | .parent _ parameters => Block.headsAll parameters

/-- The sections of a block. -/
def Block.heads : Block → List SectionHead
  | .mk _ children => Segment.headsAll children

/-- The sections of segments in a row. -/
def Segment.headsAll : List Segment → List SectionHead
  | [] => []
  | segment :: segments => Segment.heads segment ++ Segment.headsAll segments

/-- The sections of blocks in a row. -/
def Block.headsAll : List Block → List SectionHead
  | [] => []
  | block :: blocks => Block.heads block ++ Block.headsAll blocks

end

/-- The sections of segments in a row are those of each, in order. -/
@[simp] theorem Segment.headsAll_append (front back : List Segment) :
    Segment.headsAll (front ++ back) = Segment.headsAll front ++ Segment.headsAll back := by
  induction front with
  | nil => rfl
  | cons segment front ih =>
      rw [List.cons_append, Segment.headsAll, Segment.headsAll, ih, List.append_assoc]

/-- A parent keeps the blocks at the top of its content and what is inside of
    them. -/
theorem Segment.headsAll_blocks (segments : List Segment) :
    Block.headsAll (Segment.blocks segments) ⊆ Segment.headsAll segments := by
  induction segments with
  | nil => exact List.Subset.refl _
  | cons segment segments ih =>
      rw [Segment.headsAll]
      -- Only a block is kept; all other segments are dropped with their sections.
      cases segment with
      | block b =>
          rw [show Segment.blocks (.block b :: segments) = b :: Segment.blocks segments from rfl,
            Block.headsAll, Segment.heads]
          exact List.append_subset.mpr ⟨List.subset_append_left _ _,
            List.subset_append_of_subset_right _ ih⟩
      | text content => exact List.subset_append_of_subset_right _ ih
      | value name isEscaped => exact List.subset_append_of_subset_right _ ih
      | sect head children => exact List.subset_append_of_subset_right _ ih
      | inverted name children => exact List.subset_append_of_subset_right _ ih
      | reference r => exact List.subset_append_of_subset_right _ ih
      | parent r parameters => exact List.subset_append_of_subset_right _ ih

/-- The body of the section is the slice of the text at its span. -/
def SectionHead.IsCut (source : List Char) (head : SectionHead) : Prop :=
  head.span.slice? source = some head.body.toList

namespace Nesting

variable {source : List Char} {options : Options} {nesting next last : Nesting}

/-- All sections that were read so far are cut. -/
def IsCut (source : List Char) (nesting : Nesting) : Prop :=
  (∀ head ∈ Segment.headsAll nesting.segments, head.IsCut source) ∧
    ∀ frame ∈ nesting.frames, ∀ head ∈ Segment.headsAll frame.outer, head.IsCut source

/-- A section that is closed is cut if its children are. -/
theorem isCut_of_close? {frame : Frame} {children : List Segment} {stop : Nat} {segment : Segment}
    (h : frame.close? source options children stop = some segment)
    (hchildren : ∀ head ∈ Segment.headsAll children, head.IsCut source) :
    ∀ head ∈ segment.heads, head.IsCut source := by
  -- The span of a section proper starts where the body does and stops no sooner, and
  -- its body is what was cut out there. Other sections have no body.
  rw [Frame.close?] at h
  cases hkind : frame.kind with
  | sect =>
      simp only [hkind] at h
      rcases Option.map_eq_some_iff.mp h with ⟨body, hbody, rfl⟩
      intro head hhead
      rw [Segment.heads, List.mem_cons] at hhead
      rcases hhead with rfl | hhead
      · rw [SectionHead.IsCut, Span.slice?, if_pos (Nat.le_max_left _ _), hbody,
          String.toList_ofList]
      · exact hchildren head hhead
  | inverted =>
      simp only [hkind, Option.some.injEq] at h
      rw [← h, Segment.heads]
      exact hchildren
  | block =>
      simp only [hkind, Option.some.injEq] at h
      rw [← h, Segment.heads, Block.heads]
      exact hchildren
  | parent reference =>
      simp only [hkind, Option.some.injEq] at h
      rw [← h, Segment.heads]
      exact fun head hhead => hchildren head (Segment.headsAll_blocks children hhead)

/-- What a token does: it adds segments without a section, opens a section, or
    closes the innermost one. -/
theorem step_eq_ok {token : Token} (h : nesting.step source options token = .ok next) :
    (∃ segments, Segment.headsAll segments = [] ∧ next = nesting.add segments) ∨
    (∃ kind name start delimiters, token = .opening kind name start delimiters ∧
      next = ⟨⟨kind, name, start, delimiters, nesting.segments⟩ :: nesting.frames, []⟩) ∨
    (∃ frame frames segment stop, nesting.frames = frame :: frames ∧
      frame.close? source options nesting.segments stop = some segment ∧
      next = ⟨frames, frame.outer ++ [segment]⟩) := by
  -- Of the tags, only those of sections do more than add a segment.
  cases token with
  | text content => exact Or.inl ⟨[.text content], rfl, (Except.ok.inj h).symm⟩
  | value name isEscaped => exact Or.inl ⟨[.value name isEscaped], rfl, (Except.ok.inj h).symm⟩
  | reference r => exact Or.inl ⟨[.reference r], rfl, (Except.ok.inj h).symm⟩
  | opening kind name start delimiters =>
      exact Or.inr (Or.inl ⟨kind, name, start, delimiters, rfl, (Except.ok.inj h).symm⟩)
  | closing name stop offset =>
      rcases close_eq_ok h with ⟨frame, frames, segment, hframes, _, hclose, hnext⟩
      exact Or.inr (Or.inr ⟨frame, frames, segment, stop, hframes, hclose, hnext⟩)

/-- One more token keeps all sections cut. -/
theorem isCut_step {token : Token} (hcut : nesting.IsCut source)
    (h : nesting.step source options token = .ok next) : next.IsCut source := by
  rcases step_eq_ok h with ⟨segments, hnone, rfl⟩ | ⟨kind, name, start, delimiters, _, rfl⟩ |
    ⟨frame, frames, segment, stop, hframes, hclose, rfl⟩
  · -- Segments without a section change nothing.
    refine ⟨?_, hcut.2⟩
    rw [add, Segment.headsAll_append, hnone, List.append_nil]
    exact hcut.1
  · -- What was read so far goes into the new frame.
    refine ⟨fun head hhead => absurd hhead List.not_mem_nil, ?_⟩
    intro frame hframe
    rcases List.mem_cons.mp hframe with rfl | hframe
    · exact hcut.1
    · exact hcut.2 frame hframe
  · -- What the frame holds comes back, with the section that was closed.
    rw [IsCut, hframes] at hcut
    refine ⟨?_, fun frame' hframe => hcut.2 frame' (List.mem_cons_of_mem _ hframe)⟩
    intro head hhead
    simp only [Segment.headsAll_append, Segment.headsAll, List.append_nil,
      List.mem_append] at hhead
    rcases hhead with houter | hinner
    · exact hcut.2 frame List.mem_cons_self head houter
    · exact isCut_of_close? hclose hcut.1 head hinner

/-- So does a whole run. -/
theorem isCut_run {tokens : List Token} (hcut : nesting.IsCut source)
    (h : nesting.run source options tokens = .ok last) : last.IsCut source := by
  induction tokens generalizing nesting with
  | nil =>
      rw [run, Except.ok.injEq] at h
      rwa [← h]
  | cons token tokens ih =>
      rcases run_cons_eq_ok h with ⟨next, hstep, hrun⟩
      exact ih (isCut_step hcut hstep) hrun

/-- A section that is open was opened by a token. -/
theorem mem_frames_run {tokens : List Token} (h : nesting.run source options tokens = .ok last)
    {frame : Frame} (hframe : frame ∈ last.frames) :
    frame ∈ nesting.frames ∨
      .opening frame.kind frame.name frame.start frame.delimiters ∈ tokens := by
  induction tokens generalizing nesting with
  | nil =>
      rw [run, Except.ok.injEq] at h
      rw [h]
      exact Or.inl hframe
  | cons token tokens ih =>
      rcases run_cons_eq_ok h with ⟨next, hstep, hrun⟩
      -- After the first token, the section was open already or one of the others opened
      -- it.
      rcases ih hrun with hnext | hmem
      · rcases step_eq_ok hstep with ⟨segments, _, rfl⟩ |
          ⟨kind, name, start, delimiters, rfl, rfl⟩ |
          ⟨frame', frames, segment, stop, hframes, _, rfl⟩
        · exact Or.inl hnext
        · rcases List.mem_cons.mp hnext with rfl | houter
          · exact Or.inr List.mem_cons_self
          · exact Or.inl houter
        · rw [hframes]
          exact Or.inl (List.mem_cons_of_mem _ hnext)
      · exact Or.inr (List.mem_cons_of_mem _ hmem)

end Nesting

/-- The body of a section starts at a place that reading comes to. -/
theorem Cursor.isBoundary_bodyStart {source : List Char} {c : Cursor} (h : c.toText = source) :
    IsBoundary source c.bodyStart := by
  have hbehind := c.behind_append h
  rw [bodyStart]
  -- After the end of a trimmed line the body starts past the blanks that were trimmed.
  by_cases hahead : c.ahead.isEmpty = true
  · rw [if_pos hahead]
    refine ⟨c.behind.reverse ++ c.trail, c.beyond, ?_, ?_⟩
    · rw [← hbehind, List.isEmpty_iff.mp hahead, List.nil_append, List.append_assoc]
    · rw [byteLength_append, byteLength_reverse, pos]
  · rw [if_neg hahead]
    exact ⟨c.behind.reverse, _, hbehind, byteLength_reverse _⟩

/-- Every token that opens a section is at a boundary. -/
theorem Cursor.isBoundary_of_mem_stream {source : List Char} {c : Cursor} (h : c.toText = source)
    {kind : Opening} {name : String} {start : Nat} {delimiters : Delimiters}
    (hmem : .opening kind name start delimiters ∈ c.stream.tokens) : IsBoundary source start := by
  -- The token comes from a tag, and its body starts behind that.
  rcases mem_stream hmem with ⟨content, hcontent⟩ | ⟨opened, tag, after, hopened, htag, htoken⟩
  · simp only [reduceCtorEq] at hcontent
  · have hafter : after.toText = source := by
      rw [toText_of_reaches (hopened.trans (reaches_tag htag)), h]
    rcases tag with (_ | _ | _ | _) | ⟨kind', name'⟩ | name'
    case opening =>
      simp only [Tag.tokens, List.mem_singleton, Token.opening.injEq] at htoken
      rw [htoken.2.2.1]
      exact isBoundary_bodyStart hafter
    all_goals
      simp only [Tag.tokens, List.mem_singleton, List.not_mem_nil, reduceCtorEq] at htoken

/-- A section has no body exactly if it would stop inside of a character. -/
theorem Frame.close?_eq_none_iff {source : List Char} {options : Options} {frame : Frame}
    {children : List Segment} {stop : Nat} (hstart : IsBoundary source frame.start) :
    frame.close? source options children stop = none ↔
      frame.kind = .sect ∧ frame.start < stop ∧ ¬ IsBoundary source stop := by
  rw [close?]
  -- Only a section proper has a body to cut out.
  cases hkind : frame.kind with
  | sect =>
      simp only [Option.map_eq_none_iff, true_and]
      rw [Text.slice?_eq_none_iff (Nat.le_max_left _ _) hstart]
      -- A body that would stop before it starts is empty.
      by_cases hstop : frame.start < stop
      · rw [Nat.max_eq_right (Nat.le_of_lt hstop)]
        exact ⟨fun h => ⟨hstop, h⟩, fun h => h.2⟩
      · rw [Nat.max_eq_left (Nat.le_of_not_lt hstop)]
        exact ⟨fun h => absurd hstart h, fun h => absurd h.1 hstop⟩
  | inverted => simp only [reduceCtorEq, false_and]
  | block => simp only [reduceCtorEq, false_and]
  | parent reference => simp only [reduceCtorEq, false_and]

namespace Template

variable {source : String} {options : Options}

/-- A body is missing exactly if a closing tag would end it inside of a
    character. -/
theorem isSplit_iff :
    (stream source).IsSplit source.toList options ↔
      ∃ front name stop offset back frame frames segments,
        (stream source).tokens = front ++ .closing name stop offset :: back ∧
        Nesting.empty.run source.toList options front = .ok ⟨frame :: frames, segments⟩ ∧
        frame.name = name ∧ frame.kind = .sect ∧ frame.start < stop ∧
        IsBoundary source.toList frame.start ∧ ¬ IsBoundary source.toList stop := by
  -- The section that is closed was opened by one of the tokens before.
  have hstart : ∀ {front back : List Token} {frame : Frame} {last : Nesting},
      (stream source).tokens = front ++ back →
      Nesting.empty.run source.toList options front = .ok last → frame ∈ last.frames →
      IsBoundary source.toList frame.start := by
    intro front back frame last htokens hrun hframe
    rcases Nesting.mem_frames_run hrun hframe with hnil | hmem
    · exact absurd hnil List.not_mem_nil
    · have hstream : .opening frame.kind frame.name frame.start frame.delimiters ∈
          (stream source).tokens := by
        rw [htokens]
        exact List.mem_append_left _ hmem
      exact Cursor.isBoundary_of_mem_stream (Cursor.toText_ofText .standard source.toList) hstream
  constructor
  · rintro ⟨front, name, stop, offset, back, frame, frames, segments, htokens, hrun, hname, hnone⟩
    have hboundary := hstart htokens hrun List.mem_cons_self
    rcases (Frame.close?_eq_none_iff hboundary).mp hnone with ⟨hkind, hlt, hstop⟩
    exact ⟨front, name, stop, offset, back, frame, frames, segments, htokens, hrun, hname, hkind,
      hlt, hboundary, hstop⟩
  · rintro ⟨front, name, stop, offset, back, frame, frames, segments, htokens, hrun, hname, hkind,
      hlt, hboundary, hstop⟩
    exact ⟨front, name, stop, offset, back, frame, frames, segments, htokens, hrun, hname,
      (Frame.close?_eq_none_iff hboundary).mpr ⟨hkind, hlt, hstop⟩⟩

/-- The sections of a template are cut. -/
theorem isCut_of_compile {template : Template} (h : compile source options = .ok template) :
    ∀ head ∈ Segment.headsAll template.segments, head.IsCut source.toList := by
  -- Nothing was read at first, so all of it was cut.
  have hempty : Nesting.empty.IsCut source.toList :=
    ⟨fun head hhead => absurd hhead List.not_mem_nil,
      fun frame hframe => absurd hframe List.not_mem_nil⟩
  exact (Nesting.isCut_run hempty (run_of_compileWith h).2).1

/-- Of the slices that compiling a text takes, only the body of a section can
    be missing. A window that starts at the first byte and takes the steps of
    the cursor finds every slice it looks at, and the sections of a template
    have spans between boundaries. Compiling breaks off exactly if a body would
    stop inside of a character. -/
theorem compile_slices (source : String) (options : Options) :
    (Cursor.ofText .standard source.toList).window = ⟨.standard, 0, ⟨0, 0⟩, ⟨0, 0⟩⟩ ∧
      (∀ c, (Cursor.ofText .standard source.toList).Reaches c →
        c.window.next? source.toList = some (c.next?.map fun next => (next.1, next.2.window)) ∧
        c.window.indent? source.toList = some c.lead ∧
        ∀ new, c.window.changeDelimiters? source.toList new =
          some (c.changeDelimiters new).window) ∧
      (∀ template, compile source options = .ok template →
        ∀ head ∈ Segment.headsAll template.segments, head.span.Cuts source.toList ∧
          head.span.slice? source.toList = some head.body.toList) ∧
      ∀ panic, compile source options = .error (.panic panic) ↔
        ∃ front name stop offset back frame frames segments,
          (stream source).tokens = front ++ .closing name stop offset :: back ∧
          Nesting.empty.run source.toList options front = .ok ⟨frame :: frames, segments⟩ ∧
          frame.name = name ∧ frame.kind = .sect ∧ frame.start < stop ∧
          IsBoundary source.toList frame.start ∧ ¬ IsBoundary source.toList stop := by
  refine ⟨rfl, ?_, ?_, ?_⟩
  · intro c hreaches
    -- Every place that reading comes to is a place in the same text.
    have htext : c.toText = source.toList := by
      rw [Cursor.toText_of_reaches hreaches, Cursor.toText_ofText]
    exact ⟨Cursor.window_next htext, Cursor.window_indent htext,
      Cursor.window_changeDelimiters htext⟩
  · intro template h head hhead
    have hcut := isCut_of_compile h head hhead
    exact ⟨Span.cuts_iff_exists_slice?.mpr ⟨_, hcut⟩, hcut⟩
  · intro panic
    rw [compile_eq_panic_iff, isSplit_iff]

end Template

end Mustache
