import Mathlib.Order.MinMax
import Mustache.Proofs.Bodies

/-!
# Recoding

Two texts that are read alike: the tokens of one are those of the other, with
other texts, or at other places. A text that is put behind another one keeps its
tokens, and all offsets grow. A text that is written with other line ends keeps
its tags, and the texts around them follow. What is built from the tokens then
follows as well, as long as the bodies of the sections do: the errors, and the
tree with all its names and spans.

Blanks before the tag of a standalone line stay as they are, and so do the
delimiters.

## Main definitions

* `Segment.recode`, `Block.recode`: A tree with other texts and offsets.
* `Token.recode`, `Stream.recode`: The same for tokens.
* `Recodes`: A slice of one text stands in the other one where it should.
* `Token.IsWithin`: A token does not go beyond a byte offset.

## Theorems

* `Nesting.run_recode`: Running tokens that are recoded.
* `Stream.assemble_recode`: What a stream stands for is recoded with it.
* `Cursor.isWithin_of_mem_stream`: No token goes beyond the end of its text.
-/

namespace Mustache

open Text

section

variable (text : String → String) (offset : Nat → Nat)

/-- The reference to a template with another name. -/
def Reference.recode (reference : Reference) : Reference :=
  { reference with name := text reference.name }

/-- The section without its children, with other texts and offsets. -/
def SectionHead.recode (head : SectionHead) : SectionHead :=
  { head with
    name := text head.name, span := ⟨offset head.span.start, offset head.span.stop⟩,
    body := text head.body }

mutual

/-- The segment with other texts and offsets. -/
def Segment.recode : Segment → Segment
  | .text content => .text (text content)
  | .value name isEscaped => .value (text name) isEscaped
  | .sect head children => .sect (head.recode text offset) (Segment.recodeAll children)
  | .inverted name children => .inverted (text name) (Segment.recodeAll children)
  | .block block => .block (Block.recode block)
  | .reference reference => .reference (reference.recode text)
  | .parent reference parameters => .parent (reference.recode text) (Block.recodeAll parameters)

/-- The block with other texts and offsets. -/
def Block.recode : Block → Block
  | .mk name children => .mk (text name) (Segment.recodeAll children)

/-- The segments with other texts and offsets. -/
def Segment.recodeAll : List Segment → List Segment
  | [] => []
  | segment :: segments => Segment.recode segment :: Segment.recodeAll segments

/-- The blocks with other texts and offsets. -/
def Block.recodeAll : List Block → List Block
  | [] => []
  | block :: blocks => Block.recode block :: Block.recodeAll blocks

end

/-- The cause with other texts. -/
def ParseError.Cause.recode : ParseError.Cause → ParseError.Cause
  | unexpectedEndOfSection name => unexpectedEndOfSection (text name)
  | invalidDelimiters body => invalidDelimiters (text body)
  | cause => cause

/-- The error with other texts and offsets. -/
def ParseError.recode (error : ParseError) : ParseError :=
  ⟨error.cause.recode text, offset error.offset⟩

/-- The failure with other texts and offsets. A panic tells neither. -/
def Failure.recode : Failure → Failure
  | illFormed error => illFormed (error.recode text offset)
  | panic p => panic p

/-- What a tag opens, with other texts. -/
def Opening.recode : Opening → Opening
  | parent reference => parent (reference.recode text)
  | kind => kind

/-- The token with other texts and offsets. -/
def Token.recode : Token → Token
  | .text content => .text (text content)
  | value name isEscaped => value (text name) isEscaped
  | reference r => reference (r.recode text)
  | opening kind name start delimiters =>
    opening (kind.recode text) (text name) (offset start) delimiters
  | closing name stop last => closing (text name) (offset stop) (offset last)

/-- The end of a stream with other texts and offsets. -/
def Ending.recode : Ending → Ending
  | endOfText last => endOfText (offset last)
  | failure error => failure (error.recode text offset)

/-- The stream with other texts and offsets. -/
def Stream.recode (stream : Stream) : Stream :=
  ⟨stream.tokens.map (Token.recode text offset), stream.ending.recode text offset⟩

/-- The open section with other texts and offsets. -/
def Frame.recode (frame : Frame) : Frame where
  kind := frame.kind.recode text
  name := text frame.name
  start := offset frame.start
  delimiters := frame.delimiters
  outer := Segment.recodeAll text offset frame.outer

/-- The open sections and their segments with other texts and offsets. -/
def Nesting.recode (nesting : Nesting) : Nesting where
  frames := nesting.frames.map (Frame.recode text offset)
  segments := Segment.recodeAll text offset nesting.segments

@[simp] theorem Segment.recodeAll_append (front back : List Segment) :
    Segment.recodeAll text offset (front ++ back) =
      Segment.recodeAll text offset front ++ Segment.recodeAll text offset back := by
  induction front with
  | nil => rfl
  | cons segment front ih => rw [List.cons_append, recodeAll, recodeAll, ih, List.cons_append]

/-- Recoding keeps the kind of every segment, so the blocks stay blocks. -/
theorem Segment.blocks_recodeAll (segments : List Segment) :
    Segment.blocks (Segment.recodeAll text offset segments) =
      Block.recodeAll text offset (Segment.blocks segments) := by
  induction segments with
  | nil => rfl
  | cons segment segments ih =>
      cases segment with
      | block b => exact congrArg (Block.recode text offset b :: ·) ih
      | _ => exact ih

@[simp] theorem Nesting.recode_add (nesting : Nesting) (segments : List Segment) :
    (nesting.add segments).recode text offset =
      (nesting.recode text offset).add (Segment.recodeAll text offset segments) := by
  simp only [add, recode, Segment.recodeAll_append]

@[simp] theorem Stream.recode_prepend (tokens : List Token) (stream : Stream) :
    (stream.prepend tokens).recode text offset =
      (stream.recode text offset).prepend (tokens.map (Token.recode text offset)) := by
  simp only [prepend, recode, List.map_append]

end

mutual

/-- A segment that keeps its texts and offsets stays as it is. -/
theorem Segment.recode_id (segment : Segment) : segment.recode id id = segment := by
  cases segment with
  | text content => rfl
  | value name isEscaped => rfl
  | sect head children => rw [Segment.recode, Segment.recodeAll_id children]; rfl
  | inverted name children => rw [Segment.recode, Segment.recodeAll_id children]; rfl
  | block b => rw [Segment.recode, Block.recode_id b]
  | reference r => rfl
  | parent r parameters => rw [Segment.recode, Block.recodeAll_id parameters]; rfl

theorem Block.recode_id (block : Block) : block.recode id id = block := by
  cases block with
  | mk name children => rw [Block.recode, Segment.recodeAll_id children]; rfl

theorem Segment.recodeAll_id (segments : List Segment) :
    Segment.recodeAll id id segments = segments := by
  cases segments with
  | nil => rfl
  | cons segment segments =>
      rw [Segment.recodeAll, Segment.recode_id segment, Segment.recodeAll_id segments]

theorem Block.recodeAll_id (blocks : List Block) : Block.recodeAll id id blocks = blocks := by
  cases blocks with
  | nil => rfl
  | cons block blocks => rw [Block.recodeAll, Block.recode_id block, Block.recodeAll_id blocks]

end

theorem Opening.recode_id (kind : Opening) : kind.recode id = kind := by
  cases kind with
  | parent reference => rfl
  | _ => rfl

theorem Token.recode_id (token : Token) : token.recode id id = token := by
  cases token with
  | opening kind name start delimiters => rw [Token.recode, Opening.recode_id]; rfl
  | _ => rfl

theorem ParseError.recode_id (offset : Nat → Nat) (error : ParseError) :
    error.recode id offset = ⟨error.cause, offset error.offset⟩ := by
  rcases error with ⟨cause, last⟩
  cases cause with
  | _ => rfl

/-- What was cut out of the text `source` stands in the text `target` at the
    other offsets, with the other text. -/
structure Recodes (text : String → String) (offset : Nat → Nat) (source target : List Char) :
    Prop where
  /-- Names that differ stay different. -/
  injective : Function.Injective text
  monotone : Monotone offset
  slice : ∀ start stop, start ≤ stop → stop ≤ byteLength source →
    (slice? (offset start) (offset stop) target).map String.ofList =
      (slice? start stop source).map fun body => text (String.ofList body)

/-- A text keeps its slices inside of another one, that many bytes further on. -/
theorem recodes_shift (front source back : List Char) :
    Recodes id (· + byteLength front) source (front ++ source ++ back) where
  injective := Function.injective_id
  monotone := fun start stop h => Nat.add_le_add_right h _
  slice := by
    intro start stop h hstop
    have hle : start + byteLength front ≤ stop + byteLength front := Nat.add_le_add_right h _
    have hslice : slice? (start + byteLength front) (stop + byteLength front)
        (front ++ source ++ back) = slice? start stop source := by
      -- A slice of one text is a slice of the other, so the two have the same ones.
      refine Option.ext fun body => ?_
      rw [slice?_eq_some_iff hle, slice?_eq_some_iff h]
      constructor
      · rintro ⟨before, after, htext, hbefore, hbody⟩
        -- What lies before the slice goes on after the other text.
        have hfront : front <+: front ++ source ++ back :=
          ⟨source ++ back, (List.append_assoc ..).symm⟩
        have hwhole : before <+: front ++ source ++ back :=
          ⟨body ++ after, by rw [← htext, List.append_assoc]⟩
        rcases prefix_of_byteLength_le hfront hwhole (by omega) with ⟨more, rfl⟩
        rw [List.append_assoc, List.append_assoc, List.append_assoc, List.append_cancel_left_eq,
          ← List.append_assoc] at htext
        rw [byteLength_append] at hbefore
        rw [List.append_assoc, byteLength_append] at hbody
        have hinside : more ++ body <+: source ++ back := ⟨after, htext⟩
        rcases prefix_of_byteLength_le hinside (List.prefix_append source back) (by omega) with
          ⟨rest, hrest⟩
        exact ⟨more, rest, hrest, by omega, by omega⟩
      · rintro ⟨before, after, htext, hbefore, hbody⟩
        refine ⟨front ++ before, after ++ back, ?_, ?_, ?_⟩
        · rw [← htext]
          simp only [List.append_assoc]
        · rw [byteLength_append]
          omega
        · rw [List.append_assoc, byteLength_append]
          omega
    rw [hslice]
    rfl

/-- The token does not go beyond a byte offset. -/
def Token.IsWithin (limit : Nat) : Token → Prop
  | opening _ _ start _ => start ≤ limit
  | closing _ stop _ => stop ≤ limit
  | _ => True

section

variable {text : String → String} {offset : Nat → Nat} {source target : List Char}

/-- A recoded section closes as a section does, recoded. -/
theorem Frame.close?_recode (options : Options) (h : Recodes text offset source target)
    (frame : Frame) (children : List Segment) {stop : Nat}
    (hstart : frame.start ≤ byteLength source) (hstop : stop ≤ byteLength source) :
    (frame.recode text offset).close? target options (Segment.recodeAll text offset children)
        (offset stop) =
      (frame.close? source options children stop).map (Segment.recode text offset) := by
  rcases frame with ⟨kind, name, start, delimiters, outer⟩
  cases kind with
  | sect =>
      have hslice := h.slice start (max start stop) (Nat.le_max_left _ _)
        (Nat.max_le.mpr ⟨hstart, hstop⟩)
      have hmax : max (offset start) (offset stop) = offset (max start stop) :=
        (h.monotone.map_max).symm
      simp only [close?, recode, Opening.recode, hmax, Option.map_map]
      -- The body is the only part of the section that depends on the text.
      cases hbody : slice? start (max start stop) source with
      | none =>
          rw [hbody, Option.map_none, Option.map_eq_none_iff] at hslice
          rw [hslice]
          rfl
      | some body =>
          rw [hbody, Option.map_some, Option.map_eq_some_iff] at hslice
          rcases hslice with ⟨body', hbody', heq⟩
          rw [hbody', Option.map_some, Option.map_some, heq]
          rfl
  | inverted => rfl
  | block => rfl
  | parent reference =>
      simp only [close?, recode, Opening.recode, Segment.blocks_recodeAll, Option.map_some,
        Segment.recode]

/-- So does the innermost of some sections, and a name that does not match still
    does not. -/
theorem Nesting.close_recode (options : Options) (h : Recodes text offset source target)
    (nesting : Nesting) (name : String) {stop : Nat} (last : Nat)
    (hframes : ∀ frame ∈ nesting.frames, frame.start ≤ byteLength source)
    (hstop : stop ≤ byteLength source) :
    (nesting.recode text offset).close target options (text name) (offset stop) (offset last) =
      match nesting.close source options name stop last with
      | .error failure => .error (failure.recode text offset)
      | .ok next => .ok (next.recode text offset) := by
  rcases nesting with ⟨_ | ⟨frame, frames⟩, segments⟩
  · rfl
  · have hclose := Frame.close?_recode options h frame segments
      (hframes frame List.mem_cons_self) hstop
    simp only [close, recode, List.map_cons]
    -- Names that are the same stay the same, and others stay apart.
    by_cases hname : frame.name = name
    · have hname' : (frame.recode text offset).name = text name := congrArg text hname
      rw [if_pos hname, if_pos hname', hclose]
      cases frame.close? source options segments stop with
      | none => rfl
      | some segment =>
          simp only [Option.map_some, Segment.recodeAll_append]
          rfl
    · have hname' : (frame.recode text offset).name ≠ text name := h.injective.ne hname
      rw [if_neg hname, if_neg hname']
      rfl

/-- What a recoded token does is what the token does, recoded. -/
theorem Nesting.step_recode (options : Options) (h : Recodes text offset source target)
    (nesting : Nesting) (token : Token)
    (hframes : ∀ frame ∈ nesting.frames, frame.start ≤ byteLength source)
    (htoken : token.IsWithin (byteLength source)) :
    (nesting.recode text offset).step target options (token.recode text offset) =
      match nesting.step source options token with
      | .error failure => .error (failure.recode text offset)
      | .ok next => .ok (next.recode text offset) := by
  cases token with
  | closing name stop last => exact close_recode options h nesting name last hframes htoken
  | opening kind name start delimiters => rfl
  | text content => simp only [step, recode_add, Segment.recodeAll, Segment.recode, Token.recode]
  | value name isEscaped =>
      simp only [step, recode_add, Segment.recodeAll, Segment.recode, Token.recode]
  | reference r => simp only [step, recode_add, Segment.recodeAll, Segment.recode, Token.recode]

/-- Only the token of an opening tag adds a section that is open. -/
theorem Nesting.start_le_of_step {source : List Char} {options : Options} {limit : Nat}
    {nesting next : Nesting} {token : Token}
    (hstep : nesting.step source options token = .ok next) (htoken : token.IsWithin limit)
    (hframes : ∀ frame ∈ nesting.frames, frame.start ≤ limit) :
    ∀ frame ∈ next.frames, frame.start ≤ limit := by
  intro frame hframe
  rcases step_eq_ok hstep with ⟨segments, _, rfl⟩ | ⟨kind, name, start, delimiters, rfl, rfl⟩ |
    ⟨frame', frames, segment, stop, hnesting, _, rfl⟩
  · exact hframes frame hframe
  · rcases List.mem_cons.mp hframe with rfl | houter
    · exact htoken
    · exact hframes frame houter
  · rw [hnesting] at hframes
    exact hframes frame (List.mem_cons_of_mem _ hframe)

/-- What recoded tokens do is what the tokens do, recoded. -/
theorem Nesting.run_recode (options : Options) (h : Recodes text offset source target)
    (nesting : Nesting) (tokens : List Token)
    (hframes : ∀ frame ∈ nesting.frames, frame.start ≤ byteLength source)
    (htokens : ∀ token ∈ tokens, token.IsWithin (byteLength source)) :
    (nesting.recode text offset).run target options (tokens.map (Token.recode text offset)) =
      match nesting.run source options tokens with
      | .error failure => .error (failure.recode text offset)
      | .ok last => .ok (last.recode text offset) := by
  induction tokens generalizing nesting with
  | nil => rfl
  | cons token tokens ih =>
      have htoken := htokens token List.mem_cons_self
      have hrecode := step_recode options h nesting token hframes htoken
      rw [List.map_cons, run, run, hrecode]
      -- The induction is on the tokens. A token that fails ends the run on both sides.
      cases hstep : nesting.step source options token with
      | error failure => rfl
      | ok next =>
          exact ih next (start_le_of_step hstep htoken hframes)
            fun token hmem => htokens token (List.mem_cons_of_mem _ hmem)

/-- What a recoded stream stands for is what the stream stands for, recoded. -/
theorem Stream.assemble_recode (options : Options) (h : Recodes text offset source target)
    (nesting : Nesting) (stream : Stream)
    (hframes : ∀ frame ∈ nesting.frames, frame.start ≤ byteLength source)
    (htokens : ∀ token ∈ stream.tokens, token.IsWithin (byteLength source)) :
    (stream.recode text offset).assemble target options (nesting.recode text offset) =
      match stream.assemble source options nesting with
      | .error failure => .error (failure.recode text offset)
      | .ok segments => .ok (Segment.recodeAll text offset segments) := by
  have hrun := Nesting.run_recode options h nesting stream.tokens hframes htokens
  simp only [assemble, recode, hrun]
  cases nesting.run source options stream.tokens with
  | error failure => rfl
  | ok last =>
      cases stream.ending with
      | failure error => rfl
      | endOfText offset =>
          -- A section that is still open is an error on both sides.
          rcases last with ⟨_ | ⟨frame, frames⟩, segments⟩
          · rfl
          · rfl

end

namespace Cursor

theorem pos_le {source : List Char} {c : Cursor} (h : c.toText = source) :
    c.pos ≤ byteLength source := by
  rw [← h, toText]
  simp only [byteLength_append, byteLength_reverse]
  rw [pos]
  omega

theorem lineStart_le_pos (c : Cursor) : c.lineStart ≤ c.pos := by
  rw [lineStart, pos, behind]
  simp only [byteLength_append]
  omega

/-- No token goes beyond the end of its text. -/
theorem isWithin_of_mem_stream {source : List Char} {c : Cursor} (h : c.toText = source)
    {token : Token} (hmem : token ∈ c.stream.tokens) : token.IsWithin (byteLength source) := by
  cases token with
  | opening kind name start delimiters => exact (isBoundary_of_mem_stream h hmem).le
  | closing name stop last =>
      rcases mem_stream hmem with ⟨content, hcontent⟩ | ⟨opened, tag, after, hopened, htag, htoken⟩
      · simp only [reduceCtorEq] at hcontent
      · have hopenedText : opened.toText = source := by rw [toText_of_reaches hopened, h]
        have hafterText : after.toText = source := by
          rw [toText_of_reaches (hopened.trans (reaches_tag htag)), h]
        rcases tag with (_ | _ | _ | _) | ⟨kind', name'⟩ | name'
        case closing =>
          simp only [Tag.tokens, List.mem_singleton, Token.closing.injEq] at htoken
          rw [Token.IsWithin, htoken.2.1, bodyEnd]
          -- The body ends at the tag, or where the line of the tag starts.
          split
          case isTrue => exact (lineStart_le_pos after).trans (pos_le hafterText)
          case isFalse => exact (Nat.sub_le _ _).trans (pos_le hopenedText)
        all_goals
          simp only [Tag.tokens, List.mem_singleton, List.not_mem_nil, reduceCtorEq] at htoken
  | _ => trivial

end Cursor

end Mustache
