import Mustache.Proofs.Boundary
import Mustache.Proofs.Offence
import Mustache.Proofs.Printing
import Mustache.Proofs.Snug

/-!
# Reading What Was Printed

Compiling the text of segments gives the segments back. The text is snug, since
a printed segment has no blank at either end, so reading it takes it as it
stands. Each segment then is read over its own text, whatever stands around it,
except that a text goes on up to the next tag.

## Main definitions

* `IsNeat`: A snug text without blanks at its ends.
* `Reads`: Reading a text adds segments.

## Theorems

* `Segment.isNeat_printAll`: Printed segments are neat.
* `Reads.append`, `Reads.enclosed`: Reading is made of parts.
* `Segment.reads_printAll`: Printed segments are read.
* `Template.compile_print`: Compiling undoes printing.
-/

namespace Mustache

open Text

/-- A snug text without blanks at its ends. Such texts can be put in a row. -/
structure IsNeat (text : List Char) : Prop where
  isSnug : IsSnug text
  head : ∀ c ∈ text.head?, isBlank c = false
  last : ∀ c ∈ text.getLast?, isBlank c = false

theorem isFitting_of_not_isBlank {left right : Char} (hleft : isBlank left = false)
    (hright : isBlank right = false) : IsFitting left right := by
  constructor
  · rintro ⟨hblank, _⟩
    rw [hleft] at hblank
    exact Bool.false_ne_true hblank
  · rintro ⟨_, hblank⟩
    rw [hright] at hblank
    exact Bool.false_ne_true hblank

namespace IsNeat

/-- Nothing has blanks at its ends. -/
theorem nil : IsNeat [] :=
  ⟨List.IsChain.nil, fun c hc => absurd hc (Option.not_mem_none c),
    fun c hc => absurd hc (Option.not_mem_none c)⟩

/-- Two neat texts in a row are neat. -/
theorem append {front back : List Char} (hfront : IsNeat front) (hback : IsNeat back) :
    IsNeat (front ++ back) := by
  refine ⟨?_, ?_, ?_⟩
  · -- Where the two meet there is no blank on either side.
    refine hfront.isSnug.append hback.isSnug ?_
    exact fun left hleft right hright =>
      isFitting_of_not_isBlank (hfront.last left hleft) (hback.head right hright)
  · intro c hc
    rw [List.head?_append, Option.mem_def, Option.or_eq_some_iff] at hc
    rcases hc with hc | ⟨_, hc⟩
    · exact hfront.head c hc
    · exact hback.head c hc
  · intro c hc
    rw [List.getLast?_append, Option.mem_def, Option.or_eq_some_iff] at hc
    rcases hc with hc | ⟨_, hc⟩
    · exact hback.last c hc
    · exact hfront.last c hc

/-- Without blanks there is nothing that trimming could take. -/
theorem of_not_isBlank {text : List Char} (h : ∀ c ∈ text, isBlank c = false) : IsNeat text := by
  refine ⟨?_, fun c hc => h c (List.mem_of_mem_head? hc),
    fun c hc => h c (List.mem_of_mem_getLast? hc)⟩
  exact (List.pairwise_of_forall_mem_list fun left hleft right hright =>
    isFitting_of_not_isBlank (h left hleft) (h right hright)).isChain

/-- A plain text has no braces, so it may have blanks anywhere but at its ends. -/
theorem of_isPlainText {text : List Char} (h : IsPlainText text) : IsNeat text := by
  refine ⟨?_, h.2.2.1, h.2.2.2⟩
  refine (List.pairwise_of_forall_mem_list fun left hleft right hright => ?_).isChain
  exact ⟨fun hand => (h.2.1 right hright).1 hand.2, fun hand => (h.2.1 left hleft).2 hand.1⟩

/-- A tag is written without blanks. -/
theorem tagText {sigil : List Char} {name : String} (hsigil : ∀ c ∈ sigil, isBlank c = false)
    (hname : IsName name) : IsNeat (tagText sigil name) := by
  refine of_not_isBlank fun c hc => ?_
  simp only [Mustache.tagText, List.mem_append, List.mem_cons, List.not_mem_nil, or_false] at hc
  rcases hc with ((hopen | hc) | hc) | hclose
  · rcases hopen with rfl | rfl <;> exact isBlank_openingBrace
  · exact hsigil c hc
  · exact (hname.2 c hc).1
  · rcases hclose with rfl | rfl <;> exact isBlank_closingBrace

/-- A body between two tags is neat if it is so for itself. -/
theorem enclosed {sigil : List Char} {name name' : String} {body : List Char}
    (hsigil : ∀ c ∈ sigil, isBlank c = false) (hname : IsName name) (hname' : IsName name')
    (hbody : IsNeat body) :
    IsNeat (Mustache.tagText sigil name ++ body ++ Mustache.tagText ['/'] name') :=
  ((tagText hsigil hname).append hbody).append
    (tagText (List.forall_mem_singleton.mpr (by decide)) hname')

end IsNeat

/-- The only mark of a reference is the star of a dynamic one. -/
theorem Reference.eq_of_mem_mark {reference : Reference} {c : Char} (h : c ∈ reference.mark) :
    c = '*' := by
  rw [mark] at h
  by_cases hdynamic : reference.isDynamic = true
  · rw [if_pos hdynamic] at h
    exact List.mem_singleton.mp h
  · rw [if_neg hdynamic] at h
    exact absurd h List.not_mem_nil

/-- Nothing before the name of a reference is blank. -/
theorem Reference.isBlank_mark (reference : Reference) {sigil : Char}
    (hsigil : isBlank sigil = false) : ∀ c ∈ sigil :: reference.mark, isBlank c = false := by
  intro c hc
  rcases List.mem_cons.mp hc with rfl | hmark
  · exact hsigil
  · rw [eq_of_mem_mark hmark]
    decide

mutual

/-- A printed segment is neat, one case for each kind of segment. -/
theorem Segment.isNeat_print (style : Nat → Bool) (start : Nat) :
    ∀ segment : Segment, segment.Printable → IsNeat (segment.print style start)
  | .text content, h => by
      rw [Segment.print]
      rw [Segment.Printable] at h
      exact .of_isPlainText h
  | .value name isEscaped, h => by
      rw [Segment.Printable] at h
      cases isEscaped with
      | true =>
          rw [Segment.print]
          exact .tagText (List.forall_mem_nil _) h.1
      | false =>
          rw [Segment.print]
          -- Both forms of an unescaped value are tags, one of them with a third brace.
          by_cases hstyle : style start = true
          · rw [if_pos hstyle]
            exact (IsNeat.tagText (List.forall_mem_singleton.mpr (by decide)) h.1).append
              (.of_not_isBlank (List.forall_mem_singleton.mpr isBlank_closingBrace))
          · rw [if_neg hstyle]
            exact .tagText (List.forall_mem_singleton.mpr (by decide)) h.1
  | .sect head children, h => by
      rw [Segment.Printable] at h
      rw [Segment.print]
      exact .enclosed (List.forall_mem_singleton.mpr (by decide)) h.1 h.1
        (Segment.isNeat_printAll style _ children h.2)
  | .inverted name children, h => by
      rw [Segment.Printable] at h
      rw [Segment.print]
      exact .enclosed (List.forall_mem_singleton.mpr (by decide)) h.1 h.1
        (Segment.isNeat_printAll style _ children h.2)
  | .block block, h => by
      rw [Segment.Printable] at h
      rw [Segment.print]
      exact Block.isNeat_print style start block h
  | .reference reference, h => by
      rw [Segment.Printable] at h
      rw [Segment.print]
      exact .tagText (reference.isBlank_mark (by decide)) h.1
  | .parent reference parameters, h => by
      rw [Segment.Printable] at h
      rw [Segment.print]
      exact .enclosed (reference.isBlank_mark (by decide)) h.1.1 h.1.1
        (Block.isNeat_printAll style _ parameters h.2)

/-- And so is a printed block. -/
theorem Block.isNeat_print (style : Nat → Bool) (start : Nat) :
    ∀ block : Block, block.Printable → IsNeat (block.print style start)
  | .mk name children, h => by
      rw [Block.Printable] at h
      rw [Block.print]
      exact .enclosed (List.forall_mem_singleton.mpr (by decide)) h.1 h.1
        (Segment.isNeat_printAll style _ children h.2)

/-- Printed segments are neat. -/
theorem Segment.isNeat_printAll (style : Nat → Bool) (start : Nat) :
    ∀ segments : List Segment, Segment.PrintableAll segments →
      IsNeat (Segment.printAll style start segments)
  | [], _ => by
      rw [Segment.printAll]
      exact .nil
  | segment :: segments, h => by
      rw [Segment.PrintableAll] at h
      rw [Segment.printAll]
      exact (Segment.isNeat_print style start segment h.1).append
        (Segment.isNeat_printAll style _ segments h.2.2)

/-- And so are the blocks of a parent. -/
theorem Block.isNeat_printAll (style : Nat → Bool) (start : Nat) :
    ∀ blocks : List Block, Block.PrintableAll blocks →
      IsNeat (Block.printAll style start blocks)
  | [], _ => by
      rw [Block.printAll]
      exact .nil
  | block :: blocks, h => by
      rw [Block.PrintableAll] at h
      rw [Block.printAll]
      exact (Block.isNeat_print style start block h.1).append
        (Block.isNeat_printAll style _ blocks h.2)

end

/-- Reading takes a cursor from `front` over the text up to `more`, and adds the
    segments to whatever nesting it is in. -/
def Reads (source : List Char) (options : Options) (front text more : List Char)
    (segments : List Segment) : Prop :=
  ∀ c : Cursor, c.Stands front (text ++ more) →
    ∃ after : Cursor, after.Stands (front ++ text) more ∧
      ∀ nesting, c.stream.assemble source options nesting =
        after.stream.assemble source options (nesting.add segments)

/-- Reading takes a cursor from `front` over the text of a tag up to `more`, and
    opens a section there. -/
def ReadsOpening (source : List Char) (options : Options) (front text more : List Char)
    (kind : Opening) (name : String) : Prop :=
  ∀ c : Cursor, c.Stands front (text ++ more) →
    ∃ after : Cursor, after.Stands (front ++ text) more ∧
      ∀ nesting, c.stream.assemble source options nesting =
        after.stream.assemble source options
          ⟨⟨kind, name, byteLength (front ++ text), .standard, nesting.segments⟩ ::
            nesting.frames, []⟩

namespace Reads

variable {source front text more : List Char} {options : Options}

/-- Over no text nothing is read. -/
theorem nil : Reads source options front [] more [] := by
  intro c hc
  refine ⟨c, by rwa [List.append_nil], fun nesting => ?_⟩
  rw [Nesting.add, List.append_nil]

/-- Two texts in a row are read one after the other. -/
theorem append {text' : List Char} {segments segments' : List Segment}
    (h : Reads source options front text (text' ++ more) segments)
    (h' : Reads source options (front ++ text) text' more segments') :
    Reads source options front (text ++ text') more (segments ++ segments') := by
  intro c hc
  rw [List.append_assoc] at hc
  rcases h c hc with ⟨middle, hmiddle, hassemble⟩
  rcases h' middle hmiddle with ⟨last, hlast, hassemble'⟩
  refine ⟨last, by rwa [List.append_assoc] at hlast, fun nesting => ?_⟩
  -- The nesting gets the segments of the first text and then those of the second.
  rw [hassemble, hassemble', Nesting.add_add]

/-- A text is read up to the next tag. -/
theorem ofText {content : String} (h : IsPlainText content.toList) (hopens : Opens more) :
    Reads source options front content.toList more [.text content] := by
  intro c hc
  rcases hc.stream_text content.toList (fun hmem => (h.2.1 _ hmem).1 rfl) hopens with
    ⟨after, hafter, hstream⟩
  refine ⟨after, hafter, fun nesting => ?_⟩
  -- A plain text is not empty, so it makes a segment.
  have htext : textSegments content.toList = [.text content] := by
    cases htoList : content.toList with
    | nil => exact absurd htoList h.1
    | cons ch text => rw [textSegments, ← htoList, String.ofList_toList]
  rw [hstream, Stream.assemble_prepend, Nesting.run_textTokens, htext]

end Reads

/-- A tag with a sigil is read from its opening delimiter to its closing
    delimiter. -/
theorem Cursor.Stands.sigilTag {c : Cursor} {front more content : List Char} {sigil : Char}
    (k : Nat) (hsigil : isBlank sigil = false) (hne : content ≠ [])
    (hcontent : ∀ x ∈ content, isBlank x = false ∧ x ≠ '}')
    (h : c.Stands front
      (List.replicate 2 '{' ++ (sigil :: (content ++ (List.replicate (k + 2) '}' ++ more))))) :
    ∃ opened inner after : Cursor, c.readUntil c.delimiters.opening = ⟨[], true, opened⟩ ∧
      opened.tagStart = byteLength front ∧ opened.skipBlanks.next? = some (sigil, inner) ∧
      (∀ make, inner.contentTag (List.replicate k '}') make = .ok (make content after, after)) ∧
      after.Stands
        (front ++ (List.replicate 2 '{' ++ (sigil :: (content ++ List.replicate (k + 2) '}'))))
        more := by
  -- The cursor goes over the opening delimiter, the sigil, and the content with its
  -- closing delimiter.
  rcases Cursor.Stands.readUntil_word [] List.not_mem_nil 1 h with ⟨opened, hopened, hread⟩
  rw [List.append_nil] at hopened
  rcases hopened.next with ⟨inner, hnext, hinner⟩
  rcases hinner.contentTag_eq k hne hcontent with ⟨after, hafter, htag⟩
  refine ⟨opened, inner, after, ?_, ?_, ?_, htag, ?_⟩
  · rw [h.delimiters_eq]
    exact hread
  · rw [Cursor.tagStart, hopened.pos_eq, hopened.delimiters_eq, byteLength_append]
    exact Nat.add_sub_cancel _ _
  · rw [hopened.skipBlanks_eq hsigil, hnext]
  · simp only [List.append_assoc, List.cons_append] at hafter ⊢
    exact hafter

/-- An escaped value has no sigil, so its content starts where other tags have
    theirs. -/
theorem Cursor.Stands.valueTag {c : Cursor} {front more content : List Char} (hne : content ≠ [])
    (hcontent : ∀ x ∈ content, isBlank x = false ∧ x ≠ '}')
    (hhead : ∀ x ∈ content.head?, x ∉ sigils)
    (h : c.Stands front (List.replicate 2 '{' ++ (content ++ (List.replicate 2 '}' ++ more)))) :
    ∃ opened after : Cursor, c.readUntil c.delimiters.opening = ⟨[], true, opened⟩ ∧
      opened.tag = .ok (.single (.value (String.ofList content) true), after) ∧
      after.Stands (front ++ (List.replicate 2 '{' ++ (content ++ List.replicate 2 '}'))) more := by
  rcases Cursor.Stands.readUntil_word [] List.not_mem_nil 1 h with ⟨opened, hopened, hread⟩
  rw [List.append_nil] at hopened
  rcases hopened.contentTag_eq 0 hne hcontent with ⟨after, hafter, htag⟩
  refine ⟨opened, after, ?_, ?_, by simpa only [List.append_assoc] using hafter⟩
  · rw [h.delimiters_eq]
    exact hread
  · cases content with
    | nil => exact absurd rfl hne
    | cons ch content =>
        have hch : ch ∉ sigils := hhead ch rfl
        have hskip := hopened.skipBlanks_eq (hcontent ch List.mem_cons_self).1
        rcases hopened.next with ⟨inner, hnext, _⟩
        rw [Cursor.tag, hskip]
        simp only [hnext]
        -- A first character that is a sigil would make another tag of it.
        split
        case h_12 => exact htag _
        all_goals exact absurd (by decide) hch

namespace Reference

/-- The content of a reference is not empty. -/
theorem mark_append_ne_nil {reference : Reference} (h : reference.Printable) :
    reference.mark ++ reference.name.toList ≠ [] :=
  List.append_ne_nil_of_right_ne_nil _ h.1.1

/-- It holds no blank and no closing brace. -/
theorem mark_append_content {reference : Reference} (h : reference.Printable) :
    ∀ x ∈ reference.mark ++ reference.name.toList, isBlank x = false ∧ x ≠ '}' := by
  intro x hx
  rcases List.mem_append.mp hx with hmark | hname
  · rw [eq_of_mem_mark hmark]
    decide
  · exact ⟨(h.1.2 x hname).1, (h.1.2 x hname).2.2⟩

/-- A name that does not start with the mark is not taken for a marked one. -/
theorem ofContent_mark {reference : Reference} (h : reference.Printable) :
    ofContent (reference.mark ++ reference.name.toList) [] = reference.placed := by
  rw [mark, placed]
  cases hdynamic : reference.isDynamic with
  | true =>
      have htrim : trimStart reference.name.toList = reference.name.toList :=
        dropWhile_isBlank_of_head? fun c hc => (h.1.2 c (List.mem_of_mem_head? hc)).1
      simp only [if_true, List.singleton_append, ofContent, htrim, String.ofList_toList]
  | false =>
      simp only [Bool.false_eq_true, if_false, List.nil_append, ofContent]
      split
      case h_1 name hname => exact absurd (by rw [hname]; rfl) (h.2 hdynamic)
      case h_2 =>
        rw [String.ofList_toList]

end Reference

/-- A name holds no blank and no closing brace, so it ends before the closing
    delimiter. -/
theorem IsName.content {name : String} (h : IsName name) :
    ∀ x ∈ name.toList, isBlank x = false ∧ x ≠ '}' :=
  fun x hx => ⟨(h.2 x hx).1, (h.2 x hx).2.2⟩

theorem tagText_cons (sigil : Char) (mark : List Char) (name : String) :
    tagText (sigil :: mark) name =
      List.replicate 2 '{' ++ (sigil :: (mark ++ name.toList ++ List.replicate 2 '}')) := by
  simp only [tagText, List.replicate, List.cons_append, List.nil_append, List.append_assoc]

theorem tagText_nil (name : String) :
    tagText [] name = List.replicate 2 '{' ++ (name.toList ++ List.replicate 2 '}') := by
  simp only [tagText, List.replicate, List.cons_append, List.nil_append]

section

variable {source front more : List Char} {options : Options}

/-- A single tag adds its segments to the nesting. -/
theorem Cursor.assemble_of_single {c opened after : Cursor} {tag : Single}
    (hread : c.readUntil c.delimiters.opening = ⟨[], true, opened⟩)
    (htag : opened.tag = .ok (.single tag, after)) (nesting : Nesting) :
    c.stream.assemble source options nesting =
      after.stream.assemble source options (nesting.add tag.segments) := by
  have htag' : (c.readUntil c.delimiters.opening).rest.tag = .ok (.single tag, after) := by
    rw [hread]
    exact htag
  rw [assemble_stream_of_tag nesting (congrArg Reading.found hread) htag', hread,
    Stream.assemble_single, textSegments, Nesting.add_add, List.nil_append]

/-- The text of a single tag is read as its segments. -/
theorem Reads.ofSingle {text : List Char} (tag : Single)
    (h : ∀ c : Cursor, c.Stands front (text ++ more) → ∃ opened after : Cursor,
      c.readUntil c.delimiters.opening = ⟨[], true, opened⟩ ∧
        opened.tag = .ok (.single tag, after) ∧ after.Stands (front ++ text) more) :
    Reads source options front text more tag.segments := by
  intro c hc
  rcases h c hc with ⟨opened, after, hread, htag, hafter⟩
  exact ⟨after, hafter, Cursor.assemble_of_single hread htag⟩

/-- A tag with a sigil is read as its segments if it is a single one. -/
theorem Reads.ofSigil {sigil : Char} {content : List Char} (k : Nat)
    (make : List Char → Cursor → Tag) (tag : Single) (hsigil : isBlank sigil = false)
    (hne : content ≠ [])
    (hcontent : ∀ x ∈ content, isBlank x = false ∧ x ≠ '}')
    (htag : ∀ opened inner : Cursor, opened.skipBlanks.next? = some (sigil, inner) →
      opened.tag = inner.contentTag (List.replicate k '}') make)
    (hmake : ∀ after : Cursor, after.lead = [] → make content after = .single tag) :
    Reads source options front
      (List.replicate 2 '{' ++ (sigil :: (content ++ List.replicate (k + 2) '}'))) more
      tag.segments := by
  refine Reads.ofSingle tag fun c hc => ?_
  simp only [List.append_assoc, List.cons_append] at hc
  rcases hc.sigilTag k hsigil hne hcontent with
    ⟨opened, inner, after, hread, _, hnext, hresult, hafter⟩
  have hopened : opened.tag = .ok (.single tag, after) := by
    rw [htag opened inner hnext, hresult, hmake after hafter.lead_eq]
  exact ⟨opened, after, hread, hopened, hafter⟩

/-- An escaped value is read if its name does not begin with a sigil. -/
theorem Reads.escapedValue {name : String} (h : IsName name)
    (hhead : IsUnmarked name) :
    Reads source options front (tagText [] name) more [.value name true] := by
  refine Reads.ofSingle (.value name true) fun c hc => ?_
  rw [tagText_nil, List.append_assoc, List.append_assoc] at hc
  rcases hc.valueTag h.1 h.content hhead with ⟨opened, after, hread, htag, hafter⟩
  rw [String.ofList_toList] at htag
  rw [tagText_nil]
  exact ⟨opened, after, hread, htag, hafter⟩

/-- A value that is not escaped is read in either form. -/
theorem Reads.rawValue (style : Nat → Bool) (start : Nat) {name : String} (h : IsName name) :
    Reads source options front (Segment.print style start (.value name false)) more
      [.value name false] := by
  have hvalue : Tag.single (.value (String.ofList name.toList) false) =
      .single (.value name false) := by
    rw [String.ofList_toList]
  rw [Segment.print]
  by_cases hstyle : style start = true
  · -- The third brace belongs to the closing delimiter.
    rw [if_pos hstyle, tagText_cons, List.nil_append]
    simp only [List.append_assoc, List.cons_append]
    refine Reads.ofSigil 1 (fun name _ => .single (.value (String.ofList name) false))
      (.value name false) (by decide) h.1 h.content ?_ fun _ _ => hvalue
    intro opened inner hnext
    simp only [Cursor.tag, hnext]
    rfl
  · rw [if_neg hstyle, tagText_cons, List.nil_append]
    refine Reads.ofSigil 0 (fun name _ => .single (.value (String.ofList name) false))
      (.value name false) (by decide) h.1 h.content ?_ fun _ _ => hvalue
    intro opened inner hnext
    simp only [Cursor.tag, hnext]
    rfl

/-- A reference is read with its mark, and gets no indent. -/
theorem Reads.reference {reference : Reference} (h : reference.Printable) :
    Reads source options front (tagText ('>' :: reference.mark) reference.name) more
      [.reference reference.placed] := by
  rw [tagText_cons]
  refine Reads.ofSigil 0 (fun content after => .single (.reference (.ofContent content after.lead)))
    (.reference reference.placed) (by decide) (Reference.mark_append_ne_nil h)
    (Reference.mark_append_content h) ?_ ?_
  · intro opened inner hnext
    simp only [Cursor.tag, hnext]
    rfl
  · -- Nothing was trimmed before the tag, so the reference is not indented.
    intro after hlead
    rw [hlead, Reference.ofContent_mark h]

theorem Cursor.Stands.bodyStart_eq {c : Cursor} (h : c.Stands front more) :
    c.bodyStart = byteLength front := by
  rw [bodyStart, h.trail_eq, h.pos_eq, byteLength, Nat.add_zero, ite_self]

theorem Cursor.Stands.bodyEnd_eq {c : Cursor} (h : c.Stands front more) (start : Nat) :
    c.bodyEnd start = start := by
  rw [bodyEnd, h.lead_eq, List.isEmpty_nil, Bool.not_true, Bool.and_false,
    if_neg Bool.false_ne_true]

/-- An opening tag puts the segments so far aside and begins with none. -/
theorem Cursor.assemble_of_opening {c opened after : Cursor} {kind : Opening} {name : String}
    (hread : c.readUntil c.delimiters.opening = ⟨[], true, opened⟩)
    (htag : opened.tag = .ok (.opening kind name, after)) (hafter : after.Stands front more)
    (nesting : Nesting) :
    c.stream.assemble source options nesting =
      after.stream.assemble source options
        ⟨⟨kind, name, byteLength front, .standard, nesting.segments⟩ :: nesting.frames, []⟩ := by
  have htag' : (c.readUntil c.delimiters.opening).rest.tag = .ok (.opening kind name, after) := by
    rw [hread]
    exact htag
  rw [assemble_stream_of_tag nesting (congrArg Reading.found hread) htag', hread,
    Stream.assemble_opening, textSegments, hafter.bodyStart_eq, hafter.delimiters_eq, Nesting.add,
    List.append_nil]

/-- A closing tag hands what was read to the section around it. -/
theorem Cursor.assemble_of_closing {c opened after : Cursor} {name : String} {frame : Frame}
    {frames : List Frame} {segments : List Segment} {segment : Segment} {stop : Nat}
    (hread : c.readUntil c.delimiters.opening = ⟨[], true, opened⟩)
    (htag : opened.tag = .ok (.closing name, after)) (hstart : opened.tagStart = stop)
    (hafter : after.Stands front more) (hname : frame.name = name)
    (hclose : frame.close? source options segments stop = some segment) :
    c.stream.assemble source options ⟨frame :: frames, segments⟩ =
      after.stream.assemble source options ⟨frames, frame.outer ++ [segment]⟩ := by
  have htag' : (c.readUntil c.delimiters.opening).rest.tag = .ok (.closing name, after) := by
    rw [hread]
    exact htag
  rw [assemble_stream_of_tag _ (congrArg Reading.found hread) htag', hread,
    Stream.assemble_closing, hafter.bodyEnd_eq, hstart, textSegments]
  simp only [Nesting.add, List.append_nil, Nesting.close, if_pos hname, hclose]

/-- A tag with a sigil opens a section if it is an opening one. -/
theorem ReadsOpening.ofSigil {sigil : Char} {content : List Char} {kind : Opening} {name : String}
    (make : List Char → Cursor → Tag) (hsigil : isBlank sigil = false) (hne : content ≠ [])
    (hcontent : ∀ x ∈ content, isBlank x = false ∧ x ≠ '}')
    (htag : ∀ opened inner : Cursor, opened.skipBlanks.next? = some (sigil, inner) →
      opened.tag = inner.contentTag [] make)
    (hmake : ∀ after : Cursor, after.lead = [] → make content after = .opening kind name) :
    ReadsOpening source options front
      (List.replicate 2 '{' ++ (sigil :: (content ++ List.replicate 2 '}'))) more kind name := by
  intro c hc
  simp only [List.append_assoc, List.cons_append] at hc
  rcases hc.sigilTag 0 hsigil hne hcontent with
    ⟨opened, inner, after, hread, _, hnext, hresult, hafter⟩
  -- The content makes the tag, since nothing was trimmed before it.
  have hopened : opened.tag = .ok (.opening kind name, after) := by
    rw [htag opened inner hnext, ← hmake after hafter.lead_eq]
    exact hresult make
  exact ⟨after, hafter, Cursor.assemble_of_opening hread hopened hafter⟩

/-- An opening tag, the segments inside of it and its closing tag are read as
    one segment. -/
theorem Reads.enclosed {tag body : List Char} {kind : Opening} {name : String}
    {children : List Segment} {segment : Segment} (hname : IsName name)
    (hopening : ReadsOpening source options front tag (body ++ (tagText ['/'] name ++ more)) kind
      name)
    (hbody : Reads source options (front ++ tag) body (tagText ['/'] name ++ more) children)
    (hclose : ∀ outer, Frame.close? source options
      ⟨kind, name, byteLength (front ++ tag), .standard, outer⟩ children
      (byteLength (front ++ tag ++ body)) = some segment) :
    Reads source options front (tag ++ body ++ tagText ['/'] name) more [segment] := by
  intro c hc
  rw [List.append_assoc, List.append_assoc] at hc
  -- The cursor goes over the opening tag, the body, and the closing tag.
  rcases hopening c hc with ⟨inner, hinner, hassemble⟩
  rcases hbody inner hinner with ⟨last, hlast, hassemble'⟩
  rw [tagText_cons, List.nil_append] at hlast ⊢
  simp only [List.append_assoc, List.cons_append] at hlast
  rcases hlast.sigilTag 0 (by decide) hname.1 hname.content with
    ⟨opened, inner', after, hread, hstart, hnext, hmake, hafter⟩
  have htag : opened.tag = .ok (.closing name, after) := by
    simp only [Cursor.tag, hnext]
    rw [← String.ofList_toList (s := name)]
    exact hmake _
  refine ⟨after, ?_, fun nesting => ?_⟩
  · simpa only [List.append_assoc, List.cons_append] using hafter
  · rw [hassemble, hassemble']
    simp only [List.append_assoc] at hstart hclose
    refine Cursor.assemble_of_closing hread htag hstart hafter rfl ?_
    exact hclose _

/-- Most opening tags have a name for their content. -/
theorem ReadsOpening.named {sigil : Char} (kind : Opening) {name : String} (h : IsName name)
    (hsigil : isBlank sigil = false)
    (htag : ∀ opened inner : Cursor, opened.skipBlanks.next? = some (sigil, inner) →
      opened.tag = inner.contentTag [] fun name _ => .opening kind (String.ofList name)) :
    ReadsOpening source options front (tagText [sigil] name) more kind name := by
  rw [tagText_cons, List.nil_append]
  refine ReadsOpening.ofSigil _ hsigil h.1 h.content htag fun after _ => ?_
  rw [String.ofList_toList]

theorem ReadsOpening.sect {name : String} (h : IsName name) :
    ReadsOpening source options front (tagText ['#'] name) more .sect name := by
  refine ReadsOpening.named .sect h (by decide) fun opened inner hnext => ?_
  simp only [Cursor.tag, hnext]

theorem ReadsOpening.inverted {name : String} (h : IsName name) :
    ReadsOpening source options front (tagText ['^'] name) more .inverted name := by
  refine ReadsOpening.named .inverted h (by decide) fun opened inner hnext => ?_
  simp only [Cursor.tag, hnext]

theorem ReadsOpening.block {name : String} (h : IsName name) :
    ReadsOpening source options front (tagText ['$'] name) more .block name := by
  refine ReadsOpening.named .block h (by decide) fun opened inner hnext => ?_
  simp only [Cursor.tag, hnext]

/-- A parent repeats the name of its reference, without the mark. -/
theorem ReadsOpening.parent {reference : Reference} (h : reference.Printable) :
    ReadsOpening source options front (tagText ('<' :: reference.mark) reference.name) more
      (.parent reference.placed) reference.name := by
  rw [tagText_cons]
  refine ReadsOpening.ofSigil
    (fun content after => .opening (.parent (.ofContent content after.lead))
      (Reference.ofContent content after.lead).name)
    (by decide) (Reference.mark_append_ne_nil h) (Reference.mark_append_content h) ?_ ?_
  · intro opened inner hnext
    simp only [Cursor.tag, hnext]
  · -- Nothing was trimmed before the tag, so the reference is not indented.
    intro after hlead
    simp only [hlead, Reference.ofContent_mark h]
    rfl

end

theorem opens_tagText (sigil : List Char) (name : String) (more : List Char) :
    Opens (tagText sigil name ++ more) :=
  Or.inr ⟨_, by rw [tagText, List.append_assoc, List.append_assoc, List.append_assoc]; rfl⟩

theorem Block.opens_print (style : Nat → Bool) (start : Nat) (block : Block) (more : List Char) :
    Opens (block.print style start ++ more) := by
  cases block with
  | mk name children =>
      rw [Block.print, List.append_assoc, List.append_assoc]
      exact opens_tagText _ _ _

/-- Every segment but a text starts with a tag. -/
theorem Segment.opens_print (style : Nat → Bool) (start : Nat) {segment : Segment}
    (h : segment.isText = false) (more : List Char) :
    Opens (segment.print style start ++ more) := by
  cases segment with
  | text content => exact absurd h (by simp only [isText, Bool.true_eq_false, not_false_eq_true])
  | value name isEscaped =>
      cases isEscaped with
      | true =>
          rw [Segment.print]
          exact opens_tagText _ _ _
      | false =>
          rw [Segment.print]
          -- Either form of an unescaped value begins with two braces.
          by_cases hstyle : style start = true
          · rw [if_pos hstyle, List.append_assoc]
            exact opens_tagText _ _ _
          · rw [if_neg hstyle]
            exact opens_tagText _ _ _
  | sect head children =>
      rw [Segment.print, List.append_assoc, List.append_assoc]
      exact opens_tagText _ _ _
  | inverted name children =>
      rw [Segment.print, List.append_assoc, List.append_assoc]
      exact opens_tagText _ _ _
  | block b =>
      rw [Segment.print]
      exact b.opens_print style start more
  | reference r =>
      rw [Segment.print]
      exact opens_tagText _ _ _
  | parent r parameters =>
      rw [Segment.print, List.append_assoc, List.append_assoc]
      exact opens_tagText _ _ _

/-- A text is followed by a tag, or by what comes after the segments. -/
theorem Segment.opens_printAll (style : Nat → Bool) (start : Nat) {segments : List Segment}
    {more : List Char} (h : ∀ next ∈ segments.head?, next.isText = false) (hmore : Opens more) :
    Opens (Segment.printAll style start segments ++ more) := by
  cases segments with
  | nil => exact hmore
  | cons segment segments =>
      rw [Segment.printAll, List.append_assoc]
      exact Segment.opens_print style start (h segment rfl) _

/-- A section that ends where its body does has this body. -/
theorem Frame.close?_sect {source front body back : List Char} {options : Options}
    (name : String) (outer children : List Segment) (h : front ++ (body ++ back) = source) :
    Frame.close? source options ⟨.sect, name, byteLength front, .standard, outer⟩ children
        (byteLength (front ++ body)) =
      some (.sect { name := name, isIterationCheck := options.iterationCheck,
                    delimiters := .standard,
                    span := ⟨byteLength front, byteLength front + byteLength body⟩,
                    body := String.ofList body } children) := by
  have hle : byteLength front ≤ byteLength (front ++ body) := by
    rw [byteLength_append]
    omega
  have hslice : slice? (byteLength front) (byteLength (front ++ body)) source = some body :=
    (slice?_eq_some_iff hle).mpr ⟨front, back, by rw [List.append_assoc, h], rfl, rfl⟩
  simp only [close?, Nat.max_eq_right hle, hslice, Option.map_some]
  rw [byteLength_append]

@[simp] theorem Segment.blocks_block (blocks : List Block) :
    Segment.blocks (blocks.map Segment.block) = blocks := by
  induction blocks with
  | nil => rfl
  | cons block blocks ih => exact congrArg (block :: ·) ih

section

variable {source : List Char} {options : Options}

-- Each segment is read over its text wherever that stands in the source. The
-- source matters for the sections alone, whose bodies are cut out of it.
mutual

/-- A segment is read over its text. If it is a text, a tag has to follow. -/
theorem Segment.reads_print (style : Nat → Bool) :
    ∀ (segment : Segment) (front more : List Char), segment.Printable →
      (segment.isText = true → Opens more) →
      front ++ (segment.print style (byteLength front) ++ more) = source →
      Reads source options front (segment.print style (byteLength front)) more
        [segment.placed options style (byteLength front)]
  | .text content, front, more, h, hopens, _ => by
      rw [Segment.Printable] at h
      rw [Segment.print, Segment.placed]
      exact .ofText h (hopens rfl)
  | .value name isEscaped, front, more, h, _, _ => by
      rw [Segment.placed]
      rw [Segment.Printable] at h
      cases isEscaped with
      | true =>
          rw [Segment.print]
          exact .escapedValue h.1 (h.2 rfl)
      | false => exact .rawValue style _ h.1
  | .sect head children, front, more, h, _, hsource => by
      rw [Segment.Printable] at h
      rw [Segment.print, ← byteLength_append] at hsource ⊢
      rw [Segment.placed, ← byteLength_append]
      -- The body stands between the two tags, and that is where it is cut out.
      have hbody : front ++ tagText ['#'] head.name ++
          (Segment.printAll style (byteLength (front ++ tagText ['#'] head.name)) children ++
            (tagText ['/'] head.name ++ more)) = source := by
        rw [← hsource]
        simp only [List.append_assoc]
      have hchildren : Reads source options _ _ _ _ :=
        Segment.reads_printAll style children _ _ h.2 (opens_tagText _ _ _) hbody
      exact .enclosed h.1 (.sect h.1) hchildren fun outer =>
        Frame.close?_sect head.name outer _ hbody
  | .inverted name children, front, more, h, _, hsource => by
      rw [Segment.Printable] at h
      rw [Segment.print, ← byteLength_append] at hsource ⊢
      rw [Segment.placed, ← byteLength_append]
      -- An inverted section has no body, so any source will do for it.
      refine .enclosed h.1 (.inverted h.1) ?_ fun outer => rfl
      refine Segment.reads_printAll style children _ _ h.2 (opens_tagText _ _ _) ?_
      rw [← hsource]
      simp only [List.append_assoc]
  | .block block, front, more, h, _, hsource => by
      rw [Segment.Printable] at h
      rw [Segment.print] at hsource ⊢
      rw [Segment.placed]
      exact Block.reads_print style block front more h hsource
  | .reference reference, front, more, h, _, _ => by
      rw [Segment.Printable] at h
      rw [Segment.print, Segment.placed]
      exact .reference h
  | .parent reference parameters, front, more, h, _, hsource => by
      rw [Segment.Printable] at h
      rw [Segment.print, ← byteLength_append] at hsource ⊢
      rw [Segment.placed, ← byteLength_append]
      have hparameters : Reads source options _ _ _ _ :=
        Block.reads_printAll style parameters
          (front ++ tagText ('<' :: reference.mark) reference.name)
          (tagText ['/'] reference.name ++ more) h.2
          (by rw [← hsource]; simp only [List.append_assoc])
      refine .enclosed h.1.1 (.parent h.1) hparameters fun outer => ?_
      simp only [Frame.close?, Segment.blocks_block]

/-- A block is read over its text. -/
theorem Block.reads_print (style : Nat → Bool) :
    ∀ (block : Block) (front more : List Char), block.Printable →
      front ++ (block.print style (byteLength front) ++ more) = source →
      Reads source options front (block.print style (byteLength front)) more
        [.block (block.placed options style (byteLength front))]
  | .mk name children, front, more, h, hsource => by
      rw [Block.Printable] at h
      rw [Block.print, ← byteLength_append] at hsource ⊢
      rw [Block.placed, ← byteLength_append]
      refine .enclosed h.1 (.block h.1) ?_ fun outer => rfl
      refine Segment.reads_printAll style children _ _ h.2 (opens_tagText _ _ _) ?_
      rw [← hsource]
      simp only [List.append_assoc]

/-- Segments in a row are read over their texts, one after the other. -/
theorem Segment.reads_printAll (style : Nat → Bool) :
    ∀ (segments : List Segment) (front more : List Char), Segment.PrintableAll segments →
      Opens more → front ++ (Segment.printAll style (byteLength front) segments ++ more) = source →
      Reads source options front (Segment.printAll style (byteLength front) segments) more
        (Segment.placedAll options style (byteLength front) segments)
  | [], front, more, _, _, _ => by
      rw [Segment.printAll, Segment.placedAll]
      exact .nil
  | segment :: segments, front, more, h, hopens, hsource => by
      rw [Segment.PrintableAll] at h
      rw [Segment.printAll, ← byteLength_append] at hsource ⊢
      rw [Segment.placedAll, ← byteLength_append, ← List.singleton_append]
      refine .append ?_ ?_
      · -- A text in front is followed by a tag, since the next segment is no text.
        refine Segment.reads_print style segment front _ h.1
          (fun htext => Segment.opens_printAll style _ (h.2.1 htext) hopens) ?_
        rw [← hsource, List.append_assoc]
      · refine Segment.reads_printAll style segments _ more h.2.2 hopens ?_
        rw [← hsource]
        simp only [List.append_assoc]

/-- The blocks of a parent are read alike. -/
theorem Block.reads_printAll (style : Nat → Bool) :
    ∀ (blocks : List Block) (front more : List Char), Block.PrintableAll blocks →
      front ++ (Block.printAll style (byteLength front) blocks ++ more) = source →
      Reads source options front (Block.printAll style (byteLength front) blocks) more
        ((Block.placedAll options style (byteLength front) blocks).map Segment.block)
  | [], front, more, _, _ => by
      rw [Block.printAll, Block.placedAll]
      exact .nil
  | block :: blocks, front, more, h, hsource => by
      rw [Block.PrintableAll] at h
      rw [Block.printAll, ← byteLength_append] at hsource ⊢
      rw [Block.placedAll, ← byteLength_append, List.map_cons, ← List.singleton_append]
      refine .append ?_ ?_
      · refine Block.reads_print style block front _ h.1 ?_
        rw [← hsource, List.append_assoc]
      · refine Block.reads_printAll style blocks _ more h.2 ?_
        rw [← hsource]
        simp only [List.append_assoc]

end

end

namespace Template

/-- Compiling undoes printing. Segments that can be printed are read back from
    their text, with the spans and the bodies that the sections have there. -/
theorem compile_print (style : Nat → Bool) (options : Options) (segments : List Segment)
    (h : Segment.PrintableAll segments) :
    compile (String.ofList (Segment.printAll style 0 segments)) options =
      .ok ⟨Segment.placedAll options style 0 segments⟩ := by
  rw [compile_eq_assemble, stream, String.toList_ofList]
  -- At first the whole text is ahead of the cursor, and nothing of it is trimmed.
  have hstands := Cursor.Stands.ofText (Segment.isNeat_printAll style 0 segments h).isSnug
  rw [← List.append_nil (Segment.printAll style 0 segments)] at hstands
  -- Nothing is left of the text when all segments are read.
  have hreads : Reads (Segment.printAll style 0 segments) options [] _ [] _ :=
    Segment.reads_printAll style segments [] [] h (Or.inl rfl) (List.append_nil _)
  rcases hreads _ hstands with ⟨last, hlast, hassemble⟩
  rw [List.append_nil] at hassemble
  rw [hassemble, hlast.stream_nil]
  rfl

theorem compile_print_nested :
    compile
        ("\x7b\x7b#a\x7d\x7dé\n  \n!\x7b\x7b\x7bn\x7d\x7d\x7d\x7b\x7b/a\x7d\x7d" ++
          "\x7b\x7b<*p\x7d\x7d\x7b\x7b$q\x7d\x7d\x7b\x7bv\x7d\x7d\x7b\x7b/q\x7d\x7d" ++
          "\x7b\x7b/p\x7d\x7d") =
      .ok ⟨[.sect ⟨"a", false, .standard, ⟨6, 20⟩, "é\n  \n!\x7b\x7b\x7bn\x7d\x7d\x7d"⟩
          [.text "é\n  \n!", .value "n" false],
        .parent ⟨"p", true, ""⟩ [.mk "q" [.value "v" true]]]⟩ := by
  refine compile_print (fun _ => true) {}
    [.sect ⟨"a", false, .standard, ⟨0, 0⟩, ""⟩ [.text "é\n  \n!", .value "n" false],
      .parent ⟨"p", true, " "⟩ [.mk "q" [.value "v" true]]] ?_
  simp only [Segment.PrintableAll, Segment.Printable, Block.PrintableAll, Block.Printable]
  decide

end Template

end Mustache
