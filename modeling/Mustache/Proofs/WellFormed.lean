import Mustache.Proofs.Escaping
import Mustache.Proofs.Everywhere
import Mustache.Proofs.Lossless
import Mustache.Proofs.Scripts
import Mustache.Proofs.Snug

/-!
# Well-Formed Templates

What rendering takes for granted about a tree. Text that shows nothing would
have the next text begin no line, an indent with a line end in it would begin
lines of its own, and a script could not be read with delimiters that a
delimiter tag cannot name. None of this is checked when a template is rendered.
It holds because of how templates are read: no text is taken unless there is
some, the blanks before the tags of a line end where the line does at the
latest, delimiters come from the words of a delimiter tag, and the content of a
tag is trimmed and not empty.

These are facts about single tokens, and each is shown where the token is read.
The tree is made of tokens alone, so it is well-formed everywhere.

## Main definitions

* `Text.IsTight`: A text with no blank at either end.
* `Delimiters.IsNamed`: A delimiter tag puts the pair in force.
* `Segment.IsWellFormed`: What holds of each segment of a template.
* `Token.IsWellFormed`: What holds of each token of a text.

## Theorems

* `Text.isTight_trim`: A trimmed text is tight.
* `Cursor.isNamed`: The tag that is written for a pair of delimiters names it.
* `Reader.isWellFormed_run`: All tokens of a text are well-formed.
* `Nesting.IsWellFormed.run`: They make well-formed segments.
* `Template.isWellFormed_of_compileWith`: Templates are well-formed everywhere.
-/

namespace Mustache

open Text

namespace Text

/-- The text is not empty and has no blank at either end. -/
structure IsTight (text : List Char) : Prop where
  ne_nil : text ≠ []
  first : ∀ ch ∈ text.head?, isBlank ch = false
  last : ∀ ch ∈ text.getLast?, isBlank ch = false

/-- Behind the blanks at the start of a text comes no blank. -/
theorem isBlank_of_head?_dropWhile (text : List Char) :
    ∀ ch ∈ (text.dropWhile isBlank).head?, isBlank ch = false := by
  intro ch hch
  have hfirst := List.head?_dropWhile_not isBlank text
  rw [hch] at hfirst
  exact hfirst

/-- A trimmed text is tight, unless nothing is left of it. -/
theorem isTight_trim {text : List Char} (h : trim text ≠ []) : IsTight (trim text) := by
  refine ⟨h, ?_, ?_⟩
  · -- Trimming the end leaves the first character where it is.
    have hprefix : trim text <+: trimStart text := by
      rw [trim, trimEnd, ← List.reverse_suffix, List.reverse_reverse]
      exact List.dropWhile_suffix isBlank
    rcases hprefix with ⟨blanks, hblanks⟩
    have hfirst := isBlank_of_head?_dropWhile text
    rwa [← trimStart, ← hblanks, List.head?_append_of_ne_nil _ h] at hfirst
  · rw [trim, trimEnd, List.getLast?_reverse]
    exact isBlank_of_head?_dropWhile _

/-- Blanks are no markup, so escaping leaves them alone. -/
theorem escape_of_isBlank {text : String} (h : ∀ ch ∈ text.toList, isBlank ch = true) :
    escape text = text := by
  -- None of the eight characters is a blank.
  have hmarkup : ('&' :: markup).all (fun ch => !isBlank ch) = true := by decide
  have hsame : ∀ ch ∈ text.toList, written ch = [ch] := by
    intro ch hmem
    refine written_of_not_mem fun hch => ?_
    have hnot := List.all_eq_true.mp hmarkup ch hch
    rw [h ch hmem] at hnot
    exact Bool.false_ne_true hnot
  rw [← String.toList_inj, toList_escape, List.flatMap_congr hsame, List.flatMap_singleton']

end Text

/-- A template that begins with the line of a delimiter tag for the pair has that
    tag before anything else, and it puts the pair in force. -/
def Delimiters.IsNamed (d : Delimiters) : Prop :=
  ∀ back : List Char, ∃ opened after,
    (Cursor.ofText .standard ((delimiterLine d).toList ++ back)).readUntil
      Delimiters.standard.opening = ⟨[], true, opened⟩ ∧
    opened.tag = .ok (.single (.delimiters d), after) ∧ after.delimiters = d

/-- The indent of the reference is blank and begins no line, so it is the same
    once it is escaped. The name of a template is tight. -/
structure Reference.IsWellFormed (reference : Reference) : Prop where
  isBlank_indent : ∀ ch ∈ reference.indent.toList, isBlank ch = true
  not_mem_indent : '\n' ∉ reference.indent.toList
  escape_indent : escape reference.indent = reference.indent
  isTight_name : reference.isDynamic = false → IsTight reference.name.toList

/-- What holds of a segment of a template, whatever is inside of it. -/
def Segment.IsWellFormed : Segment → Prop
  | .text content => content ≠ ""
  | .value name _ => IsTight name.toList
  | .sect head _ =>
    IsTight head.name.toList ∧ IsDelimiter head.delimiters.opening ∧
      IsDelimiter head.delimiters.closing ∧ head.delimiters.IsNamed
  | .inverted name _ => IsTight name.toList
  | .block inner => IsTight inner.name.toList
  | .reference r => r.IsWellFormed
  | .parent r parameters =>
    r.IsWellFormed ∧ ∀ block ∈ parameters, IsTight block.name.toList

/-- What holds of a tag that opens something with the given name. -/
def Opening.IsWellFormed (name : String) : Opening → Prop
  | .parent r => r.IsWellFormed
  | _ => IsTight name.toList

/-- What holds of a token of a text. -/
def Token.IsWellFormed : Token → Prop
  | .text content => content ≠ ""
  | .value name _ => IsTight name.toList
  | .reference r => r.IsWellFormed
  | .opening kind name _ _ => kind.IsWellFormed name
  | .closing _ _ _ => True

namespace Cursor

/-- Reading looks at the next character, not at the place before it. -/
theorem readUntil_congr {c c' : Cursor} (word : List Char) (h : c.next? = c'.next?)
    (hsome : c.next? ≠ none) : c.readUntil word = c'.readUntil word := by
  cases hnext : c.next? with
  | none => exact absurd hnext hsome
  | some next =>
      rcases next with ⟨ch, after⟩
      rw [readUntil, readUntil, readFrom_of_next word [] hnext,
        readFrom_of_next word [] (h.symm.trans hnext)]

/-- The first line of a text that begins with a delimiter line has its tag ahead. -/
theorem ahead_delimiterLine (d : Delimiters) (back : List Char) :
    ∃ rest, (ofText .standard (d.tagText ++ ['\n'] ++ back)).nextLine.ahead =
      d.tagText ++ rest := by
  simp only [nextLine, ofText, behind, List.reverse_nil, List.nil_append,
    d.takeLine_delimiterLine back]
  rcases d.ofText_delimiterLine with ⟨_, htrimmed⟩ | ⟨_, hwhole⟩
  · exact ⟨[], by rw [htrimmed, List.append_nil]⟩
  · exact ⟨['\n'], by rw [hwhole]⟩

/-- The tag that is written for a pair of delimiters names it. -/
theorem isNamed (d : Delimiters) : d.IsNamed := by
  intro back
  have hbeyond : (ofText .standard (d.tagText ++ ['\n'] ++ back)).beyond ≠ [] :=
    List.append_ne_nil_of_left_ne_nil
      (List.append_ne_nil_of_right_ne_nil _ (List.cons_ne_nil _ _)) _
  -- The search for a tag starts by going to the first line, whose tag is then ahead.
  have hnext := next?_nextLine (c := ofText .standard (d.tagText ++ ['\n'] ++ back)) rfl hbeyond
  have hsome : (ofText .standard (d.tagText ++ ['\n'] ++ back)).next? ≠ none := fun hnone =>
    hbeyond (nil_of_next? hnone).2
  rcases ahead_delimiterLine d back with ⟨rest, hahead⟩
  rcases tag_tagText rfl hahead with ⟨opened, hread, htag⟩
  refine ⟨opened, _, ?_, htag, delimiters_changeDelimiters _ _⟩
  rw [Template.toList_delimiterLine, readUntil_congr _ hnext.symm hsome]
  exact hread

end Cursor

/-- A reference with a tight content on a line with a blank indent is well-
    formed. -/
theorem Reference.isWellFormed_ofContent {content indent : List Char} (hcontent : IsTight content)
    (hblank : indent.all isBlank = true) (hline : '\n' ∉ indent) :
    (Reference.ofContent content indent).IsWellFormed := by
  have hindent : (Reference.ofContent content indent).indent = String.ofList indent := by
    unfold Reference.ofContent
    split
    case h_1 => rfl
    case h_2 => rfl
  have hall : ∀ ch ∈ (Reference.ofContent content indent).indent.toList, isBlank ch = true := by
    rw [hindent, String.toList_ofList]
    exact List.all_eq_true.mp hblank
  refine ⟨hall, ?_, escape_of_isBlank hall, ?_⟩
  · rwa [hindent, String.toList_ofList]
  · -- Without the mark of a dynamic reference the name is the content.
    unfold Reference.ofContent
    split
    case h_1 => exact fun hdynamic => absurd hdynamic Bool.noConfusion
    case h_2 =>
      intro _
      rwa [String.toList_ofList]

/-- A tag with a tight content, on a line with a blank indent, has a well-formed
    token. -/
theorem Tag.isWellFormed_ofContent {sigil : Char} {content indent : List Char}
    (hcontent : IsTight content) (hblank : indent.all isBlank = true) (hline : '\n' ∉ indent)
    (start : Nat) (after : Cursor) :
    ∀ token ∈ (Tag.ofContent sigil content indent).tokensFrom start after, token.IsWellFormed := by
  have hname : IsTight (String.ofList content).toList := by rwa [String.toList_ofList]
  have hreference := Reference.isWellFormed_ofContent hcontent hblank hline
  intro token hmem
  unfold Tag.ofContent at hmem
  -- There is one token for each sigil.
  split at hmem
  all_goals
    rw [Tag.tokensFrom, List.mem_singleton] at hmem
    rw [hmem]
  case h_1 => exact trivial
  case h_5 => exact hreference
  case h_6 => exact hreference
  case h_7 => exact hreference
  all_goals exact hname

namespace Reader

variable {r next : Reader} {event : Event}

/-- A text that is read becomes a token only if it is not empty. -/
theorem isWellFormed_textTokens (text : List Char) :
    ∀ token ∈ textTokens text, token.IsWellFormed := by
  intro token hmem
  cases text with
  | nil => exact absurd hmem List.not_mem_nil
  | cons ch text =>
      rw [List.mem_singleton.mp hmem]
      exact fun hempty => List.cons_ne_nil ch text (String.ofList_eq_empty_iff.mp hempty)

/-- Every token that is read on the way is well-formed. -/
theorem isWellFormed_of_moves (h : r.Moves event next) (hblanks : r.place.SetsAsideBlanks) :
    next.place.SetsAsideBlanks ∧ ∀ token ∈ event.tokens next.place, token.IsWellFormed := by
  rcases r with ⟨mode, place⟩
  rcases h with ⟨ch, after, hnext, hstep⟩
  have hafter := hblanks.next hnext
  -- Only the end of a text and the end of a tag make tokens.
  cases Mode.steps_of_step hstep with
  | opens hword => exact ⟨hafter, isWellFormed_textTokens _⟩
  | ends hword hcomplete =>
      -- A comment and a delimiter tag make no token.
      rcases Cursor.complete_eq_ok hcomplete with
        ⟨_, rfl, hplace⟩ | ⟨_, new, rfl, hplace⟩ | ⟨_, _, hcontent, rfl, hplace⟩
      · rw [hplace]
        exact ⟨hafter, fun token hmem => absurd hmem List.not_mem_nil⟩
      · rw [hplace]
        exact ⟨hafter.changeDelimiters new, fun token hmem => absurd hmem List.not_mem_nil⟩
      · rw [hplace]
        exact ⟨hafter, Tag.isWellFormed_ofContent (isTight_trim hcontent) hafter.lead
          hafter.not_mem_lead _ _⟩
  | _ => exact ⟨hafter, fun token hmem => absurd hmem List.not_mem_nil⟩

/-- All tokens that are read from here on are well-formed. -/
theorem isWellFormed_run (h : r.place.SetsAsideBlanks) :
    ∀ token ∈ r.run.tokens, token.IsWellFormed := by
  -- Each step keeps the blanks that were set aside, and its tokens are well-formed.
  fun_induction run r with
  | case1 r hnext =>
      -- All that the end of the text can add is a text.
      rcases r with ⟨mode, place⟩
      cases mode with
      | text buffer => exact isWellFormed_textTokens _
      | opened start => exact fun token hmem => absurd hmem List.not_mem_nil
      | content start sigil buffer => exact fun token hmem => absurd hmem List.not_mem_nil
  | case2 r ch after hnext error hstep => exact fun token hmem => absurd hmem List.not_mem_nil
  | case3 r ch after hnext event next hstep ih =>
      rcases isWellFormed_of_moves ⟨ch, after, hnext, hstep⟩ h with ⟨hblanks, htokens⟩
      intro token hmem
      rcases List.mem_append.mp hmem with hfirst | hrest
      · exact htokens token hfirst
      · exact ih hblanks token hrest

end Reader

namespace Nesting

variable {source : List Char} {options : Options} {nesting next last : Nesting}

/-- The segments that were read so far are well-formed everywhere, and so are the
    tags of the sections that are open. -/
structure IsWellFormed (nesting : Nesting) : Prop where
  segments : Segment.EverywhereAll Segment.IsWellFormed nesting.segments
  frames : ∀ frame ∈ nesting.frames, frame.kind.IsWellFormed frame.name ∧
    Segment.EverywhereAll Segment.IsWellFormed frame.outer

/-- What is closed is well-formed if its tag and its children are. -/
theorem isWellFormed_of_close? {frame : Frame} {children : List Segment} {stop : Nat}
    {segment : Segment} (h : frame.close? source options children stop = some segment)
    (hframe : frame.kind.IsWellFormed frame.name)
    (hchildren : Segment.EverywhereAll Segment.IsWellFormed children) :
    segment.Everywhere Segment.IsWellFormed := by
  rw [Frame.close?] at h
  -- The delimiters of a section are words by the type they have.
  cases hkind : frame.kind with
  | sect =>
      rw [hkind] at hframe
      simp only [hkind] at h
      rcases Option.map_eq_some_iff.mp h with ⟨body, _, rfl⟩
      rw [Segment.Everywhere]
      exact ⟨⟨hframe, frame.delimiters.opening_isDelimiter, frame.delimiters.closing_isDelimiter,
        Cursor.isNamed frame.delimiters⟩, hchildren⟩
  | inverted =>
      rw [hkind] at hframe
      simp only [hkind, Option.some.injEq] at h
      rw [← h, Segment.Everywhere]
      exact ⟨hframe, hchildren⟩
  | block =>
      rw [hkind] at hframe
      simp only [hkind, Option.some.injEq] at h
      rw [← h, Segment.Everywhere, Block.Everywhere]
      exact ⟨hframe, hchildren⟩
  | parent reference =>
      rw [hkind] at hframe
      simp only [hkind, Option.some.injEq] at h
      rw [← h, Segment.Everywhere]
      exact ⟨⟨hframe, hchildren.blocks.1⟩, hchildren.blocks.2⟩

theorem IsWellFormed.add {segment : Segment} (h : nesting.IsWellFormed)
    (hsegment : segment.Everywhere Segment.IsWellFormed) : (nesting.add [segment]).IsWellFormed :=
  ⟨h.segments.append (Segment.everywhereAll_singleton hsegment), h.frames⟩

/-- One more token that is well-formed keeps all of it so. -/
theorem IsWellFormed.step {token : Token} (h : nesting.IsWellFormed) (htoken : token.IsWellFormed)
    (hstep : nesting.step source options token = .ok next) : next.IsWellFormed := by
  cases token with
  | text content =>
      rw [← Except.ok.inj hstep]
      exact h.add (by rwa [Segment.Everywhere])
  | value name isEscaped =>
      rw [← Except.ok.inj hstep]
      exact h.add (by rwa [Segment.Everywhere])
  | reference r =>
      rw [← Except.ok.inj hstep]
      exact h.add (by rwa [Segment.Everywhere])
  | opening kind name start delimiters =>
      -- What was read so far goes into the new frame.
      rw [← Except.ok.inj hstep]
      refine ⟨by rw [Segment.EverywhereAll]; trivial, ?_⟩
      exact List.forall_mem_cons.mpr ⟨⟨htoken, h.segments⟩, h.frames⟩
  | closing name stop offset =>
      rcases close_eq_ok hstep with ⟨frame, frames, segment, hframes, _, hclose, rfl⟩
      have hall := h.frames
      rw [hframes, List.forall_mem_cons] at hall
      have hsegment := isWellFormed_of_close? hclose hall.1.1 h.segments
      exact ⟨hall.1.2.append (Segment.everywhereAll_singleton hsegment), hall.2⟩

/-- So do any number of them. -/
theorem IsWellFormed.run {tokens : List Token} (h : nesting.IsWellFormed)
    (htokens : ∀ token ∈ tokens, token.IsWellFormed)
    (hrun : nesting.run source options tokens = .ok last) : last.IsWellFormed := by
  induction tokens generalizing nesting with
  | nil =>
      rw [Nesting.run, Except.ok.injEq] at hrun
      rwa [← hrun]
  | cons token tokens ih =>
      rcases run_cons_eq_ok hrun with ⟨next, hstep, hrest⟩
      rw [List.forall_mem_cons] at htokens
      exact ih (h.step htokens.1 hstep) htokens.2 hrest

end Nesting

/-- Angle brackets and percent signs. -/
def Delimiters.angled : Delimiters where
  opening := ['<', '%']
  closing := ['%', '>']
  opening_isDelimiter := by simp [IsDelimiter, isBlank, blankRanges]
  closing_isDelimiter := by simp [IsDelimiter, isBlank, blankRanges]

namespace Template

/-- A text that compiles stands for a tree that is well-formed everywhere, down to
    the parameters of parents, with any delimiters at the start. No text is empty.
    The indent of a reference is blank and has no line end, and escaping leaves it
    alone. The delimiters of a section are words without an equals sign, and the
    delimiter tag that is written for them is read as a tag that names them. Values,
    sections, blocks and references by name have tight names. -/
theorem isWellFormed_of_compileWith {d : Delimiters} {source : String} {options : Options}
    {template : Template} (h : compileWith d options source = .ok template) :
    Segment.EverywhereAll Segment.IsWellFormed template.segments := by
  -- Nothing was read at first, and each token of the stream is well-formed.
  have hempty : Nesting.empty.IsWellFormed :=
    ⟨by rw [Nesting.empty, Segment.EverywhereAll]; trivial,
      fun frame hframe => absurd hframe List.not_mem_nil⟩
  have htokens : ∀ token ∈ (Cursor.ofText d source.toList).stream.tokens, token.IsWellFormed := by
    rw [← Cursor.run_eq_stream]
    exact Reader.isWellFormed_run (Cursor.setsAsideBlanks_ofText d source.toList)
  exact (hempty.run htokens (run_of_compileWith h).2).segments

/-- A section with a reference on a line of its own and a parent with a block,
    read with other delimiters. -/
theorem isWellFormed_of_compileWith_rows :
    ∃ template,
      template.segments =
        [.sect ⟨"rows", false, .angled, ⟨12, 70⟩,
            "  <%> row %>\n<%< page %><%$ head %>y<%/ head %><%/ page %>"⟩
          [.reference ⟨"row", false, "  "⟩,
            .parent ⟨"page", false, ""⟩ [.mk "head" [.text "y"]]]] ∧
      compileWith .angled {} ("<%# rows %>\n  <%> row %>\n" ++
        "<%< page %><%$ head %>y<%/ head %><%/ page %><%/ rows %>") = .ok template ∧
      Segment.EverywhereAll Segment.IsWellFormed template.segments := by
  have hcompile : compileWith .angled {}
      ("<%# rows %>\n  <%> row %>\n" ++
        "<%< page %><%$ head %>y<%/ head %><%/ page %><%/ rows %>") =
      .ok ⟨[.sect ⟨"rows", false, .angled, ⟨12, 70⟩,
          "  <%> row %>\n<%< page %><%$ head %>y<%/ head %><%/ page %>"⟩
        [.reference ⟨"row", false, "  "⟩,
          .parent ⟨"page", false, ""⟩ [.mk "head" [.text "y"]]]]⟩ := by
    with_unfolding_all rfl
  exact ⟨_, rfl, hcompile, isWellFormed_of_compileWith hcompile⟩

end Template

end Mustache
