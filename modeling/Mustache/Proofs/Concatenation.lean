import Mustache.Proofs.Enclosure
import Mustache.Proofs.Seams

/-!
# Texts Line by Line

Compiling is local to lines. A text that compiles and ends with a line end has
no tag, no comment and no section left open, so what follows it is read as if it
stood alone. The tree of the two texts is made of their trees. Only at the seam
a text may go on, which the one tree holds in one piece and the other two in two
pieces.

## Main definitions

* `Segment.joinTexts`: Segments with texts in a row made one.
* `Segment.shiftAll`, `Failure.shift`: What a text makes that stands further on.

## Theorems

* `Reader.run_seam`: The reader of two texts in a row at the seam.
* `Template.compile_append`: Compiling two texts in a row.
-/

namespace Mustache

open Text

namespace Failure

/-- The failure of a text that stands further on by a number of bytes: the place
    of an error moves along. -/
def shift (count : Nat) (failure : Failure) : Failure :=
  failure.recode id (· + count)

/-- An error moves along, and its cause stays. -/
theorem shift_illFormed (count : Nat) (error : ParseError) :
    (illFormed error).shift count = illFormed ⟨error.cause, error.offset + count⟩ := by
  rw [shift, recode, ParseError.recode_id]

/-- Behind nothing, a failure stays where it is. -/
theorem shift_zero (failure : Failure) : failure.shift 0 = failure := by
  cases failure with
  | illFormed error => exact shift_illFormed 0 error
  | panic panic => rfl

end Failure

namespace Segment

/-- The segments with texts that stand in a row made one text. -/
def joinTexts : List Segment → List Segment
  | [] => []
  | .text front :: segments =>
    match joinTexts segments with
    | .text back :: more => .text (front ++ back) :: more
    | more => .text front :: more
  | segment :: segments => segment :: joinTexts segments

/-- The segments of a text that stands further on by a number of bytes: the
    spans of its sections move along. -/
def shiftAll (count : Nat) (segments : List Segment) : List Segment :=
  recodeAll id (· + count) segments

/-- What stands before segments only meets the first one that is left of
    them. -/
theorem joinTexts_append {back back' : List Segment} (h : joinTexts back = joinTexts back')
    (front : List Segment) : joinTexts (front ++ back) = joinTexts (front ++ back') := by
  induction front with
  | nil => exact h
  | cons segment front ih =>
      -- Only a text looks at what comes after it.
      cases segment with
      | text content => rw [List.cons_append, List.cons_append, joinTexts, joinTexts, ih]
      | _ => exact congrArg (_ :: ·) ih

/-- Two texts in a row are one text. -/
theorem joinTexts_text (front back : String) (segments : List Segment) :
    joinTexts (.text front :: .text back :: segments) =
      joinTexts (.text (front ++ back) :: segments) := by
  rw [joinTexts, joinTexts, joinTexts]
  -- If a third text follows, it is joined to both.
  cases joinTexts segments with
  | nil => rfl
  | cons segment segments =>
      cases segment with
      | text content => simp only [String.append_assoc]
      | _ => rfl

/-- A text in two pieces is the text once they are made one. -/
theorem joinTexts_textSegments (front back : List Char) (segments : List Segment) :
    joinTexts (textSegments (front ++ back) ++ segments) =
      joinTexts (textSegments front ++ (textSegments back ++ segments)) := by
  cases front with
  | nil => rfl
  | cons ch front =>
      cases back with
      | nil => rw [List.append_nil]; rfl
      | cons ch' back =>
          have hjoin := joinTexts_text (String.ofList (ch :: front))
            (String.ofList (ch' :: back)) segments
          rw [← String.ofList_append] at hjoin
          exact hjoin.symm

end Segment

/-- Two texts in a row, of which the first one can be read to its end and ends
    with a line end. The tokens before the seam are those of the first text, and
    a text that goes on over the seam is one token. -/
theorem Reader.run_seam {front back : List Char} {tokens : List Token} {offset : Nat}
    (hrun : (ofText front).run = ⟨tokens, .endOfText offset⟩)
    (hkeeps : (ofText front).KeepsDelimiters) (hline : StartsLine front.reverse)
    (hback : back ≠ []) :
    ∃ (before : List Token) (left right : List Char) (stream : Stream),
      tokens = before ++ textTokens left ∧
      (ofText back).run.recode id (· + byteLength front) = stream.prepend (textTokens right) ∧
      (ofText (front ++ back)).run =
        (stream.prepend (textTokens (left ++ right))).prepend before := by
  rcases exists_path_of_endOfText hrun with ⟨before, buffer, place, hpath, hend, htokens, _⟩
  have hregular := isRegular_ofText front
  have hlast := hregular.path hkeeps hpath
  have hnil := Cursor.nil_of_next? hend
  have htext : place.toText = front := by
    have hplace := toText_of_path hpath
    rw [hplace, ofText, Cursor.toText_ofText]
  have hfirst : StartsLine (ofText front).place.toText.reverse := by
    rwa [ofText, Cursor.toText_ofText]
  -- What follows the first text is read behind it.
  have hbehind : place.trail.reverse ++ place.behind = front.reverse := by
    rw [← htext, Cursor.toText, hnil.1, hnil.2, List.append_nil, List.append_nil,
      List.reverse_append, List.reverse_reverse]
  have hbeyond : (place.extend back).beyond = back := by
    rw [Cursor.extend, hnil.2, List.nil_append]
  -- At the end of the first text, the reader knows no more of it than what is behind.
  have hseam : (Reader.mk (.text buffer) (place.extend back)).run =
      (Reader.mk (.text buffer) ((Cursor.ofText .standard back).under front.reverse)).run :=
    run_eq_under hnil.1 hbehind hbeyond hback hlast.delimiters
  -- The text before the seam cannot go on as an opening delimiter.
  have hopening : ∀ first ∈ buffer.head?, first ∉ Delimiters.standard.opening := by
    refine hlast.not_mem_opening_of_end rfl hnil ?_
    rwa [htext]
  rcases Cursor.run_text_append (c := (Cursor.ofText .standard back).under front.reverse)
      hopening with ⟨right, stream, hright, hboth⟩
  refine ⟨before, buffer.reverse, right, stream, htokens, ?_, ?_⟩
  · have hunder : ((ofText back).under front.reverse).run =
        (ofText back).run.recode id (· + byteLength front.reverse) :=
          run_under hline (Nat.zero_le _)
    rw [byteLength_reverse] at hunder
    rw [← hunder]
    exact hright
  · have hlong : (ofText (front ++ back)).Path before ⟨.text buffer, place.extend back⟩ :=
      hpath.extend hregular hkeeps rfl hend hfirst
    rw [run_of_path hlong, hseam, hboth]

theorem Reader.isWithin_of_mem_run {text : List Char} {token : Token}
    (h : token ∈ (ofText text).run.tokens) : token.IsWithin (byteLength text) := by
  rw [ofText, Cursor.run_eq_stream] at h
  exact Cursor.isWithin_of_mem_stream (Cursor.toText_ofText _ _) h

section

variable {source : List Char} {options : Options}

/-- A text at the end of a run is the last of the segments. -/
theorem Nesting.run_append_textTokens {tokens : List Token} {text : List Char}
    {segments : List Segment}
    (h : empty.run source options (tokens ++ textTokens text) = .ok ⟨[], segments⟩) :
    ∃ before, empty.run source options tokens = .ok ⟨[], before⟩ ∧
      segments = before ++ textSegments text := by
  rw [run_append] at h
  cases hrun : empty.run source options tokens with
  | error error =>
      rw [hrun] at h
      simp only [reduceCtorEq] at h
  | ok last =>
      rw [hrun] at h
      dsimp only at h
      rw [run_textTokens, Except.ok.injEq, add, Nesting.mk.injEq] at h
      rcases last with ⟨frames, before⟩
      dsimp only at h
      exact ⟨before, by rw [h.1], h.2.symm⟩

theorem Stream.assemble_prepend_text_empty (stream : Stream) (text : List Char) :
    (stream.prepend (textTokens text)).assemble source options .empty =
      match stream.assemble source options .empty with
      | .error error => .error error
      | .ok more => .ok (textSegments text ++ more) := by
  have htext : (Nesting.empty.add (textSegments text)) = ⟨[], textSegments text⟩ := rfl
  rw [assemble_prepend, Nesting.run_textTokens, htext]
  exact assemble_onto stream (textSegments text)

end

namespace Template

/-- A text compiles exactly if its stream ends with it and its tokens leave no
    section open. -/
theorem run_of_compile {source : String} {options : Options} {template : Template}
    (h : compile source options = .ok template) :
    ∃ tokens offset, (Reader.ofText source.toList).run = ⟨tokens, .endOfText offset⟩ ∧
      Nesting.empty.run source.toList options tokens = .ok ⟨[], template.segments⟩ := by
  rcases run_of_compileWith h with ⟨⟨offset, hend⟩, hrun⟩
  refine ⟨_, offset, ?_, hrun⟩
  rw [← stream_eq_run, stream, ← hend]

theorem compile_empty (options : Options) : compile "" options = .ok ⟨[]⟩ := by
  have hrun : (Reader.ofText "".toList).run = ⟨[], .endOfText 0⟩ := Reader.run_of_none rfl
  rw [compile_eq_assemble, stream_eq_run, hrun]
  rfl

/-- The tokens of a text do the same when more text follows it. -/
theorem run_extend {front : List Char} {options : Options} {tokens : List Token}
    {segments : List Segment} (back : List Char)
    (hrun : Nesting.empty.run front options tokens = .ok ⟨[], segments⟩)
    (htokens : ∀ token ∈ tokens, token.IsWithin (byteLength front)) :
    Nesting.empty.run (front ++ back) options tokens = .ok ⟨[], segments⟩ := by
  have hrecodes : Recodes id id front (front ++ back) := recodes_shift [] front back
  -- No offset is changed, and the longer text has the same parts at them.
  have hextend := Nesting.run_recode options hrecodes .empty tokens nofun htokens
  have hsame : tokens.map (Token.recode id id) = tokens := by
    rw [funext Token.recode_id]
    exact List.map_id tokens
  have hempty : Nesting.empty.recode id id = .empty := rfl
  rw [hsame, hempty, hrun] at hextend
  have hsegments : (Nesting.mk [] segments).recode id id = ⟨[], segments⟩ :=
    congrArg (Nesting.mk []) (Segment.recodeAll_id segments)
  rw [hextend]
  exact congrArg Except.ok hsegments

/-- What a text stands for behind another one, with its offsets moved along. -/
theorem assemble_under {d : Delimiters} {front back right : List Char} {stream : Stream}
    (options : Options) (h : (Reader.mk (.text []) (Cursor.ofText d back)).run.recode id
      (· + byteLength front) = stream.prepend (textTokens right)) :
    (stream.prepend (textTokens right)).assemble (front ++ back) options .empty =
      match (Reader.mk (.text []) (Cursor.ofText d back)).run.assemble back options .empty with
      | .error failure => .error (failure.shift (byteLength front))
      | .ok segments => .ok (Segment.shiftAll (byteLength front) segments) := by
  have hrecodes := recodes_shift front back []
  rw [List.append_nil] at hrecodes
  have hempty : Nesting.empty.recode id (· + byteLength front) = .empty := rfl
  -- Only offsets within the second text move along.
  have hwithin : ∀ token ∈ (Reader.mk (.text []) (Cursor.ofText d back)).run.tokens,
      token.IsWithin (byteLength back) := by
    intro token hmem
    rw [Cursor.run_eq_stream] at hmem
    exact Cursor.isWithin_of_mem_stream (Cursor.toText_ofText _ _) hmem
  have hassemble := Stream.assemble_recode options hrecodes .empty _ nofun hwithin
  rw [hempty, h] at hassemble
  rw [hassemble]
  cases (Reader.mk (.text []) (Cursor.ofText d back)).run.assemble back options .empty with
  | error failure => rfl
  | ok segments => rfl

/-- What comes after the text at a seam is made of what the second text stands for.
    It fails if that fails, with the offsets moved along, and has the segments that
    stand behind the text otherwise. -/
theorem assemble_after {d : Delimiters} {front back right : List Char} {stream : Stream}
    (options : Options) (h : (Reader.mk (.text []) (Cursor.ofText d back)).run.recode id
      (· + byteLength front) = stream.prepend (textTokens right)) :
    (∀ failure, (Reader.mk (.text []) (Cursor.ofText d back)).run.assemble back options .empty =
        .error failure →
      stream.assemble (front ++ back) options .empty =
        .error (failure.shift (byteLength front))) ∧
    ∀ segments, (Reader.mk (.text []) (Cursor.ofText d back)).run.assemble back options .empty =
        .ok segments →
      ∃ more, stream.assemble (front ++ back) options .empty = .ok more ∧
        Segment.shiftAll (byteLength front) segments = textSegments right ++ more := by
  have hunder := assemble_under options h
  rw [Stream.assemble_prepend_text_empty] at hunder
  refine ⟨fun failure hfailure => ?_, fun segments hsegments => ?_⟩
  · rw [hfailure] at hunder
    cases hstream : stream.assemble (front ++ back) options .empty with
    | error failure' =>
        rw [hstream] at hunder
        exact hunder
    | ok more =>
        rw [hstream] at hunder
        simp only [reduceCtorEq] at hunder
  · rw [hsegments] at hunder
    cases hstream : stream.assemble (front ++ back) options .empty with
    | error failure =>
        rw [hstream] at hunder
        simp only [reduceCtorEq] at hunder
    | ok more =>
        rw [hstream] at hunder
        exact ⟨more, rfl, (Except.ok.inj hunder).symm⟩

/-- The tokens of the first text are made to segments before the ones after the
    seam. -/
theorem compile_of_seam {front back : String} {options : Options} {before : List Token}
    {text : List Char} {stream : Stream} {segments : List Segment}
    (hbefore : Nesting.empty.run front.toList options before = .ok ⟨[], segments⟩)
    (hwithin : ∀ token ∈ before, token.IsWithin (byteLength front.toList))
    (hwhole : (Reader.ofText (front.toList ++ back.toList)).run =
      (stream.prepend (textTokens text)).prepend before) :
    compile (front ++ back) options =
      match stream.assemble (front.toList ++ back.toList) options .empty with
      | .error failure => .error failure
      | .ok more => .ok ⟨segments ++ (textSegments text ++ more)⟩ := by
  rw [compile_eq_assemble, stream_eq_run, String.toList_append, hwhole, Stream.assemble_prepend,
    run_extend back.toList hbefore hwithin]
  dsimp only
  rw [Stream.assemble_onto, Stream.assemble_prepend_text_empty]
  cases stream.assemble (front.toList ++ back.toList) options .empty with
  | error failure => rfl
  | ok more => rfl

/-- Compiling is local to lines. After a text that compiles, has no delimiter tag
    and is empty or ends with a line end, any other text is compiled as it is
    alone: the segments of both stand in a row, with the spans of the second
    text moved along and the texts at the seam made one, an error of the second
    text is found at the same place of it, and where compiling the second text
    breaks off, it does so for both. -/
theorem compile_append {front : String} {options : Options} {template : Template} (back : String)
    (hcompile : compile front options = .ok template) (hkeeps : KeepsDelimiters front)
    (hline : front = "" ∨ front.toList.getLast? = some '\n') :
    match compile back options with
    | .ok more => ∃ whole, compile (front ++ back) options = .ok whole ∧
        Segment.joinTexts whole.segments = Segment.joinTexts
          (template.segments ++ Segment.shiftAll (byteLength front.toList) more.segments)
    | .error (.illFormed error) => compile (front ++ back) options =
        .error (.illFormed ⟨error.cause, error.offset + byteLength front.toList⟩)
    | .error (.panic panic) => compile (front ++ back) options = .error (.panic panic) := by
  have hstarts : StartsLine front.toList.reverse := by
    intro first hfirst
    rw [List.head?_reverse] at hfirst
    rcases hline with rfl | hlast
    · exact absurd hfirst nofun
    · rw [hlast] at hfirst
      exact (Option.some.inj hfirst).symm
  by_cases hempty : back.toList = []
  · -- Nothing follows the first text.
    have hback : back = "" := by rw [← String.ofList_toList (s := back), hempty]
    rw [hback, compile_empty, String.append_empty]
    refine ⟨template, hcompile, ?_⟩
    have hnone : Segment.shiftAll (byteLength front.toList) [] = [] := rfl
    rw [hnone, List.append_nil]
  · rcases run_of_compile hcompile with ⟨tokens, offset, hrun, htokens⟩
    rcases Reader.run_seam hrun hkeeps hstarts hempty with
      ⟨before, left, right, stream, rfl, hright, hwhole⟩
    rcases Nesting.run_append_textTokens htokens with ⟨segments, hbefore, hsegments⟩
    have hwithin : ∀ token ∈ before, token.IsWithin (byteLength front.toList) := by
      intro token hmem
      refine Reader.isWithin_of_mem_run ?_
      rw [hrun]
      exact List.mem_append_left _ hmem
    rcases assemble_after options hright with ⟨hfails, hmade⟩
    have hcompiled : compile back options =
        ((Reader.ofText back.toList).run.assemble back.toList options .empty).map mk := by
      rw [compile_eq_assemble, stream_eq_run]
    -- Both sides are made of what the tokens after the seam stand for.
    rw [hcompiled, compile_of_seam hbefore hwithin hwhole]
    cases hresult : (Reader.ofText back.toList).run.assemble back.toList options .empty with
    | error failure =>
        rw [hfails failure hresult]
        -- Only an error tells a place.
        cases failure with
        | illFormed error =>
            rw [Failure.shift_illFormed]
            rfl
        | panic panic => rfl
    | ok result =>
        rcases hmade result hresult with ⟨more, hmore, hshift⟩
        rw [hmore]
        refine ⟨_, rfl, ?_⟩
        dsimp only
        rw [hsegments, hshift, List.append_assoc]
        exact Segment.joinTexts_append (Segment.joinTexts_textSegments left right more) segments

/-- A section on lines of its own, with a text behind it that goes on in the
    second text, whose section moves along. -/
theorem compile_append_sections :
    compile "\x7b\x7b#a\x7d\x7d\nx\n\x7b\x7b/a\x7d\x7d\np\n" =
        .ok ⟨[.sect ⟨"a", false, .standard, ⟨7, 9⟩, "x\n"⟩ [.text "x\n"], .text "p\n"]⟩ ∧
      ∃ whole, compile ("\x7b\x7b#a\x7d\x7d\nx\n\x7b\x7b/a\x7d\x7d\np\n" ++
          "q\x7b\x7b#b\x7d\x7dy\x7b\x7b/b\x7d\x7d") = .ok whole ∧
        Segment.joinTexts whole.segments =
          [.sect ⟨"a", false, .standard, ⟨7, 9⟩, "x\n"⟩ [.text "x\n"], .text "p\nq",
            .sect ⟨"b", false, .standard, ⟨25, 26⟩, "y"⟩ [.text "y"]] := by
  have hfront : compile "\x7b\x7b#a\x7d\x7d\nx\n\x7b\x7b/a\x7d\x7d\np\n" =
      .ok ⟨[.sect ⟨"a", false, .standard, ⟨7, 9⟩, "x\n"⟩ [.text "x\n"], .text "p\n"]⟩ := by
    with_unfolding_all rfl
  have hback : compile "q\x7b\x7b#b\x7d\x7dy\x7b\x7b/b\x7d\x7d" =
      .ok ⟨[.text "q", .sect ⟨"b", false, .standard, ⟨7, 8⟩, "y"⟩ [.text "y"]]⟩ := by
    with_unfolding_all rfl
  have hkeeps : KeepsDelimiters "\x7b\x7b#a\x7d\x7d\nx\n\x7b\x7b/a\x7d\x7d\np\n" :=
    Reader.keepsDelimiters_of_not_mem (by decide)
  have hwhole := compile_append "q\x7b\x7b#b\x7d\x7dy\x7b\x7b/b\x7d\x7d" hfront hkeeps
    (Or.inr (by decide))
  rw [hback] at hwhole
  rcases hwhole with ⟨whole, hcompile, hjoin⟩
  exact ⟨hfront, whole, hcompile, hjoin⟩

end Template

end Mustache
