import Mustache.Delimiters
import Mustache.Text.Search

/-!
# Standalone Lines

A template is read one line at a time, where a line end inside a comment does
not end the line. A line is standalone when it holds only tags that show
nothing themselves, one directly after the other, and blanks around them. The
blanks and the line end of such a line are no part of the template's text: the
line is trimmed to its tags.

Whether a line is standalone is decided before its tags are read, from the
delimiters in force at its start. The decision looks only at the sigil of each
tag and at the first closing delimiter after it.

## Main definitions

* `takeLine`: The first line of a text, and what follows it.
* `startsTag`: A text begins with a tag that shows nothing itself.
* `tagRun?`: The tags that directly follow one another.
* `onlyTags?`: The tags of a text that holds nothing else but trailing blanks.
* `Line`: A line and what trimming takes away at either end.
* `Line.ofText`: The trimmed line.

## Theorems

* `takeLine_append`: Taking a line loses nothing.
* `tagRun?_append`, `onlyTags?_append`: Nor does looking for tags.
* `Line.toText_ofText`: Trimming moves characters aside but keeps them.
-/

namespace Mustache

open Text

/-- The sigils of the tags that show nothing where they stand. -/
def silentSigils : List Char :=
  ['#', '^', '/', '>', '=', '!', '$', '<', '*']

/-- The first line of `text`, with its line end, and what follows it. The text
    before it is `behind`, last character first; a comment opens when what was
    passed ends with the opening delimiter and `!`, and closes when it ends
    with the closing delimiter. -/
def takeLine (d : Delimiters) (inComment : Bool) (behind : List Char) :
    List Char → List Char × List Char
  | [] => ([], [])
  | c :: text =>
    let behind := c :: behind
    let inComment :=
      (inComment || justRead (d.opening ++ ['!']) behind) && !justRead d.closing behind
    if !inComment && c == '\n' then ([c], text)
    else
      let (line, rest) := takeLine d inComment behind text
      (c :: line, rest)

/-- The line and what follows it are the text. -/
theorem takeLine_append (d : Delimiters) (inComment : Bool) (behind text : List Char) :
    (takeLine d inComment behind text).1 ++ (takeLine d inComment behind text).2 = text := by
  induction text generalizing inComment behind with
  | nil => rfl
  | cons c text ih =>
      simp only [takeLine]
      split
      · rfl
      · simp only [List.cons_append, ih]

/-- The text begins with an opening delimiter and, blanks aside, one of the
    silent sigils. -/
def startsTag (d : Delimiters) (text : List Char) : Bool :=
  d.opening.isPrefixOf text &&
    match trimStart (text.drop d.opening.length) with
    | [] => false
    | sigil :: _ => silentSigils.contains sigil

/-- The text up to the first closing delimiter, and on to the next one for as
    long as another silent tag starts right there, together with the text that
    follows. -/
def tagRun? (d : Delimiters) (text : List Char) : Option (List Char × List Char) :=
  match _ : cut? d.closing text with
  | none => none
  | some (content, rest) =>
    if startsTag d rest then
      (tagRun? d rest).map fun (tags, rest) => (content ++ d.closing ++ tags, rest)
    else some (content ++ d.closing, rest)
termination_by text.length
decreasing_by exact length_lt_of_cut? d.closing_ne_nil ‹_›

/-- A run of tags and what follows it are the text. -/
theorem tagRun?_append {d : Delimiters} {text tags rest : List Char}
    (h : tagRun? d text = some (tags, rest)) : tags ++ rest = text := by
  fun_induction tagRun? d text generalizing tags rest with
  | case1 => simp only [reduceCtorEq] at h
  | case2 text content back hcut hstart ih =>
      -- Another tag starts right behind this one, and the run goes on with it.
      rcases Option.map_eq_some_iff.mp h with ⟨⟨more, last⟩, hmore, heq⟩
      simp only [Prod.mk.injEq] at heq
      rw [eq_of_cut? hcut, ← ih hmore, ← heq.1, ← heq.2, List.append_assoc _ more]
  | case3 text content back hcut =>
      simp only [Option.some.injEq, Prod.mk.injEq] at h
      rw [eq_of_cut? hcut, ← h.1, ← h.2]

/-- The silent tags a text consists of, and the blanks after them, if that is
    all there is. -/
def onlyTags? (d : Delimiters) (text : List Char) : Option (List Char × List Char) :=
  if startsTag d text then
    match tagRun? d (text.drop d.opening.length) with
    | some (tags, trail) => if trail.all isBlank then some (d.opening ++ tags, trail) else none
    | none => none
  else none

/-- The tags of a text that holds nothing else, and the blanks after them, are the
    text. -/
theorem onlyTags?_append {d : Delimiters} {text tags trail : List Char}
    (h : onlyTags? d text = some (tags, trail)) : tags ++ trail = text := by
  simp only [onlyTags?] at h
  split at h
  case isFalse => simp only [reduceCtorEq] at h
  case isTrue hstart =>
    split at h
    case h_2 => simp only [reduceCtorEq] at h
    case h_1 run blanks hrun =>
      split at h
      case isFalse => simp only [reduceCtorEq] at h
      case isTrue =>
        simp only [Option.some.injEq, Prod.mk.injEq] at h
        simp only [startsTag, Bool.and_eq_true] at hstart
        rw [← h.1, ← h.2, List.append_assoc, tagRun?_append hrun]
        -- The run was looked for behind the opening delimiter.
        exact List.prefix_iff_eq_append.mp (List.isPrefixOf_iff_prefix.mp hstart.1)

/-- A line in three parts: what trimming takes away before its text, the text,
    and what trimming takes away after it. -/
structure Line where
  lead : List Char
  text : List Char
  trail : List Char

namespace Line

/-- A line that is trimmed to its tags when it is standalone, and left whole
    otherwise. -/
def ofText (d : Delimiters) (text : List Char) : Line :=
  match onlyTags? d (trimStart text) with
  | some (tags, trail) => ⟨text.takeWhile isBlank, tags, trail⟩
  | none => ⟨[], text, []⟩

/-- The whole line. -/
def toText (line : Line) : List Char :=
  line.lead ++ line.text ++ line.trail

/-- Trimming moves characters aside but keeps them. -/
theorem toText_ofText (d : Delimiters) (text : List Char) : (ofText d text).toText = text := by
  simp only [ofText]
  split
  case h_1 tags trail h =>
    simp only [toText, List.append_assoc, onlyTags?_append h, takeWhile_append_trimStart]
  case h_2 => simp only [toText, List.nil_append, List.append_nil]

end Line

end Mustache
