import Mustache.Proofs.Indentation

/-!
# Lines of a Text

What indenting does to the lines of one text. Indenting goes through a text
character by character and carries a flag along, which says nothing of lines.
Here it is told line by line: the text is cut at its line ends, each line that
begins in it gets the indent, and the lines are joined again. Only an empty line
at the end gets none, since it belongs to whatever comes next.

Two laws follow that a template relies on. A text may be cut anywhere, as a
comment or a delimiter tag inside of it does, and its parts are indented to the
same lines. And a text that is indented may be indented again, as it is where
one partial stands inside of another: the indents add up, the outer one first.

## Main definitions

* `Text.indentEach`: Lines with the indent before them.

## Theorems

* `Text.indentLines_eq_intercalate`: A text is indented line by line.
* `Text.indentLines_indentLines`: Two indents are one.
* `renderSegments_cut`: A text that is cut in two shows the same.
* `renderSegment_text_indents_lines`: The laws of a text in a template.
-/

namespace Mustache

namespace Text

/-- Lines with the indent before each one that begins in the text. The first
    line does if `newLine` says so, and all others do. The last line gets no
    indent if it is empty. -/
def indentEach (indent : List Char) (newLine : Bool) (lines : List (List Char)) :
    List (List Char) :=
  lines.mapIdx fun i line =>
    if (newLine = true ∨ 0 < i) ∧ (i + 1 < lines.length ∨ line ≠ []) then indent ++ line else line

section

variable (indent : List Char)

/-- With one line before them, all the other lines begin in the text. -/
theorem indentEach_cons (newLine : Bool) (line next : List Char) (lines : List (List Char)) :
    indentEach indent newLine (line :: next :: lines) =
      (if newLine then indent ++ line else line) :: indentEach indent true (next :: lines) := by
  rw [indentEach, indentEach, List.mapIdx_cons]
  simp only [Nat.lt_irrefl, or_false, List.length_cons, Nat.zero_add, Nat.lt_add_left_iff_pos,
    Nat.succ_pos, true_or, and_true, or_true, true_and, Nat.add_lt_add_iff_right]

/-- A single line gets the indent if it begins in the text and is not empty. -/
theorem indentEach_singleton (newLine : Bool) (line : List Char) :
    indentEach indent newLine [line] =
      [if newLine = true ∧ line ≠ [] then indent ++ line else line] := by
  rw [indentEach, List.mapIdx_cons, List.mapIdx_nil]
  simp only [Nat.lt_irrefl, or_false, List.length_cons, List.length_nil, false_or]

/-- The first character of the first line comes after its indent. -/
theorem intercalate_indentEach_cons (newLine : Bool) (ch : Char) (line : List Char)
    (lines : List (List Char)) :
    ['\n'].intercalate (indentEach indent newLine ((ch :: line) :: lines)) =
      (if newLine then indent else []) ++
        ch :: ['\n'].intercalate (indentEach indent false (line :: lines)) := by
  -- A line with one more character is not empty, so it gets the indent wherever it
  -- stands. The other lines are as before.
  cases lines with
  | nil =>
      rw [indentEach_singleton, indentEach_singleton, List.intercalate_singleton,
        List.intercalate_singleton]
      cases newLine with
      | true => simp only [ne_eq, reduceCtorEq, not_false_eq_true, and_self, if_true,
          Bool.false_eq_true, false_and, if_false]
      | false => simp only [Bool.false_eq_true, false_and, if_false, List.nil_append]
  | cons next lines =>
      rw [indentEach_cons, indentEach_cons]
      -- There is one more line, so a line end comes after the first one.
      cases hnext : indentEach indent true (next :: lines) with
      | nil => exact absurd hnext (by rw [indentEach, List.mapIdx_cons]; exact List.cons_ne_nil _ _)
      | cons first others =>
          rw [List.intercalate_cons_cons, List.intercalate_cons_cons]
          cases newLine with
          | true => simp only [if_true, Bool.false_eq_true, if_false, List.append_assoc,
              List.cons_append]
          | false => simp only [Bool.false_eq_true, if_false, List.nil_append, List.cons_append]

/-- A text is indented line by line. -/
theorem indentChars_eq_intercalate (newLine : Bool) (text : List Char) :
    indentChars indent newLine text =
      ['\n'].intercalate (indentEach indent newLine (text.splitOn '\n')) := by
  -- Character by character: each one ends the first line or belongs to it.
  induction text generalizing newLine with
  | nil =>
      rw [List.splitOn_nil, indentEach_singleton, if_neg (fun h => h.2 rfl)]
      rfl
  | cons ch text ih =>
      rw [indentChars, ih, List.splitOn_cons_eq_if_modifyHead]
      cases hlines : text.splitOn '\n' with
      | nil => exact absurd hlines (List.splitOn_ne_nil _ _)
      | cons line lines =>
          by_cases hend : ch = '\n'
          · -- The first line ends here, and it is empty.
            rw [if_pos (beq_iff_eq.mpr hend), indentEach_cons, hend]
            cases hline : indentEach indent true (line :: lines) with
            | nil =>
                exact absurd hline (by
                  rw [indentEach, List.mapIdx_cons]
                  exact List.cons_ne_nil _ _)
            | cons first others =>
                rw [List.intercalate_cons_cons]
                simp only [List.append_nil, List.append_assoc, List.singleton_append,
                  beq_self_eq_true, hline]
          · rw [if_neg (fun h => hend (beq_iff_eq.mp h)), List.modifyHead_cons,
              intercalate_indentEach_cons, beq_eq_false_iff_ne.mpr hend]

end

/-- A text is cut at its line ends, indented line by line and joined again. -/
theorem indentLines_eq_intercalate (indent : String) (newLine : Bool) (text : String) :
    indentLines indent newLine text =
      String.ofList (['\n'].intercalate
        (indentEach indent.toList newLine (text.toList.splitOn '\n'))) := by
  rw [indentLines, indentChars_eq_intercalate]

-- An empty line in the middle gets the indent, and an empty one at the end does not.
example : indentLines "> " false "a\n\nb\n" = "a\n> \n> b\n" := by decide +kernel

/-- In an indent without a line end no further line begins. -/
theorem indentChars_append_cons (outer : List Char) {inner : List Char} (h : '\n' ∉ inner)
    (newLine : Bool) (ch : Char) (text : List Char) :
    indentChars outer newLine (inner ++ ch :: text) =
      (if newLine then outer else []) ++ inner ++ ch :: indentChars outer (ch == '\n') text := by
  induction inner generalizing newLine with
  | nil => rw [List.nil_append, indentChars, List.append_nil]
  | cons first inner ih =>
      have hfirst : (first == '\n') = false :=
        beq_eq_false_iff_ne.mpr fun heq => h (heq ▸ List.mem_cons_self)
      rw [List.cons_append, indentChars, hfirst, ih fun hmem => h (List.mem_cons_of_mem _ hmem)]
      simp only [Bool.false_eq_true, if_false, List.nil_append, List.append_assoc, List.cons_append]

/-- Characters that are indented twice are indented once by both indents. -/
theorem indentChars_indentChars (outer : List Char) {inner : List Char} (h : '\n' ∉ inner)
    (newLine : Bool) (text : List Char) :
    indentChars outer newLine (indentChars inner newLine text) =
      indentChars (outer ++ inner) newLine text := by
  induction text generalizing newLine with
  | nil => rfl
  | cons ch text ih =>
      rw [indentChars, indentChars]
      -- The outer indent is put before the inner one, which begins no line of its own.
      cases newLine with
      | true => rw [if_pos rfl, if_pos rfl, indentChars_append_cons outer h, if_pos rfl, ih]
      | false =>
          rw [if_neg Bool.false_ne_true, if_neg Bool.false_ne_true, List.nil_append, indentChars,
            if_neg Bool.false_ne_true, ih]

/-- A text that is indented twice is indented once by both indents, the outer one
    first. -/
theorem indentLines_indentLines (outer : String) {inner : String} (h : '\n' ∉ inner.toList)
    (newLine : Bool) (text : String) :
    indentLines outer newLine (indentLines inner newLine text) =
      indentLines (outer ++ inner) newLine text := by
  rw [indentLines, indentLines, indentLines, String.toList_ofList, indentChars_indentChars _ h,
    String.toList_append]

end Text

open Text

variable {σ ρ : Type}

section

variable (env : Environment σ ρ)

/-- A text shows its lines with the indent before them. -/
theorem renderSegment_text (content : String) (place : Place σ) :
    renderSegment env (.text content) place =
      pure (some (indentLines place.indent place.newLine content)) := by
  rw [renderSegment]

/-- What comes after the first segments is rendered at a place that they lead
    to. -/
theorem renderSegments_append_congr {rest rest' : List Segment}
    (h : ∀ place, renderSegments env rest place = renderSegments env rest' place)
    (segments : List Segment) (place : Place σ) :
    renderSegments env (segments ++ rest) place = renderSegments env (segments ++ rest') place := by
  induction segments generalizing place with
  | nil => exact h place
  | cons segment segments ih =>
      rw [List.cons_append, List.cons_append, renderSegments, renderSegments]
      refine bind_congr fun shown => ?_
      -- A segment leads to the same place on both sides, or shows nothing at all.
      cases shown with
      | none => exact ih place
      | some text => exact congrArg (· >>= _) (ih (place.after text))

/-- A text that is cut in two shows the same, whatever stands around it. Neither
    part may be empty, since an empty text would have the next one begin no line. -/
theorem renderSegments_cut {first second : String} (hfirst : first ≠ "") (hsecond : second ≠ "")
    (before after : List Segment) (place : Place σ) :
    renderSegments env (before ++ .text (first ++ second) :: after) place =
      renderSegments env (before ++ .text first :: .text second :: after) place := by
  refine renderSegments_append_congr env (fun place => ?_) before place
  have hfirst' : first.isEmpty = false :=
    Bool.eq_false_iff.mpr fun h => hfirst (String.isEmpty_iff.mp h)
  have hsecond' : second.isEmpty = false :=
    Bool.eq_false_iff.mpr fun h => hsecond (String.isEmpty_iff.mp h)
  -- Both leave the flag as the second part does.
  have hplace : place.after (indentLines place.indent place.newLine (first ++ second)) =
      place.after second := by
    rw [Place.after, endsLine_indentLines, endsLine_append, hsecond', if_neg Bool.false_ne_true,
      Place.after]
  simp only [renderSegments, renderSegment_text, pure_bind, bind_assoc, hplace]
  simp only [Place.after, endsLine_indentLines, indentLines_append, beginsAfter, hfirst',
    Bool.false_eq_true, if_false, String.append_assoc]

end

/-- What a text of a template shows is made line by line. It is what its parts show
    one after the other, the second with a flag that says whether the first ends a
    line; so a text that is cut inside of a template shows the same. And what an
    indented text shows, shown once more with another indent around it, is the text
    with both indents, the outer one first. -/
theorem renderSegment_text_indents_lines (env : Environment σ ρ) (place : Place σ)
    (state : Host σ × ρ) :
    (∀ content : String,
      renderSegment env (.text content) place state =
        (.ok (some (String.ofList (['\n'].intercalate
          (indentEach place.indent.toList place.newLine (content.toList.splitOn '\n'))))),
          state)) ∧
    (∀ first second : String, first ≠ "" →
      (∃ shown shown',
        renderSegment env (.text first) place state = (.ok (some shown), state) ∧
        renderSegment env (.text second) { place with newLine := endsLine first } state =
          (.ok (some shown'), state) ∧
        renderSegment env (.text (first ++ second)) place state =
          (.ok (some (shown ++ shown')), state)) ∧
      (second ≠ "" → ∀ before after : List Segment,
        renderSegments env (before ++ .text (first ++ second) :: after) place state =
          renderSegments env (before ++ .text first :: .text second :: after) place state)) ∧
    ∀ content inner : String, '\n' ∉ inner.toList →
      ∃ shown,
        renderSegment env (.text content) { place with indent := inner } state =
          (.ok (some shown), state) ∧
        renderSegment env (.text shown) place state =
          renderSegment env (.text content) (place.indented inner) state := by
  refine ⟨?_, ?_, ?_⟩
  · intro content
    rw [renderSegment_text, indentLines_eq_intercalate]
    rfl
  · intro first second hfirst
    have hempty : first.isEmpty = false :=
      Bool.eq_false_iff.mpr fun h => hfirst (String.isEmpty_iff.mp h)
    refine ⟨⟨indentLines place.indent place.newLine first,
      indentLines place.indent (endsLine first) second, ?_, ?_, ?_⟩, ?_⟩
    · rw [renderSegment_text]
      rfl
    · rw [renderSegment_text]
      rfl
    · rw [renderSegment_text, indentLines_append, beginsAfter, hempty, if_neg Bool.false_ne_true]
      rfl
    · intro hsecond before after
      rw [renderSegments_cut env hfirst hsecond]
  · intro content inner hinner
    refine ⟨indentLines inner place.newLine content, ?_, ?_⟩
    · rw [renderSegment_text]
      rfl
    · rw [renderSegment_text, renderSegment_text, indentLines_indentLines _ hinner]
      rfl

end Mustache
