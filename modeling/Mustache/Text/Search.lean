/-!
# Searching a Text

Finding a word in a text. Delimiters are found by their first occurrence, and
a text that was already read is kept with its last character first, so that
"ends with this word" looks at the front of a list.

## Main definitions

* `endsWith`: A text ends with a word.
* `justRead`: A text kept last character first ends with a word.
* `cut?`: What stands before and after the first occurrence of a word.
* `pieces`: A text cut at every occurrence of a word.
* `fields`: A text cut at every occurrence of a character.

## Theorems

* `eq_of_cut?`: Cutting loses nothing but the word.
* `length_lt_of_cut?`: What follows a word is shorter than the text.
-/

namespace Mustache

namespace Text

/-- The text ends with `word`. -/
def endsWith (word text : List Char) : Bool :=
  word.isSuffixOf text

/-- The text whose characters are `behind`, last one first, ends with
    `word`. -/
def justRead (word behind : List Char) : Bool :=
  word.reverse.isPrefixOf behind

/-- What stands before and what stands after the first occurrence of
    `word`. -/
def cut? (word : List Char) : List Char → Option (List Char × List Char)
  | [] => if word.isEmpty then some ([], []) else none
  | c :: text =>
    if word.isPrefixOf (c :: text) then some ([], (c :: text).drop word.length)
    else (cut? word text).map fun (front, back) => (c :: front, back)

/-- A cut loses nothing but the word, which stands between the two parts. -/
theorem eq_of_cut? {word text front back : List Char}
    (h : cut? word text = some (front, back)) : text = front ++ word ++ back := by
  induction text generalizing front back with
  | nil =>
      -- Only the empty word is found in an empty text.
      rw [cut?] at h
      split at h
      case isTrue hempty =>
        simp only [Option.some.injEq, Prod.mk.injEq] at h
        rw [← h.1, ← h.2, List.isEmpty_iff.mp hempty, List.nil_append, List.nil_append]
      case isFalse => simp only [reduceCtorEq] at h
  | cons c text ih =>
      rw [cut?] at h
      split at h
      case isTrue hbegins =>
        rcases List.isPrefixOf_iff_prefix.mp hbegins with ⟨rest, hrest⟩
        simp only [Option.some.injEq, Prod.mk.injEq] at h
        rw [← h.1, ← h.2, ← hrest, List.drop_left, List.nil_append]
      case isFalse =>
        rcases Option.map_eq_some_iff.mp h with ⟨⟨first, last⟩, hcut, heq⟩
        simp only [Prod.mk.injEq] at heq
        rw [ih hcut, ← heq.1, ← heq.2, List.cons_append, List.cons_append]

/-- What follows a word is shorter than the text, so cutting at every word comes
    to an end. -/
theorem length_lt_of_cut? {word text front back : List Char} (nonempty : word ≠ [])
    (h : cut? word text = some (front, back)) : back.length < text.length := by
  have hword := List.length_pos_iff.mpr nonempty
  simp only [eq_of_cut? h, List.length_append]
  omega

/-- The text cut at every occurrence of a word, from left to right. -/
def pieces (word : List Char) (nonempty : word ≠ []) (text : List Char) : List (List Char) :=
  match _ : cut? word text with
  | none => [text]
  | some (front, back) => front :: pieces word nonempty back
termination_by text.length
decreasing_by exact length_lt_of_cut? nonempty ‹_›

/-- The parts of a text between the occurrences of a character: the first part
    and the others. -/
def fields (mark : Char) : List Char → List Char × List (List Char)
  | [] => ([], [])
  | c :: text =>
    let (first, others) := fields mark text
    if c = mark then ([], first :: others) else (c :: first, others)

end Text

end Mustache
