import Mustache.Text.Blank

/-!
# Delimiters

The pair of words that encloses every tag. A template starts with `{{` and
`}}`, and a delimiter tag replaces them by two other words for the rest of the
text.

What may serve as a delimiter is part of the type, so a reader never meets an
empty delimiter, and a delimiter tag can always be written for the pair in
force.

## Main definitions

* `IsDelimiter`: A word that may enclose tags.
* `Delimiters`: An opening and a closing delimiter.
* `Delimiters.standard`: The pair every template starts with.
* `Delimiters.ofWords?`, `Delimiters.ofBody?`: The pair that words, or the body of
  a delimiter tag, name.

## Theorems

* `isDelimiter_of_mem_words`: The words of a text without an equals sign may
  serve as delimiters.
* `Delimiters.ofBody?_eq_some_iff`: When a body names a pair.
-/

namespace Mustache

open Text

/-- A delimiter is not empty and holds neither a blank nor an equals sign. -/
def IsDelimiter (word : List Char) : Prop :=
  word ≠ [] ∧ ∀ c ∈ word, isBlank c = false ∧ c ≠ '='

/-- A word of a text is not empty and holds no blank, so all that could be wrong
    with it is an equals sign. -/
theorem isDelimiter_of_mem_words {text : List Char} (h : '=' ∉ text) :
    ∀ word ∈ words text, IsDelimiter word := by
  intro word hword
  refine ⟨ne_nil_of_mem_words hword, fun c hc => ⟨(of_mem_words hword hc).2, ?_⟩⟩
  rintro rfl
  exact h (of_mem_words hword hc).1

/-- The words before and after the content of a tag. -/
structure Delimiters where
  opening : List Char
  closing : List Char
  opening_isDelimiter : IsDelimiter opening
  closing_isDelimiter : IsDelimiter closing
deriving DecidableEq

namespace Delimiters

/-- Two braces on either side. -/
def standard : Delimiters where
  opening := ['{', '{']
  closing := ['}', '}']
  opening_isDelimiter := by simp [IsDelimiter, isBlank, blankRanges]
  closing_isDelimiter := by simp [IsDelimiter, isBlank, blankRanges]

/-- The pair that two words make. -/
def ofWords? : (found : List (List Char)) → (∀ word ∈ found, IsDelimiter word) → Option Delimiters
  | [opening, closing], h =>
    some ⟨opening, closing, h opening List.mem_cons_self,
      h closing (List.mem_cons_of_mem opening List.mem_cons_self)⟩
  | _, _ => none

/-- The body of a delimiter tag names a pair when it has no equals sign and is
    two words with blanks between them. -/
def ofBody? (body : List Char) : Option Delimiters :=
  if h : '=' ∈ body then none else ofWords? (words body) (isDelimiter_of_mem_words h)

/-- Two words make a pair, and it is the pair of these words. -/
theorem ofWords?_eq_some_iff {found : List (List Char)} (h : ∀ word ∈ found, IsDelimiter word)
    {d : Delimiters} : ofWords? found h = some d ↔ found = [d.opening, d.closing] := by
  match found with
  | [] | [_] | _ :: _ :: _ :: _ => simp only [ofWords?, reduceCtorEq, List.cons.injEq, and_false]
  | [opening, closing] =>
    rw [ofWords?, Option.some.injEq, Delimiters.mk.injEq, List.cons.injEq, List.cons.injEq]
    simp only [and_true]

/-- A body names a pair when no equals sign is in it and its words are the two of
    the pair. -/
theorem ofBody?_eq_some_iff {body : List Char} {d : Delimiters} :
    ofBody? body = some d ↔ '=' ∉ body ∧ words body = [d.opening, d.closing] := by
  unfold ofBody?
  split
  case isTrue h => simp only [reduceCtorEq, h, not_true_eq_false, false_and]
  case isFalse h => simp only [ofWords?_eq_some_iff, h, not_false_eq_true, true_and]

/-- A tag is opened by something that can be searched for. -/
theorem opening_ne_nil (d : Delimiters) : d.opening ≠ [] :=
  d.opening_isDelimiter.1

/-- And so it is closed. -/
theorem closing_ne_nil (d : Delimiters) : d.closing ≠ [] :=
  d.closing_isDelimiter.1

end Delimiters

end Mustache
