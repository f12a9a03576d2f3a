/-!
# Blank Characters

Which characters count as blank, and what is done with them at the edges of a
text. A template treats every character with the Unicode property
`White_Space` as blank: around names, between the two words of a delimiter
tag, and on the lines that hold nothing but tags.

Texts are lists of characters here and in the modules that read templates, so
that each function is a recursion on the text itself.

## Main definitions

* `blankRanges`: The code points with the property `White_Space`.
* `isBlank`: A character is blank.
* `trimStart`, `trimEnd`, `trim`: A text without the blanks at its edges.
* `words`: The longest runs of characters that are not blank.

## Theorems

* `takeWhile_append_trimStart`: Trimming takes away the leading blanks only.
* `dropWhile_isBlank_of_head?`: Without a leading blank nothing is taken away.
* `ne_nil_of_mem_words`, `of_mem_words`: A word is not empty and holds no
  blanks.
-/

namespace Mustache

namespace Text

/-- The code points with the property `White_Space`, as ranges with both ends
    included. -/
def blankRanges : List (Nat × Nat) :=
  [(0x09, 0x0D), (0x20, 0x20), (0x85, 0x85), (0xA0, 0xA0), (0x1680, 0x1680),
   (0x2000, 0x200A), (0x2028, 0x2029), (0x202F, 0x202F), (0x205F, 0x205F),
   (0x3000, 0x3000)]

/-- A character is blank when its code point lies in one of `blankRanges`. -/
def isBlank (c : Char) : Bool :=
  blankRanges.any fun range => range.1 ≤ c.toNat && c.toNat ≤ range.2

/-- A text without its leading blanks. -/
def trimStart (text : List Char) : List Char :=
  text.dropWhile isBlank

/-- A text without its trailing blanks. -/
def trimEnd (text : List Char) : List Char :=
  (text.reverse.dropWhile isBlank).reverse

/-- A text without the blanks at both of its ends. -/
def trim (text : List Char) : List Char :=
  trimEnd (trimStart text)

/-- A text is its leading blanks followed by what trimming leaves. -/
theorem takeWhile_append_trimStart (text : List Char) :
    text.takeWhile isBlank ++ trimStart text = text :=
  List.takeWhile_append_dropWhile

/-- A text that does not begin with a blank has no leading blanks. -/
theorem dropWhile_isBlank_of_head? {text : List Char} (h : ∀ c ∈ text.head?, isBlank c = false) :
    text.dropWhile isBlank = text := by
  cases text with
  | nil => rfl
  | cons c text =>
    rw [List.dropWhile_cons_of_neg]
    rw [h c rfl]
    exact Bool.false_ne_true

/-- The word at the very front of a text, which is empty before a blank, and
    the words that come after it. -/
def frontWord : List Char → List Char × List (List Char)
  | [] => ([], [])
  | c :: text =>
    let (word, more) := frontWord text
    if isBlank c then ([], if word.isEmpty then more else word :: more)
    else (c :: word, more)

/-- The longest runs of characters that are not blank, in order. -/
def words (text : List Char) : List (List Char) :=
  let (word, more) := frontWord text
  if word.isEmpty then more else word :: more

/-- The words are the front word, if there is one, and the words after it. -/
theorem mem_words {text word : List Char} (h : word ∈ words text) :
    word ≠ [] ∧ word = (frontWord text).1 ∨ word ∈ (frontWord text).2 := by
  simp only [words] at h
  split at h
  case isTrue => exact Or.inr h
  case isFalse hempty =>
    rcases List.mem_cons.mp h with hfront | hmore
    · rw [List.isEmpty_iff, ← hfront] at hempty
      exact Or.inl ⟨hempty, hfront⟩
    · exact Or.inr hmore

theorem frontWord_cons_of_isBlank {c : Char} (text : List Char) (h : isBlank c = true) :
    frontWord (c :: text) = ([], words text) := by
  simp only [frontWord, words, if_pos h]

theorem frontWord_cons_of_not_isBlank {c : Char} (text : List Char) (h : isBlank c = false) :
    frontWord (c :: text) = (c :: (frontWord text).1, (frontWord text).2) := by
  simp only [frontWord, h, Bool.false_eq_true, if_false]

/-- The front word takes only characters of the text that are not blank. -/
theorem of_mem_frontWord {text : List Char} {c : Char} (h : c ∈ (frontWord text).1) :
    c ∈ text ∧ isBlank c = false := by
  induction text with
  | nil => exact absurd h List.not_mem_nil
  | cons ch text ih =>
    cases hblank : isBlank ch with
    | true =>
      rw [frontWord_cons_of_isBlank text hblank] at h
      exact absurd h List.not_mem_nil
    | false =>
      rw [frontWord_cons_of_not_isBlank text hblank] at h
      rcases List.mem_cons.mp h with rfl | hmem
      · exact ⟨List.mem_cons_self, hblank⟩
      · exact ⟨List.mem_cons_of_mem ch (ih hmem).1, (ih hmem).2⟩

/-- The later words are not empty and take only such characters either. -/
theorem of_mem_frontWord_snd {text word : List Char} (h : word ∈ (frontWord text).2) :
    word ≠ [] ∧ ∀ c ∈ word, c ∈ text ∧ isBlank c = false := by
  -- A word after the front word is the front word of a later part of the text.
  induction text with
  | nil => exact absurd h List.not_mem_nil
  | cons ch text ih =>
    have hlater : word ∈ (frontWord text).2 →
        word ≠ [] ∧ ∀ c ∈ word, c ∈ ch :: text ∧ isBlank c = false := fun hmem =>
      ⟨(ih hmem).1, fun c hc =>
        ⟨List.mem_cons_of_mem ch ((ih hmem).2 c hc).1, ((ih hmem).2 c hc).2⟩⟩
    cases hblank : isBlank ch with
    | true =>
      rw [frontWord_cons_of_isBlank text hblank] at h
      rcases mem_words h with ⟨hempty, rfl⟩ | hmem
      · exact ⟨hempty, fun c hc =>
          ⟨List.mem_cons_of_mem ch (of_mem_frontWord hc).1, (of_mem_frontWord hc).2⟩⟩
      · exact hlater hmem
    | false =>
      rw [frontWord_cons_of_not_isBlank text hblank] at h
      exact hlater h

/-- No word is empty. -/
theorem ne_nil_of_mem_words {text word : List Char} (h : word ∈ words text) : word ≠ [] := by
  rcases mem_words h with ⟨hempty, -⟩ | hmem
  · exact hempty
  · exact (of_mem_frontWord_snd hmem).1

/-- A word takes only characters of the text that are not blank. -/
theorem of_mem_words {text word : List Char} (h : word ∈ words text) {c : Char} (hc : c ∈ word) :
    c ∈ text ∧ isBlank c = false := by
  rcases mem_words h with ⟨-, rfl⟩ | hmem
  · exact of_mem_frontWord hc
  · exact (of_mem_frontWord_snd hmem).2 c hc

end Text

end Mustache
