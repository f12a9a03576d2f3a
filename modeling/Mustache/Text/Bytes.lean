/-!
# Byte Offsets

Positions in a template are counted in bytes of its UTF-8 form, while texts
are lists of characters. This module measures a text in bytes and cuts it at
byte offsets. An offset may fall inside a character, and then there is nothing
to cut: `dropBytes?` and `takeBytes?` answer `none`.

## Main definitions

* `byteLength`: The number of bytes of a text.
* `dropBytes?`, `takeBytes?`: A text after, or up to, a byte offset.
* `slice?`: The part of a text between two byte offsets.

## Theorems

* `byteLength_append`: The measure of two texts in a row.
* `dropBytes?_byteLength`: An offset that ends a text can be cut at.
-/

namespace Mustache

namespace Text

/-- The number of bytes of a text in UTF-8. -/
def byteLength : List Char → Nat
  | [] => 0
  | c :: text => c.utf8Size + byteLength text

/-- Two texts in a row have the bytes of both. -/
@[simp] theorem byteLength_append (left right : List Char) :
    byteLength (left ++ right) = byteLength left + byteLength right := by
  induction left with
  | nil => simp only [byteLength, List.nil_append, Nat.zero_add]
  | cons c left ih => simp only [byteLength, List.cons_append, ih, Nat.add_assoc]

/-- A text that is kept last character first has as many bytes. -/
@[simp] theorem byteLength_reverse (text : List Char) :
    byteLength text.reverse = byteLength text := by
  induction text with
  | nil => rfl
  | cons c text ih =>
      simp only [List.reverse_cons, byteLength_append, ih, byteLength, Nat.add_zero]
      exact Nat.add_comm _ _

/-- What follows the first `count` bytes of a text, unless that offset lies
    inside a character or past the end. -/
def dropBytes? : (count : Nat) → List Char → Option (List Char)
  | 0, text => some text
  | _ + 1, [] => none
  | count + 1, c :: text =>
    if c.utf8Size ≤ count + 1 then dropBytes? (count + 1 - c.utf8Size) text else none

/-- The first `count` bytes of a text, unless that offset lies inside a
    character or past the end. -/
def takeBytes? : (count : Nat) → List Char → Option (List Char)
  | 0, _ => some []
  | _ + 1, [] => none
  | count + 1, c :: text =>
    if c.utf8Size ≤ count + 1 then (takeBytes? (count + 1 - c.utf8Size) text).map (c :: ·)
    else none

/-- The part of a text from the byte offset `start` up to the byte offset
    `stop`. -/
def slice? (start stop : Nat) (text : List Char) : Option (List Char) :=
  (dropBytes? start text).bind (takeBytes? (stop - start))

/-- The offset at which a first text ends can be cut at, and what follows it is
    the second text. -/
theorem dropBytes?_byteLength (left right : List Char) :
    dropBytes? (byteLength left) (left ++ right) = some right := by
  induction left with
  | nil => simp only [byteLength, List.nil_append, dropBytes?]
  | cons c left ih =>
      -- There is a character, so the offset is a successor and one is taken off.
      have hpos : byteLength (c :: left) ≠ 0 := by
        have hsize := c.utf8Size_pos
        simp only [byteLength]
        omega
      rcases Nat.exists_eq_add_one_of_ne_zero hpos with ⟨k, hk⟩
      have hsize : c.utf8Size + byteLength left = k + 1 := hk
      rw [hk, List.cons_append, dropBytes?, if_pos (by omega),
        show k + 1 - c.utf8Size = byteLength left by omega]
      exact ih

end Text

end Mustache
