import Mustache.Segment
import Mustache.Text.Bytes

/-!
# Character Boundaries

Which byte offsets of a text may be cut at. A text is a list of characters and
an offset counts bytes, so an offset can point inside a character. It is a
boundary when it measures some beginning of the text, and two boundaries in
order are what it takes to cut out a slice.

## Main definitions

* `Text.IsBoundary`: An offset between two characters, or at an end.
* `Span.slice?`: The part of a text that a span marks.
* `Span.Cuts`: A span that can be cut out of a text.

## Theorems

* `Text.dropBytes?_eq_some_iff`, `Text.takeBytes?_eq_some_iff`: What is left of
  a cut.
* `Text.slice?_eq_some_iff`: What a slice consists of.
* `Text.slice?_eq_none_iff`: A slice is missing when an end is no boundary.
* `Span.cuts_iff_exists_slice?`: A span with a slice can be cut out.
-/

namespace Mustache

namespace Text

/-- The offset measures a beginning of the text. -/
def IsBoundary (text : List Char) (offset : Nat) : Prop :=
  ∃ front back, front ++ back = text ∧ byteLength front = offset

/-- No boundary lies past the end. -/
theorem IsBoundary.le {text : List Char} {offset : Nat} (h : IsBoundary text offset) :
    offset ≤ byteLength text := by
  rcases h with ⟨front, back, rfl, rfl⟩
  rw [byteLength_append]
  omega

/-- A text with a character has a byte. -/
theorem byteLength_cons_pos (c : Char) (text : List Char) : 0 < byteLength (c :: text) := by
  -- Every character has a byte, so only the empty text has none.
  have hc := c.utf8Size_pos
  simp only [byteLength]
  omega

/-- Only the empty text has no bytes. -/
theorem byteLength_eq_zero {text : List Char} (h : byteLength text = 0) : text = [] := by
  cases text with
  | nil => rfl
  | cons c text =>
      have hpos := byteLength_cons_pos c text
      omega

/-- Of two beginnings of a text the one with fewer bytes begins the other. -/
theorem prefix_of_byteLength_le {text front longer : List Char} (hfront : front <+: text)
    (hlonger : longer <+: text) (h : byteLength front ≤ byteLength longer) :
    front <+: longer := by
  rcases List.prefix_or_prefix_of_prefix hfront hlonger with hp | ⟨more, hmore⟩
  · exact hp
  · -- The one that was said to be longer adds no bytes, so no characters either.
    have hzero : more = [] := by
      rw [← hmore, byteLength_append] at h
      exact byteLength_eq_zero (by omega)
    exact ⟨[], by rw [List.append_nil, ← hmore, hzero, List.append_nil]⟩

/-- Dropping bytes cuts a text behind a beginning with that many of them. -/
theorem dropBytes?_eq_some_iff {count : Nat} {text back : List Char} :
    dropBytes? count text = some back ↔
      ∃ front, front ++ back = text ∧ byteLength front = count := by
  -- Both cuts fail in two ways: the text is too short, or the count ends inside its
  -- first character. Either way no beginning has that many bytes.
  constructor
  · intro h
    fun_induction dropBytes? count text generalizing back with
    | case1 text =>
        rw [Option.some.injEq] at h
        exact ⟨[], by rw [h]; rfl, rfl⟩
    | case2 count => simp only [reduceCtorEq] at h
    | case3 count c text hsize ih =>
        rcases ih h with ⟨front, happend, hlength⟩
        refine ⟨c :: front, by rw [List.cons_append, happend], ?_⟩
        simp only [byteLength]
        omega
    | case4 count c text hsize => simp only [reduceCtorEq] at h
  · rintro ⟨front, rfl, rfl⟩
    exact dropBytes?_byteLength front back

/-- Taking bytes cuts out a beginning with that many of them. -/
theorem takeBytes?_eq_some_iff {count : Nat} {text front : List Char} :
    takeBytes? count text = some front ↔
      ∃ back, front ++ back = text ∧ byteLength front = count := by
  -- The count is used up, the text is, a character fits into the count, or it does not.
  fun_induction takeBytes? count text generalizing front with
  | case1 text =>
      constructor
      · intro h
        rw [Option.some.injEq] at h
        exact ⟨text, by rw [← h]; rfl, by rw [← h]; rfl⟩
      · rintro ⟨back, _, hlength⟩
        rw [byteLength_eq_zero hlength]
  | case2 count =>
      constructor
      · intro h
        simp only [reduceCtorEq] at h
      · rintro ⟨back, happend, hlength⟩
        rw [(List.append_eq_nil_iff.mp happend).1, byteLength] at hlength
        omega
  | case3 count c text hsize ih =>
      constructor
      · intro h
        rcases Option.map_eq_some_iff.mp h with ⟨rest, hrest, rfl⟩
        rcases ih.mp hrest with ⟨back, happend, hlength⟩
        refine ⟨back, by rw [List.cons_append, happend], ?_⟩
        simp only [byteLength]
        omega
      · rintro ⟨back, happend, hlength⟩
        cases front with
        | nil => simp only [byteLength] at hlength; omega
        | cons d front =>
            rw [List.cons_append, List.cons.injEq] at happend
            rw [byteLength, happend.1] at hlength
            rw [ih.mpr ⟨back, happend.2, by omega⟩, happend.1, Option.map_some]
  | case4 count c text hsize =>
      constructor
      · intro h
        simp only [reduceCtorEq] at h
      · rintro ⟨back, happend, hlength⟩
        cases front with
        | nil => simp only [byteLength] at hlength; omega
        | cons d front =>
            rw [List.cons_append, List.cons.injEq] at happend
            rw [byteLength, happend.1] at hlength
            omega

/-- A slice is what lies between a beginning with `start` bytes and one with
    `stop` bytes. -/
theorem slice?_eq_some_iff {start stop : Nat} {text body : List Char} (h : start ≤ stop) :
    slice? start stop text = some body ↔
      ∃ front back, front ++ body ++ back = text ∧ byteLength front = start ∧
        byteLength (front ++ body) = stop := by
  -- The text is cut at its start first, and then what is left is cut.
  rw [slice?, Option.bind_eq_some_iff]
  constructor
  · rintro ⟨rest, hdrop, htake⟩
    rcases dropBytes?_eq_some_iff.mp hdrop with ⟨front, hfront, hstart⟩
    rcases takeBytes?_eq_some_iff.mp htake with ⟨back, hback, hbody⟩
    refine ⟨front, back, by rw [List.append_assoc, hback, hfront], hstart, ?_⟩
    rw [byteLength_append]
    omega
  · rintro ⟨front, back, htext, hstart, hstop⟩
    refine ⟨body ++ back, dropBytes?_eq_some_iff.mpr
      ⟨front, by rw [← List.append_assoc, htext], hstart⟩, takeBytes?_eq_some_iff.mpr
      ⟨back, rfl, ?_⟩⟩
    rw [byteLength_append] at hstop
    omega

/-- There is no slice from a boundary on exactly if the other end is none. -/
theorem slice?_eq_none_iff {start stop : Nat} {text : List Char} (h : start ≤ stop)
    (hstart : IsBoundary text start) :
    slice? start stop text = none ↔ ¬ IsBoundary text stop := by
  constructor
  · -- Of the two beginnings the shorter one begins the longer, and the rest of
    -- the longer one would be the slice.
    rintro hnone ⟨longer, back, htext, hstop⟩
    rcases hstart with ⟨front, rest, hfront, hbytes⟩
    rcases prefix_of_byteLength_le ⟨rest, hfront⟩ ⟨back, htext⟩ (by omega) with ⟨body, hbody⟩
    have hsome : slice? start stop text = some body :=
      (slice?_eq_some_iff h).mpr ⟨front, back, by rw [hbody, htext], hbytes, by rw [hbody, hstop]⟩
    rw [hnone] at hsome
    simp only [reduceCtorEq] at hsome
  · intro hstop
    cases hslice : slice? start stop text with
    | none => rfl
    | some body =>
        rcases (slice?_eq_some_iff h).mp hslice with ⟨front, back, htext, _, hbytes⟩
        exact absurd ⟨front ++ body, back, htext, hbytes⟩ hstop

end Text

open Text

/-- The part of a text between the ends of the span, if they are in order and
    neither lies inside a character or past the end. -/
def Span.slice? (text : List Char) (span : Span) : Option (List Char) :=
  if span.start ≤ span.stop then Text.slice? span.start span.stop text else none

/-- The ends of the span are boundaries of the text and in order. -/
def Span.Cuts (text : List Char) (span : Span) : Prop :=
  span.start ≤ span.stop ∧ span.stop ≤ byteLength text ∧
    IsBoundary text span.start ∧ IsBoundary text span.stop

namespace Span

theorem cuts_of_isBoundary {text : List Char} {start stop : Nat} (h : start ≤ stop)
    (hstart : IsBoundary text start) (hstop : IsBoundary text stop) :
    Span.Cuts text ⟨start, stop⟩ :=
  ⟨h, hstop.le, hstart, hstop⟩

/-- The slice at a span lies between a beginning with as many bytes as its start
    and one with as many as its end. -/
theorem slice?_eq_some_iff {text body : List Char} {span : Span} :
    span.slice? text = some body ↔
      ∃ front back, front ++ body ++ back = text ∧ byteLength front = span.start ∧
        byteLength (front ++ body) = span.stop := by
  rw [Span.slice?]
  by_cases h : span.start ≤ span.stop
  · rw [if_pos h, Text.slice?_eq_some_iff h]
  · rw [if_neg h]
    constructor
    · intro hnone
      simp only [reduceCtorEq] at hnone
    · -- What lies before the body cannot have more bytes than what lies before its end.
      rintro ⟨front, back, _, hstart, hstop⟩
      rw [byteLength_append] at hstop
      omega

/-- A span can be cut out exactly if there is a slice between its ends. -/
theorem cuts_iff_exists_slice? {text : List Char} {span : Span} :
    span.Cuts text ↔ ∃ body, span.slice? text = some body := by
  constructor
  · rintro ⟨h, _, hstart, hstop⟩
    rw [Span.slice?, if_pos h]
    cases hslice : Text.slice? span.start span.stop text with
    | some body => exact ⟨body, rfl⟩
    | none => exact absurd hstop ((Text.slice?_eq_none_iff h hstart).mp hslice)
  · rintro ⟨body, hbody⟩
    rcases slice?_eq_some_iff.mp hbody with ⟨front, back, htext, hstart, hstop⟩
    refine cuts_of_isBoundary ?_ ⟨front, body ++ back, by rw [← List.append_assoc, htext], hstart⟩
      ⟨front ++ body, back, htext, hstop⟩
    rw [← hstart, ← hstop, byteLength_append]
    omega

/-- The part of a text between two others is its slice. -/
theorem slice?_middle {text front middle back : List Char} (h : front ++ middle ++ back = text) :
    Span.slice? text ⟨byteLength front, byteLength (front ++ middle)⟩ = some middle :=
  slice?_eq_some_iff.mpr ⟨front, back, h, rfl, rfl⟩

end Span

end Mustache
