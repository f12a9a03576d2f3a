import Mustache.Proofs.Passage

/-!
# Streams of Tokens

A template read without regard to its sections. Reading a template goes from
tag to tag, and the tree is built on the way: each section is read by a
recursion of its own, on the cursor that the section around it left behind.
None of that nesting is needed to tell where the tags are. What the next tag is
depends on the cursor alone, and the cursor carries the delimiters in force,
so the tags of a text form one flat list.

A stream is that list. It ends where the text ends, or at the first tag that
cannot be read. A token holds what a tree is built from: texts, names, and of
the tags around a section the byte offsets at which its body begins and ends.
Comments and delimiter tags leave nothing behind but the cursor after them, so
they are no tokens.

## Main definitions

* `Token`: A text or a tag, without the tags it encloses.
* `Ending`: How a stream ends.
* `Stream`: The tokens of a text.
* `Tag.tokens`: The token of a tag, if it has one.
* `Cursor.stream`: The tokens from a place on.

## Theorems

* `Cursor.stream_of_not_found`: Without another tag the stream ends.
* `Cursor.stream_of_error`: A tag that cannot be read ends the stream.
* `Cursor.stream_of_tag`: A tag is followed by the stream after it.
* `Cursor.mem_stream`: A token is a text, or a tag that reading comes to.
-/

namespace Mustache

open Text

/-- A text or a tag of a template. -/
inductive Token
  | text (content : String)
  | value (name : String) (isEscaped : Bool)
  | reference (reference : Reference)
  /-- The closing tag has to repeat `name`. The body would start at the byte
      offset `start`, and `delimiters` are in force there. -/
  | opening (kind : Opening) (name : String) (start : Nat) (delimiters : Delimiters)
  /-- The body would stop at the byte offset `stop`. The tag ends at the byte
      offset `offset`. -/
  | closing (name : String) (stop offset : Nat)

/-- How a stream ends. -/
inductive Ending
  /-- With the text, at a byte offset. -/
  | endOfText (offset : Nat)
  /-- At a tag that cannot be read. -/
  | failure (error : ParseError)

/-- The tokens of a text in order, up to its end or the first error. -/
structure Stream where
  tokens : List Token
  ending : Ending

/-- The stream with more tokens before it. -/
def Stream.prepend (tokens : List Token) (stream : Stream) : Stream :=
  ⟨tokens ++ stream.tokens, stream.ending⟩

/-- The token of a text, if there is any text. -/
def textTokens : List Char → List Token
  | [] => []
  | c :: text => [.text (String.ofList (c :: text))]

/-- The token of a tag, if it has one. The tag was opened at the place `opened`
    and ends at the place `after`. -/
def Tag.tokens (opened after : Cursor) : Tag → List Token
  | single .comment => []
  | single (.delimiters _) => []
  | single (.value name isEscaped) => [.value name isEscaped]
  | single (.reference r) => [.reference r]
  | opening kind name => [.opening kind name after.bodyStart after.delimiters]
  | closing name => [.closing name (after.bodyEnd opened.tagStart) after.pos]

namespace Cursor

/-- The tokens from the cursor on. -/
def stream (c : Cursor) : Stream :=
  let reading := c.readUntil c.delimiters.opening
  if _ : reading.found = true then
    match _ : reading.rest.tag with
    | .error error => ⟨textTokens reading.text, .failure error⟩
    | .ok (tag, after) =>
      (stream after).prepend (textTokens reading.text ++ tag.tokens reading.rest after)
  else ⟨textTokens reading.text, .endOfText reading.rest.pos⟩
termination_by c.remaining
decreasing_by exact remaining_tag_of_found ‹_› ‹_›

/-- Without another tag the rest of the text is the last token. -/
theorem stream_of_not_found {c : Cursor} (h : (c.readUntil c.delimiters.opening).found = false) :
    c.stream = ⟨textTokens (c.readUntil c.delimiters.opening).text,
      .endOfText (c.readUntil c.delimiters.opening).rest.pos⟩ := by
  rw [stream, dif_neg (by rw [h]; exact Bool.false_ne_true)]

/-- A tag that cannot be read ends the stream. -/
theorem stream_of_error {c : Cursor} {error : ParseError}
    (found : (c.readUntil c.delimiters.opening).found = true)
    (h : (c.readUntil c.delimiters.opening).rest.tag = .error error) :
    c.stream = ⟨textTokens (c.readUntil c.delimiters.opening).text, .failure error⟩ := by
  rw [stream, dif_pos found]
  split
  case h_1 error' h' =>
    rw [h, Except.error.injEq] at h'
    rw [h']
  case h_2 tag after h' =>
    rw [h] at h'
    simp only [reduceCtorEq] at h'

/-- A tag is followed by the tokens after it. -/
theorem stream_of_tag {c after : Cursor} {tag : Tag}
    (found : (c.readUntil c.delimiters.opening).found = true)
    (h : (c.readUntil c.delimiters.opening).rest.tag = .ok (tag, after)) :
    c.stream = after.stream.prepend (textTokens (c.readUntil c.delimiters.opening).text ++
      tag.tokens (c.readUntil c.delimiters.opening).rest after) := by
  rw [stream, dif_pos found]
  split
  case h_1 error h' =>
    rw [h] at h'
    simp only [reduceCtorEq] at h'
  case h_2 tag' after' h' =>
    rw [h, Except.ok.injEq, Prod.mk.injEq] at h'
    rw [h'.1, h'.2]

/-- A token is a text, or it stems from a tag that reading comes to. -/
theorem mem_stream {c : Cursor} {token : Token} (h : token ∈ c.stream.tokens) :
    (∃ content, token = .text content) ∨
      ∃ opened tag after, Reaches c opened ∧ opened.tag = .ok (tag, after) ∧
        token ∈ tag.tokens opened after := by
  -- Only text tokens come from the text before a tag.
  have htext : ∀ text : List Char, token ∈ textTokens text → ∃ content, token = .text content := by
    intro text hmem
    cases text with
    | nil => exact absurd hmem List.not_mem_nil
    | cons ch text => exact ⟨_, List.mem_singleton.mp hmem⟩
  fun_induction stream c with
  | case1 c reading found error htag => exact Or.inl (htext _ h)
  | case2 c reading found tag after htag ih =>
      have hreaches : Reaches c reading.rest := reaches_readUntil _ c
      simp only [Stream.prepend, List.append_assoc, List.mem_append] at h
      -- The token is before the tag, of the tag, or after it.
      rcases h with hmem | hmem | hmem
      · exact Or.inl (htext _ hmem)
      · exact Or.inr ⟨reading.rest, tag, after, hreaches, htag, hmem⟩
      · rcases ih hmem with hcontent | ⟨opened, tag', after', hopened, htag', hmem'⟩
        · exact Or.inl hcontent
        · exact Or.inr ⟨opened, tag', after', (hreaches.trans (reaches_tag htag)).trans hopened,
            htag', hmem'⟩
  | case3 c reading found => exact Or.inl (htext _ h)

end Cursor

end Mustache
