/-!
# Ill-Formed Templates

Why a text is no template, and where that was noticed.

There are texts for which compiling does not come to an answer at all. A tag
takes the body of its section out of the text, and the byte offsets for that
are computed; when one of them lies inside a character, compiling breaks off.
This is no error that compiling reports, so it is kept apart from those that
are: whoever compiles a text handles an ill-formed one, but breaks off when
compiling does.

## Main definitions

* `ParseError.Cause`: What is wrong with the text.
* `ParseError`: A cause and the byte offset at which it was found.
* `ParseError.message`: The error in words.
* `Panic`: A computation breaks off.
* `Failure`: Why compiling a text gives no template.
-/

namespace Mustache

/-- What is wrong with the text of a template. -/
inductive ParseError.Cause
  /-- The text ends inside a section, or right after an opening delimiter. -/
  | unexpectedEndOfInput
  /-- A closing tag names another section than the innermost open one, or there
      is none open. -/
  | unexpectedEndOfSection (name : String)
  /-- A tag is not closed. -/
  | missingDelimiter
  /-- A tag has no name. -/
  | missingTag
  /-- A delimiter tag does not name two delimiters. -/
  | invalidDelimiters (body : String)
deriving DecidableEq, Repr

/-- The reason why a text is no template, with the byte offset that reading had
    come to. -/
structure ParseError where
  cause : ParseError.Cause
  offset : Nat
deriving DecidableEq, Repr

namespace ParseError

/-- The cause in words. -/
def Cause.message : Cause → String
  | unexpectedEndOfInput => "unexpected end of input"
  | unexpectedEndOfSection name => "unexpected end of section " ++ name
  | missingDelimiter => "missing delimiter"
  | missingTag => "missing tag"
  | invalidDelimiters body => "invalid delimiters section " ++ body

/-- The error in words, for the author of the template. -/
def message (error : ParseError) : String :=
  "ill-formed template at offset " ++ Nat.repr error.offset ++ ": " ++ error.cause.message

end ParseError

/-- A computation breaks off, with neither a result nor an error. -/
inductive Panic
  /-- The body of a section would begin or end inside a character. -/
  | splitCharacter
deriving DecidableEq, Repr

/-- Why compiling a text gives no template. -/
inductive Failure
  /-- The text is no template. -/
  | illFormed (error : ParseError)
  /-- Compiling breaks off. -/
  | panic (panic : Panic)
deriving DecidableEq, Repr

end Mustache
