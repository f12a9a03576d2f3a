import Mathlib.Data.List.TakeWhile
import Mustache.Proofs.Window

/-!
# Slices of a Reader

A reader never takes a bad slice. A cursor and the window at its byte offsets
take the same steps, and the window finds every slice it looks at on the way.
For a cursor holds the text in pieces, and all the byte offsets that a window
computes measure some of these pieces in a row.

## Theorems

* `Window.lineStop?_eq`: A window and a cursor agree on where a line ends.
* `Window.standalone?_eq`: They agree on which lines are trimmed.
* `Cursor.window_nextLine`: They go on to the same line.
* `Cursor.window_next`: They read the same character.
* `Cursor.window_changeDelimiters`: They change delimiters alike.
-/

namespace Mustache

open Text

namespace Window

variable {source front text beyond : List Char}

/-- What is left from the end of a beginning on. -/
theorem rest?_eq (h : front ++ text = source) :
    rest? source (byteLength front) = some text := by
  rw [rest?, ← h]
  exact Span.slice?_middle (by rw [List.append_nil])

/-- The text up to an offset ends with the word that a reader has just read
    there. -/
theorem endsAt?_eq {behind : List Char} (word : List Char) (h : behind.reverse ++ text = source) :
    endsAt? source word (byteLength behind) = some (justRead word behind) := by
  have hslice : Span.slice? source ⟨0, byteLength behind⟩ = some behind.reverse :=
    Span.slice?_eq_some_iff.mpr ⟨[], text, h, rfl, byteLength_reverse behind⟩
  rw [endsAt?, hslice, Option.map_some, endsWith, List.isSuffixOf, List.reverse_reverse, justRead]

/-- A comment opens with its exclamation mark, so there is no need to look back
    after any other character. -/
theorem justRead_exclamation {word behind : List Char} {c : Char} (h : (c == '!') = false) :
    justRead (word ++ ['!']) (c :: behind) = false := by
  have hne : ('!' == c) = false := by
    rw [beq_eq_false_iff_ne] at h ⊢
    exact h.symm
  rw [justRead, List.reverse_append, List.reverse_singleton, List.singleton_append,
    List.isPrefixOf_cons_cons, hne, Bool.false_and]

/-- Looking back for the words that open and close a comment gives what a reader
    knows. -/
theorem inComment?_eq (d : Delimiters) (inComment : Bool) {c : Char} {behind : List Char}
    (h : (c :: behind).reverse ++ text = source) :
    inComment? source d inComment c (byteLength (c :: behind)) =
      some ((inComment || justRead (d.opening ++ ['!']) (c :: behind)) &&
        !justRead d.closing (c :: behind)) := by
  -- The window asks for the opening word only after its exclamation mark.
  have hopened : (if !inComment && c == '!' then
        endsAt? source (d.opening ++ ['!']) (byteLength (c :: behind)) else some inComment) =
      some (inComment || justRead (d.opening ++ ['!']) (c :: behind)) := by
    rw [endsAt?_eq _ h]
    cases inComment with
    | true => rfl
    | false =>
        cases hc : c == '!' with
        | true => rfl
        | false => rw [justRead_exclamation hc]; rfl
  rw [inComment?, hopened, Option.bind_some, endsAt?_eq _ h]
  -- Outside of a comment it does not matter what the text ends with.
  cases inComment || justRead (d.opening ++ ['!']) (c :: behind) with
  | true => rfl
  | false => rfl

/-- A window ends where the line ends that is taken there. -/
theorem lineStopFrom?_eq (d : Delimiters) (inComment : Bool) {behind : List Char}
    (h : behind.reverse ++ text = source) :
    lineStopFrom? source d inComment (byteLength behind) text =
      some (byteLength behind + byteLength (takeLine d inComment behind text).1) := by
  -- The window keeps the offset where the cursor keeps the characters before it.
  induction text generalizing inComment behind with
  | nil => rfl
  | cons c text ih =>
      have hnext : (c :: behind).reverse ++ text = source := by
        rw [List.reverse_cons, List.append_assoc, List.singleton_append, h]
      have hstop : byteLength behind + c.utf8Size = byteLength (c :: behind) := by
        rw [byteLength, Nat.add_comm]
      rw [lineStopFrom?, hstop, inComment?_eq d inComment hnext, Option.bind_some, takeLine]
      by_cases hend : (!((inComment || justRead (d.opening ++ ['!']) (c :: behind)) &&
          !justRead d.closing (c :: behind)) && c == '\n') = true
      · rw [if_pos hend, if_pos hend, ← hstop]
        rfl
      · rw [if_neg hend, if_neg hend, ih _ hnext, ← hstop, Nat.add_assoc]
        rfl

/-- So it does when it begins outside of a comment. -/
theorem lineStop?_eq (d : Delimiters) {behind : List Char} (h : behind.reverse ++ text = source) :
    lineStop? source d (byteLength behind) =
      some (byteLength behind + byteLength (takeLine d false behind text).1) := by
  have hrest := rest?_eq h
  rw [byteLength_reverse] at hrest
  rw [lineStop?, hrest, Option.bind_some, lineStopFrom?_eq d false h]

/-- The blanks that a window passes over are those that its text begins with. -/
theorem skipBlanks?_eq (h : front ++ text ++ beyond = source) :
    skipBlanks? source (byteLength front) (byteLength (front ++ text)) =
      some (byteLength (front ++ text.takeWhile isBlank)) := by
  rw [skipBlanks?]
  -- With nothing between the offsets there is no slice to take.
  by_cases hle : byteLength (front ++ text) ≤ byteLength front
  · have hnil : text = [] := by
      rw [byteLength_append] at hle
      exact byteLength_eq_zero (by omega)
    rw [if_pos hle, hnil, List.takeWhile_nil, List.append_nil]
  · rw [if_neg hle, Span.slice?_middle h, Option.map_some, byteLength_append]

/-- A line that is too short for an opening delimiter and a sigil starts with no
    tag. -/
theorem startsTag_of_le {d : Delimiters} (h : byteLength text ≤ byteLength d.opening) :
    startsTag d text = false := by
  rw [startsTag]
  cases hopening : d.opening.isPrefixOf text with
  | false => rfl
  | true =>
      rcases List.isPrefixOf_iff_prefix.mp hopening with ⟨content, rfl⟩
      rw [byteLength_append] at h
      have hnil : content = [] := byteLength_eq_zero (by omega)
      rw [hnil, List.append_nil, List.drop_length]
      rfl

/-- A window and a reader agree whether a silent tag starts at an offset. -/
theorem startsTag?_eq (d : Delimiters) (h : front ++ text ++ beyond = source) :
    startsTag? source d (byteLength front) (byteLength (front ++ text)) =
      some (startsTag d text) := by
  rw [startsTag?]
  by_cases hshort : byteLength (front ++ text) ≤ byteLength front + byteLength d.opening
  · rw [if_pos hshort, startsTag_of_le]
    rw [byteLength_append] at hshort
    omega
  · rw [if_neg hshort, rest?_eq (by rw [← List.append_assoc, h]), Option.bind_some, startsTag]
    rw [byteLength_append] at hshort
    -- The window looks past the line for the delimiter, but it is long enough.
    by_cases hopening : d.opening <+: text
    · rcases hopening with ⟨content, rfl⟩
      have hslice := @Span.slice?_middle source (front ++ d.opening) content beyond
        (by rw [← h, List.append_assoc front])
      rw [List.append_assoc front, byteLength_append front d.opening] at hslice
      rw [if_pos (by rw [List.append_assoc, List.isPrefixOf_iff_prefix]; exact ⟨_, rfl⟩), hslice,
        Option.map_some, List.drop_left, List.isPrefixOf_iff_prefix.mpr ⟨content, rfl⟩]
      rfl
    · have hlonger : ¬ d.opening <+: text ++ beyond := fun hprefix =>
        hopening (prefix_of_byteLength_le hprefix ⟨beyond, rfl⟩ (by omega))
      have hfalse : d.opening.isPrefixOf text = false :=
        Bool.eq_false_iff.mpr fun hprefix => hopening (List.isPrefixOf_iff_prefix.mp hprefix)
      rw [if_neg (by rwa [List.isPrefixOf_iff_prefix]), hfalse, Bool.false_and]

/-- What a search finds within a line it finds in all the text from there on. -/
theorem cut?_append {word content back : List Char} (h : cut? word text = some (content, back)) :
    cut? word (text ++ beyond) = some (content, back ++ beyond) := by
  induction text generalizing content back with
  | nil =>
      -- Only the empty word is found in an empty text.
      rw [cut?] at h
      by_cases hword : word.isEmpty = true
      · rw [if_pos hword, Option.some.injEq, Prod.mk.injEq] at h
        rw [← h.1, ← h.2, List.isEmpty_iff.mp hword]
        cases beyond with
        | nil => rfl
        | cons c beyond => rfl
      · rw [if_neg hword] at h
        simp only [reduceCtorEq] at h
  | cons c text ih =>
      rw [cut?] at h
      rw [List.cons_append, cut?]
      by_cases hword : word.isPrefixOf (c :: text) = true
      · rw [if_pos hword, Option.some.injEq, Prod.mk.injEq] at h
        rcases List.isPrefixOf_iff_prefix.mp hword with ⟨rest, hrest⟩
        rw [← h.1, ← h.2, ← List.cons_append, ← hrest, List.append_assoc, List.drop_left,
          List.drop_left, if_pos (List.isPrefixOf_iff_prefix.mpr ⟨_, rfl⟩)]
      · rw [if_neg hword] at h
        rcases Option.map_eq_some_iff.mp h with ⟨⟨first, last⟩, hcut, heq⟩
        simp only [Prod.mk.injEq] at heq
        -- The word fits into the text, so it does not reach beyond.
        have hlonger : ¬ word <+: c :: text ++ beyond := by
          intro hprefix
          have hlength := congrArg List.length (eq_of_cut? hcut)
          simp only [List.length_append] at hlength
          exact hword (List.isPrefixOf_iff_prefix.mpr (List.prefix_of_prefix_length_le hprefix
            ⟨beyond, rfl⟩ (by rw [List.length_cons]; omega)))
        rw [← List.cons_append, if_neg (by rwa [List.isPrefixOf_iff_prefix]), ih hcut,
          Option.map_some, ← heq.1, ← heq.2]

/-- A word that stands in a text is found. -/
theorem cut?_ne_none (front word back : List Char) : cut? word (front ++ word ++ back) ≠ none := by
  induction front with
  | nil =>
      rw [List.nil_append]
      cases word with
      | nil =>
          cases back with
          | nil => exact Option.some_ne_none _
          | cons c back => exact Option.some_ne_none _
      | cons c word =>
          rw [List.cons_append, cut?, ← List.cons_append,
            if_pos (List.isPrefixOf_iff_prefix.mpr ⟨back, rfl⟩)]
          exact Option.some_ne_none _
  | cons c front ih =>
      rw [List.cons_append, List.cons_append, cut?]
      by_cases hword : word.isPrefixOf (c :: (front ++ word ++ back)) = true
      · rw [if_pos hword]
        exact Option.some_ne_none _
      · rw [if_neg hword, ne_eq, Option.map_eq_none_iff]
        exact ih

/-- What a search finds past a line ends past it, since a delimiter that ended
    on the line would have been found there. -/
theorem lt_of_cut?_append {word content back : List Char} (h : cut? word text = none)
    (h' : cut? word (text ++ beyond) = some (content, back)) :
    byteLength text < byteLength (content ++ word) := by
  rcases Nat.lt_or_ge (byteLength text) (byteLength (content ++ word)) with hlt | hle
  · exact hlt
  · have happend : content ++ word ++ back = text ++ beyond := (eq_of_cut? h').symm
    rcases prefix_of_byteLength_le ⟨back, happend⟩ ⟨beyond, rfl⟩ hle with ⟨more, rfl⟩
    exact absurd h (cut?_ne_none content word more)

/-- The two equations of `tagsStop?`: by whether the closing delimiter is found. -/
theorem tagsStop?_of_not_found {d : Delimiters} {stop start : Nat}
    (hrest : rest? source start = some text) (hcut : cut? d.closing text = none) :
    tagsStop? source d stop start = some none := by
  rw [tagsStop?]
  split
  case h_1 h' => exact absurd (h'.symm.trans hrest) (Option.some_ne_none _).symm
  case h_2 text' h' =>
    rw [hrest, Option.some.injEq] at h'
    subst h'
    split
    case h_1 => rfl
    case h_2 h' => exact absurd (h'.symm.trans hcut) (Option.some_ne_none _)

/-- Behind the closing delimiter there is either another tag to pass over, or
    the rest of the line, which has to be blank. -/
theorem tagsStop?_of_cut {d : Delimiters} {stop start : Nat} {content back : List Char}
    (hrest : rest? source start = some text) (hcut : cut? d.closing text = some (content, back)) :
    tagsStop? source d stop start =
      (startsTag? source d (start + byteLength (content ++ d.closing)) stop).bind fun isTag =>
        if isTag then tagsStop? source d stop (start + byteLength (content ++ d.closing))
        else (skipBlanks? source (start + byteLength (content ++ d.closing)) stop).map fun last =>
          if last = stop then some (start + byteLength (content ++ d.closing)) else none := by
  rw [tagsStop?]
  split
  case h_1 h' => exact absurd (h'.symm.trans hrest) (Option.some_ne_none _).symm
  case h_2 text' h' =>
    rw [hrest, Option.some.injEq] at h'
    subst h'
    split
    case h_1 h' => exact absurd (h'.symm.trans hcut) (Option.some_ne_none _).symm
    case h_2 content' back' h' =>
      rw [hcut, Option.some.injEq, Prod.mk.injEq] at h'
      rw [h'.1]

/-- The blanks that a line starts with make up the whole line if all of it is
    blank. -/
theorem byteLength_takeWhile_eq_iff (front text : List Char) :
    byteLength (front ++ text.takeWhile isBlank) = byteLength (front ++ text) ↔
      text.all isBlank = true := by
  have hsplit := congrArg byteLength (takeWhile_append_trimStart text)
  rw [byteLength_append] at hsplit
  rw [byteLength_append, byteLength_append]
  constructor
  · intro h
    have hnil : trimStart text = [] := byteLength_eq_zero (by omega)
    rwa [trimStart, List.dropWhile_eq_nil_iff, ← List.all_eq_true] at hnil
  · intro h
    rw [List.takeWhile_eq_self_iff.mpr (List.all_eq_true.mp h)]

/-- The search for the last tag of a line ends where the run of tags does. -/
theorem tagsStop?_eq (d : Delimiters) (h : front ++ text ++ beyond = source) :
    tagsStop? source d (byteLength (front ++ text)) (byteLength front) =
      some ((tagRun? d text).bind fun run =>
        if run.2.all isBlank then some (byteLength (front ++ run.1)) else none) := by
  have hrest : rest? source (byteLength front) = some (text ++ beyond) :=
    rest?_eq (by rw [← List.append_assoc, h])
  fun_induction tagRun? d text generalizing front with
  | case1 text hcut =>
      cases hmore : cut? d.closing (text ++ beyond) with
      | none => rw [tagsStop?_of_not_found hrest hmore, Option.bind_none]
      | some found =>
          -- The delimiter that was found lies beyond the line, so there is no
          -- tag after it and the blanks from there on are not looked at.
          have hlt := lt_of_cut?_append hcut hmore
          have hpast : byteLength (front ++ text) <
              byteLength front + byteLength (found.1 ++ d.closing) := by
            rw [byteLength_append]
            omega
          rw [tagsStop?_of_cut hrest hmore, startsTag?, if_pos (by omega), Option.bind_some,
            if_neg Bool.false_ne_true, skipBlanks?, if_pos (by omega), Option.map_some,
            if_neg (by omega), Option.bind_none]
  | case2 text content rest hcut hstart ih =>
      -- Another tag follows, and the window goes on right there.
      have htext : text = content ++ d.closing ++ rest := eq_of_cut? hcut
      have hnext : front ++ (content ++ d.closing) ++ rest ++ beyond = source := by
        rw [← h, htext, List.append_assoc front]
      have hstop : byteLength (front ++ text) =
          byteLength (front ++ (content ++ d.closing) ++ rest) := by
        rw [htext, List.append_assoc front]
      have hih := ih hnext (rest?_eq (by rw [← List.append_assoc, hnext]))
      rw [tagsStop?_of_cut hrest (cut?_append hcut), ← byteLength_append, hstop,
        startsTag?_eq d hnext, Option.bind_some, if_pos hstart, hih]
      cases tagRun? d rest with
      | none => rfl
      | some run =>
          simp only [Option.map_some, Option.bind_some, List.append_assoc]
  | case3 text content rest hcut hstart =>
      -- No tag follows, so the rest of the line has to be blank.
      have htext : text = content ++ d.closing ++ rest := eq_of_cut? hcut
      have hnext : front ++ (content ++ d.closing) ++ rest ++ beyond = source := by
        rw [← h, htext, List.append_assoc front]
      have hstop : byteLength (front ++ text) =
          byteLength (front ++ (content ++ d.closing) ++ rest) := by
        rw [htext, List.append_assoc front]
      rw [tagsStop?_of_cut hrest (cut?_append hcut), ← byteLength_append, hstop,
        startsTag?_eq d hnext, Option.bind_some, if_neg hstart, skipBlanks?_eq hnext,
        Option.map_some, Option.bind_some]
      simp only [byteLength_takeWhile_eq_iff]

/-- A window and a cursor trim the same lines to the same tags. -/
theorem standalone?_eq (d : Delimiters) (h : front ++ text ++ beyond = source) :
    standalone? source d (byteLength front) (byteLength (front ++ text)) =
      some ((onlyTags? d text).map fun line => byteLength (front ++ line.1)) := by
  rw [standalone?, startsTag?_eq d h, Option.bind_some, onlyTags?]
  cases hstart : startsTag d text with
  | false => rfl
  | true =>
      -- The run of tags is looked for behind the first opening delimiter.
      rw [startsTag, Bool.and_eq_true] at hstart
      rcases List.isPrefixOf_iff_prefix.mp hstart.1 with ⟨content, rfl⟩
      have htags := @tagsStop?_eq source (front ++ d.opening) content beyond d
        (by rw [← h, List.append_assoc front])
      rw [List.append_assoc] at htags
      rw [if_pos rfl, if_pos rfl, ← byteLength_append, htags, List.drop_left]
      cases tagRun? d content with
      | none => rfl
      | some run =>
          by_cases hblank : run.2.all isBlank = true
          · simp only [Option.bind_some, if_pos hblank, Option.map_some, List.append_assoc]
          · simp only [Option.bind_some, if_neg hblank, Option.map_none]

end Window

namespace Cursor

variable {source : List Char} {c : Cursor}

theorem behind_append (c : Cursor) (h : c.toText = source) :
    c.behind.reverse ++ (c.ahead ++ c.trail ++ c.beyond) = source := by
  rw [← h, toText, List.append_assoc, List.append_assoc, List.append_assoc]

/-- The window goes on to the line that the cursor goes on to. -/
theorem window_nextLine (h : c.toText = source) (hahead : c.ahead = []) :
    c.window.nextLine? source = some c.nextLine.window := by
  have hbehind : (c.trail.reverse ++ c.behind).reverse ++ c.beyond = source := by
    rw [← c.behind_append h, hahead, List.reverse_append, List.reverse_reverse, List.nil_append,
      List.append_assoc]
  have hstop : c.window.line.stop = byteLength (c.trail.reverse ++ c.behind) := by
    rw [window, hahead, List.nil_append, byteLength_append, byteLength_reverse, pos, Nat.add_comm]
  have htake := takeLine_append c.delimiters false (c.trail.reverse ++ c.behind) c.beyond
  rw [Window.nextLine?, hstop, show c.window.delimiters = c.delimiters from rfl,
    Window.lineStop?_eq c.delimiters hbehind, nextLine, Line.ofText]
  generalize takeLine c.delimiters false (c.trail.reverse ++ c.behind) c.beyond = taken at htake ⊢
  rcases taken with ⟨line, beyond⟩
  -- The line stands between what was read and what lies beyond.
  generalize c.trail.reverse ++ c.behind = behind at hbehind ⊢
  simp only at htake ⊢
  rw [← htake, ← List.append_assoc] at hbehind
  have hblanks := Window.skipBlanks?_eq hbehind
  have hline := takeWhile_append_trimStart line
  have htags := @Window.standalone?_eq source (behind.reverse ++ line.takeWhile isBlank)
    (trimStart line) beyond c.delimiters (by rw [List.append_assoc behind.reverse, hline, hbehind])
  rw [List.append_assoc behind.reverse, hline] at htags
  simp only [byteLength_append, byteLength_reverse] at hblanks htags
  simp only [Option.bind_eq_bind, Option.bind_some, hblanks, htags]
  -- The offsets of the window measure the parts that the line is split into.
  cases honly : onlyTags? c.delimiters (trimStart line) with
  | none =>
      simp only [Option.map_none, Cursor.window, pos, lineStart, textStart, Cursor.behind,
        List.append_nil, List.nil_append, List.reverse_nil, byteLength, Nat.add_zero]
  | some tags =>
      have hlength := congrArg byteLength (onlyTags?_append honly)
      have hlength' := congrArg byteLength hline
      simp only [byteLength_append] at hlength hlength'
      simp only [Option.map_some, Cursor.window, pos, lineStart, textStart, Cursor.behind,
        List.nil_append, byteLength_append, byteLength_reverse, Option.some.injEq,
        Window.mk.injEq, Span.mk.injEq, true_and]
      omega

/-- Where something is ahead on the line, the window reads it as the cursor
    does. -/
theorem window_char (h : c.toText = source) (hahead : c.ahead ≠ []) :
    c.window.char? source = some (c.next?.map fun next => (next.1, next.2.window)) := by
  have hrest := Window.rest?_eq (c.behind_append h)
  rw [byteLength_reverse] at hrest
  rw [next?, atLine_of_ne_nil hahead, Window.char?, window, pos, hrest]
  cases hc : c.ahead with
  | nil => exact absurd hc hahead
  | cons ch ahead =>
      simp only [List.cons_append, Option.map_some, window, pos, lineStart, textStart, behind,
        byteLength, byteLength_append, Option.some.injEq, Prod.mk.injEq, Window.mk.injEq,
        Span.mk.injEq, true_and]
      omega

/-- The window reads the character that the cursor reads. -/
theorem window_next (h : c.toText = source) :
    c.window.next? source = some (c.next?.map fun next => (next.1, next.2.window)) := by
  have hlength := congrArg byteLength (c.behind_append h)
  simp only [byteLength_append, byteLength_reverse] at hlength
  rw [Window.next?]
  -- The line is read to its end exactly if nothing is ahead, and the text
  -- exactly if nothing lies beyond either.
  by_cases hahead : c.ahead = []
  · rw [if_pos (by rw [window, hahead, byteLength, Nat.add_zero])]
    by_cases hbeyond : c.beyond = []
    · have hend : ¬ c.window.line.stop < byteLength source := by
        rw [hbeyond, byteLength] at hlength
        simp only [window, pos, byteLength_append]
        omega
      rw [if_neg hend, next?, atLine, hbeyond, List.isEmpty_nil, Bool.not_true, Bool.and_false,
        if_neg Bool.false_ne_true, hahead]
      rfl
    · have hend : c.window.line.stop < byteLength source := by
        have hpos := Nat.pos_of_ne_zero fun hzero => hbeyond (byteLength_eq_zero hzero)
        simp only [window, pos, byteLength_append]
        omega
      have hnext := ahead_nextLine_ne_nil hbeyond
      rw [if_pos hend, window_nextLine h hahead, Option.bind_some,
        window_char (by rw [toText_nextLine c hahead, h]) hnext, next?, next?,
        atLine_of_ne_nil hnext, atLine_of_nil hahead hbeyond]
  · have hpos := Nat.pos_of_ne_zero fun hzero => hahead (byteLength_eq_zero hzero)
    rw [if_neg (by simp only [window]; omega), window_char h hahead]

/-- What a window looks back at on its line is what the cursor has read there. -/
theorem window_behind (h : c.toText = source) :
    Span.slice? source ⟨c.window.line.start, byteLength c.behind⟩ =
      some (c.lead ++ c.read.reverse) := by
  refine Span.slice?_eq_some_iff.mpr
    ⟨c.before.reverse, c.ahead ++ c.trail ++ c.beyond, ?_, ?_, ?_⟩
  · rw [← c.behind_append h, behind]
    simp only [List.reverse_append, List.reverse_reverse, List.append_assoc]
  · rw [byteLength_reverse]
    rfl
  · simp only [behind, byteLength_append, byteLength_reverse]
    omega

/-- The window changes its delimiters as the cursor does. -/
theorem window_changeDelimiters (h : c.toText = source) (new : Delimiters) :
    c.window.changeDelimiters? source new = some (c.changeDelimiters new).window := by
  have hiff : c.window.text.stop = c.window.line.stop ↔ c.trail.isEmpty = true := by
    rw [List.isEmpty_iff]
    simp only [window, byteLength_append]
    constructor
    · intro heq
      exact byteLength_eq_zero (by omega)
    · intro hnil
      rw [hnil, byteLength]
      rfl
  rw [Window.changeDelimiters?, changeDelimiters]
  by_cases htrail : c.trail.isEmpty = true
  · -- Nothing was trimmed at the end of the line, so the line is taken anew.
    have hbehind : c.behind.reverse ++ (c.ahead ++ c.beyond) = source := by
      rw [← c.behind_append h, List.isEmpty_iff.mp htrail, List.append_nil]
    have htake := takeLine_append new false c.behind (c.ahead ++ c.beyond)
    rw [if_pos (hiff.mpr htrail), if_pos htrail, show c.window.pos = byteLength c.behind from rfl,
      Window.lineStop?_eq new hbehind, Option.bind_some, window_behind h, Option.bind_some,
      show Window.onTags c.window.delimiters (c.lead ++ c.read.reverse) = c.onTags from rfl]
    generalize takeLine new false c.behind (c.ahead ++ c.beyond) = taken at htake ⊢
    rcases taken with ⟨line, beyond⟩
    rw [← htake, ← List.append_assoc] at hbehind
    have htags := Window.standalone?_eq new hbehind
    simp only [byteLength_append, byteLength_reverse] at htags
    have hnil : byteLength c.trail = 0 := by
      rw [List.isEmpty_iff.mp htrail]
      rfl
    by_cases hon : c.onTags = true
    · simp only [if_pos hon, htags]
      cases honly : onlyTags? new line with
      | none =>
          simp only [Option.map_none, Option.map_some, Option.getD_none, window, pos, behind,
            byteLength_append, hnil, Nat.add_zero]
          rfl
      | some tags =>
          have hlength := congrArg byteLength (onlyTags?_append honly)
          rw [byteLength_append] at hlength
          simp only [Option.map_some, Option.getD_some, window, pos, behind, byteLength_append,
            ← hlength]
          rfl
    · -- Something else than tags was read on the line, so it is not trimmed.
      simp only [if_neg hon, Option.map_some, Option.getD_none, window, pos, behind,
        byteLength_append, hnil, Nat.add_zero]
      rfl
  · rw [if_neg htrail, if_neg (fun heq => htrail (hiff.mp heq))]
    rfl

/-- The slice before the text of a line is what trimming took away there. -/
theorem window_indent (h : c.toText = source) : c.window.indent? source = some c.lead := by
  refine Span.slice?_eq_some_iff.mpr
    ⟨c.before.reverse, c.read.reverse ++ (c.ahead ++ c.trail ++ c.beyond), ?_, ?_, ?_⟩
  · rw [← c.behind_append h, behind]
    simp only [List.reverse_append, List.reverse_reverse, List.append_assoc]
  · rw [byteLength_reverse]
    rfl
  · rw [byteLength_append, byteLength_reverse]
    rfl

end Cursor

end Mustache
