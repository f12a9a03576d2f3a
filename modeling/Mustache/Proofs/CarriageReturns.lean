import Mustache.Proofs.Rows

/-!
# Carriage Returns

Texts that are written with a carriage return before every line feed. A carriage
return is blank and stands next to another blank. So it is trimmed where the line
feed is, it is no part of any delimiter, and lines, comments and tags are found in
the same places. What is found is written with carriage returns too.

A text that is kept last character first has each of them after the line feed.

## Main definitions

* `crlf`: A text with carriage returns.
* `crlfBehind`: The same for a text that is kept last character first.

## Theorems

* `crlf_injective`: Carriage returns hide no difference.
* `trim_crlf`, `words_crlf`: Blanks are blanks, with carriage returns or without.
* `justRead_crlfBehind`: No delimiter is read earlier or later.
* `takeLine_crlf`, `Line.ofText_crlf`: Lines end in the same places and are trimmed
  alike.
-/

namespace Mustache

namespace Text

/-- A line feed with a carriage return before it, or any other character. -/
def lineEnding (ch : Char) : List Char :=
  if ch = '\n' then ['\r', '\n'] else [ch]

/-- The text with a carriage return before every line feed. -/
def crlf (text : List Char) : List Char :=
  text.flatMap lineEnding

/-- The text that is kept last character first, with a carriage return before every
    line feed. -/
def crlfBehind (behind : List Char) : List Char :=
  behind.flatMap fun ch => (lineEnding ch).reverse

variable {text front back word : List Char} {ch : Char}

theorem lineEnding_of_ne (h : ch ≠ '\n') : lineEnding ch = [ch] :=
  if_neg h

@[simp] theorem crlf_nil : crlf [] = [] := rfl

@[simp] theorem crlf_lineFeed (text : List Char) :
    crlf ('\n' :: text) = '\r' :: '\n' :: crlf text := rfl

/-- Any other character stays as it is. -/
theorem crlf_cons (h : ch ≠ '\n') (text : List Char) : crlf (ch :: text) = ch :: crlf text := by
  rw [crlf, List.flatMap_cons, lineEnding_of_ne h]
  rfl

@[simp] theorem crlf_append (front back : List Char) :
    crlf (front ++ back) = crlf front ++ crlf back :=
  List.flatMap_append

@[simp] theorem crlfBehind_lineFeed (behind : List Char) :
    crlfBehind ('\n' :: behind) = '\n' :: '\r' :: crlfBehind behind := rfl

theorem crlfBehind_cons (h : ch ≠ '\n') (behind : List Char) :
    crlfBehind (ch :: behind) = ch :: crlfBehind behind := by
  rw [crlfBehind, List.flatMap_cons, lineEnding_of_ne h]
  rfl

@[simp] theorem crlfBehind_append (front back : List Char) :
    crlfBehind (front ++ back) = crlfBehind front ++ crlfBehind back :=
  List.flatMap_append

/-- A text that is kept last character first is the reverse of the text, and so
    it is with carriage returns. -/
theorem crlfBehind_eq (behind : List Char) : crlfBehind behind = (crlf behind.reverse).reverse := by
  rw [crlf, List.reverse_flatMap, List.reverse_reverse]
  rfl

theorem crlfBehind_reverse (text : List Char) : crlfBehind text.reverse = (crlf text).reverse := by
  rw [crlfBehind_eq, List.reverse_reverse]

theorem byteLength_crlfBehind (behind : List Char) :
    byteLength (crlfBehind behind) = byteLength (crlf behind.reverse) := by
  rw [crlfBehind_eq, byteLength_reverse]

/-- Only carriage returns are new. -/
theorem mem_crlf_iff (h : ch ≠ '\r') : ch ∈ crlf text ↔ ch ∈ text := by
  induction text with
  | nil => exact Iff.rfl
  | cons first text ih =>
      by_cases hfirst : first = '\n'
      · -- A line feed brings the carriage return, which is not the character in
        -- question.
        rw [hfirst, crlf_lineFeed, List.mem_cons, List.mem_cons, List.mem_cons, ih, or_iff_right h]
      · rw [crlf_cons hfirst, List.mem_cons, List.mem_cons, ih]

/-- A text without line feeds stays as it is. -/
theorem crlf_eq_self (h : '\n' ∉ text) : crlf text = text := by
  induction text with
  | nil => rfl
  | cons ch text ih =>
      rw [List.mem_cons, not_or] at h
      rw [crlf_cons (Ne.symm h.1), ih h.2]

/-- A text is empty with carriage returns if it is empty without. -/
theorem isEmpty_crlf (text : List Char) : (crlf text).isEmpty = text.isEmpty := by
  cases text with
  | nil => rfl
  | cons ch text =>
      by_cases hch : ch = '\n'
      · rw [hch]
        rfl
      · rw [crlf_cons hch]
        rfl

theorem crlf_eq_nil_iff : crlf text = [] ↔ text = [] := by
  rw [← List.isEmpty_iff, isEmpty_crlf, List.isEmpty_iff]

/-- A line feed is never the first character. -/
theorem crlf_ne_lineFeed : crlf text ≠ '\n' :: back := by
  cases text with
  | nil => exact (List.cons_ne_nil _ _).symm
  | cons ch text =>
      by_cases hch : ch = '\n'
      · -- A line feed comes behind a carriage return.
        rw [hch, crlf_lineFeed, ne_eq, List.cons.injEq]
        rintro ⟨hfirst, _⟩
        exact absurd hfirst (by decide)
      · rw [crlf_cons hch, ne_eq, List.cons.injEq]
        rintro ⟨hfirst, _⟩
        exact hch hfirst

/-- Carriage returns hide no difference. -/
theorem crlf_injective : Function.Injective crlf := by
  intro left
  induction left with
  | nil =>
      intro right h
      rw [crlf_nil, eq_comm, crlf_eq_nil_iff] at h
      exact h.symm
  | cons first left ih =>
      intro right h
      cases right with
      | nil => exact crlf_eq_nil_iff.mp h
      | cons second right =>
          -- Both texts begin with a line feed, or with the same other character.
          by_cases hfirst : first = '\n'
          · by_cases hsecond : second = '\n'
            · rw [hfirst, hsecond, crlf_lineFeed, crlf_lineFeed, List.cons.injEq,
                List.cons.injEq] at h
              rw [hfirst, hsecond, ih h.2.2]
            · rw [hfirst, crlf_lineFeed, crlf_cons hsecond, List.cons.injEq] at h
              exact absurd h.2.symm crlf_ne_lineFeed
          · by_cases hsecond : second = '\n'
            · rw [hsecond, crlf_lineFeed, crlf_cons hfirst, List.cons.injEq] at h
              exact absurd h.2 crlf_ne_lineFeed
            · rw [crlf_cons hfirst, crlf_cons hsecond, List.cons.injEq] at h
              rw [h.1, ih h.2]

/-- A text is written anew by putting something in the place of each of its blanks,
    which begins with a blank. -/
structure RewritesBlanks (f : Char → List Char) : Prop where
  plain : ∀ ch, isBlank ch = false → f ch = [ch]
  blank : ∀ ch, isBlank ch = true → f ch ≠ [] ∧ (f ch).all isBlank = true

theorem ne_lineFeed_of_not_isBlank (h : isBlank ch = false) : ch ≠ '\n' := by
  rintro rfl
  exact absurd h (by decide)

/-- Putting carriage returns before line feeds puts two blanks in the place of
    one. -/
theorem rewritesBlanks_lineEnding : RewritesBlanks lineEnding where
  plain ch h := lineEnding_of_ne (ne_lineFeed_of_not_isBlank h)
  blank ch h := by
    by_cases hch : ch = '\n'
    · rw [hch]
      exact ⟨List.cons_ne_nil _ _, by decide⟩
    · rw [lineEnding_of_ne hch]
      exact ⟨List.cons_ne_nil _ _, by rw [List.all_cons, h]; rfl⟩

/-- The same is done to a text that is kept last character first. -/
theorem RewritesBlanks.reverse {f : Char → List Char} (h : RewritesBlanks f) :
    RewritesBlanks fun ch => (f ch).reverse where
  plain ch hch := by rw [h.plain ch hch, List.reverse_singleton]
  blank ch hch := by
    rcases h.blank ch hch with ⟨hne, hall⟩
    exact ⟨fun hnil => hne (List.reverse_eq_nil_iff.mp hnil), by rw [List.all_reverse, hall]⟩

section

variable {f : Char → List Char}

/-- A word without blanks stands at the front of both texts or of neither. -/
theorem RewritesBlanks.begins_iff (h : RewritesBlanks f) (hword : ∀ ch ∈ word, isBlank ch = false) :
    word <+: text.flatMap f ↔ word <+: text := by
  induction word generalizing text with
  | nil => exact ⟨fun _ => List.nil_prefix, fun _ => List.nil_prefix⟩
  | cons first word ih =>
      have hfirst := hword first List.mem_cons_self
      have hrest := fun ch hch => hword ch (List.mem_cons_of_mem _ hch)
      cases text with
      | nil => exact Iff.rfl
      | cons ch text =>
          rw [List.flatMap_cons]
          cases hblank : isBlank ch with
          | false =>
              rw [h.plain ch hblank, List.singleton_append, List.cons_prefix_cons,
                List.cons_prefix_cons, ih hrest]
          | true =>
              -- What stands in the place of a blank begins with a blank, and the word
              -- does not.
              rcases h.blank ch hblank with ⟨hne, hall⟩
              have hleft : ¬ first :: word <+: f ch ++ text.flatMap f := by
                cases hf : f ch with
                | nil => exact absurd hf hne
                | cons second more =>
                    rw [hf, List.all_cons, Bool.and_eq_true] at hall
                    rw [List.cons_append, List.cons_prefix_cons]
                    rintro ⟨rfl, _⟩
                    rw [hfirst] at hall
                    exact Bool.false_ne_true hall.1
              have hright : ¬ first :: word <+: ch :: text := by
                rw [List.cons_prefix_cons]
                rintro ⟨rfl, _⟩
                rw [hfirst] at hblank
                exact Bool.false_ne_true hblank
              exact iff_of_false hleft hright

/-- A word without blanks stays as it is. -/
theorem RewritesBlanks.flatMap_eq_self (h : RewritesBlanks f)
    (hword : ∀ ch ∈ word, isBlank ch = false) : word.flatMap f = word := by
  induction word with
  | nil => rfl
  | cons ch word ih =>
      rw [List.flatMap_cons, h.plain ch (hword ch List.mem_cons_self),
        ih fun ch hch => hword ch (List.mem_cons_of_mem _ hch), List.singleton_append]

/-- What follows a word at the front of a text is written anew as well. -/
theorem RewritesBlanks.drop (h : RewritesBlanks f) (hword : ∀ ch ∈ word, isBlank ch = false)
    (hbegins : word <+: text) :
    (text.flatMap f).drop word.length = (text.drop word.length).flatMap f := by
  rcases hbegins with ⟨rest, rfl⟩
  rw [List.flatMap_append, h.flatMap_eq_self hword, List.drop_left, List.drop_left]

/-- The leading blanks are those that were put in the place of leading blanks. -/
theorem RewritesBlanks.dropWhile (h : RewritesBlanks f) (text : List Char) :
    (text.flatMap f).dropWhile isBlank = (text.dropWhile isBlank).flatMap f := by
  induction text with
  | nil => rfl
  | cons ch text ih =>
      cases hblank : isBlank ch with
      | true =>
          rw [List.flatMap_cons, List.dropWhile_append_of_pos fun ch' hch' =>
            List.all_eq_true.mp (h.blank ch hblank).2 ch' hch', ih, List.dropWhile_cons, hblank,
            if_pos rfl]
      | false =>
          -- The first character that is not blank stays, and nothing before it is left.
          rw [List.dropWhile_cons, hblank, if_neg Bool.false_ne_true, List.flatMap_cons,
            h.plain ch hblank, List.singleton_append, List.dropWhile_cons, hblank,
            if_neg Bool.false_ne_true]

/-- Those are the blanks that are taken. -/
theorem RewritesBlanks.takeWhile (h : RewritesBlanks f) (text : List Char) :
    (text.flatMap f).takeWhile isBlank = (text.takeWhile isBlank).flatMap f := by
  induction text with
  | nil => rfl
  | cons ch text ih =>
      cases hblank : isBlank ch with
      | true =>
          rw [List.flatMap_cons, List.takeWhile_append_of_pos fun ch' hch' =>
            List.all_eq_true.mp (h.blank ch hblank).2 ch' hch', ih, List.takeWhile_cons, hblank,
            if_pos rfl, List.flatMap_cons]
      | false =>
          rw [List.takeWhile_cons, hblank, if_neg Bool.false_ne_true, List.flatMap_cons,
            h.plain ch hblank, List.singleton_append, List.takeWhile_cons, hblank,
            if_neg Bool.false_ne_true]
          rfl

/-- A text of blanks stays one, and no other text becomes one. -/
theorem RewritesBlanks.all_isBlank (h : RewritesBlanks f) (text : List Char) :
    (text.flatMap f).all isBlank = text.all isBlank := by
  induction text with
  | nil => rfl
  | cons ch text ih =>
      rw [List.flatMap_cons, List.all_append, List.all_cons, ih]
      cases hblank : isBlank ch with
      | true => rw [(h.blank ch hblank).2]
      | false => rw [h.plain ch hblank, List.all_cons, hblank, Bool.false_and]

end

theorem trimStart_crlf (text : List Char) : trimStart (crlf text) = crlf (trimStart text) :=
  rewritesBlanks_lineEnding.dropWhile text

theorem trimEnd_crlf (text : List Char) : trimEnd (crlf text) = crlf (trimEnd text) := by
  -- The end of the text is trimmed as the start of the reversed text.
  have hreverse : (crlfBehind text.reverse).dropWhile isBlank =
      crlfBehind (text.reverse.dropWhile isBlank) :=
    rewritesBlanks_lineEnding.reverse.dropWhile text.reverse
  rw [trimEnd, ← crlfBehind_reverse, hreverse, crlfBehind_eq, List.reverse_reverse, trimEnd]

/-- Trimming takes the carriage returns with the line feeds. -/
theorem trim_crlf (text : List Char) : trim (crlf text) = crlf (trim text) := by
  rw [trim, trimStart_crlf, trimEnd_crlf, trim]

theorem all_isBlank_crlf (text : List Char) : (crlf text).all isBlank = text.all isBlank :=
  rewritesBlanks_lineEnding.all_isBlank text

/-- The front word ends before a carriage return as it did before the line feed. -/
theorem frontWord_crlf (text : List Char) : frontWord (crlf text) = frontWord text := by
  induction text with
  | nil => rfl
  | cons ch text ih =>
      by_cases hch : ch = '\n'
      · -- Between the two blanks there is no word.
        rw [hch, crlf_lineFeed, frontWord, frontWord, ih, frontWord]
        rfl
      · rw [crlf_cons hch, frontWord, ih, frontWord]

/-- The words of a text are the same. -/
theorem words_crlf (text : List Char) : words (crlf text) = words text := by
  rw [words, frontWord_crlf, words]

/-- No word without blanks is read earlier or later. -/
theorem justRead_crlfBehind (hword : ∀ ch ∈ word, isBlank ch = false) (behind : List Char) :
    justRead word (crlfBehind behind) = justRead word behind := by
  have hreverse : ∀ ch ∈ word.reverse, isBlank ch = false :=
    fun ch hch => hword ch (List.mem_reverse.mp hch)
  rw [justRead, justRead, Bool.eq_iff_iff, List.isPrefixOf_iff_prefix, List.isPrefixOf_iff_prefix]
  exact rewritesBlanks_lineEnding.reverse.begins_iff hreverse

/-- What was read before a word is written with carriage returns too. -/
theorem drop_crlfBehind (hword : ∀ ch ∈ word, isBlank ch = false) {behind : List Char}
    (h : justRead word behind = true) :
    ((crlfBehind behind).drop word.length).reverse = crlf (behind.drop word.length).reverse := by
  have hreverse : ∀ ch ∈ word.reverse, isBlank ch = false :=
    fun ch hch => hword ch (List.mem_reverse.mp hch)
  rw [justRead, List.isPrefixOf_iff_prefix] at h
  -- The word stands at the front of the reversed text.
  have hdrop := rewritesBlanks_lineEnding.reverse.drop hreverse h
  rw [List.length_reverse] at hdrop
  have hbehind : (crlfBehind behind).drop word.length =
      crlfBehind (behind.drop word.length) := hdrop
  rw [hbehind, crlfBehind_eq, List.reverse_reverse]

/-- A word without blanks is found at the same place, and both parts are written
    with carriage returns. -/
theorem cut?_crlf (hword : ∀ ch ∈ word, isBlank ch = false) (hne : word ≠ []) (text : List Char) :
    cut? word (crlf text) = (cut? word text).map fun found => (crlf found.1, crlf found.2) := by
  have hbegins : ∀ text, word <+: crlf text ↔ word <+: text :=
    fun text => rewritesBlanks_lineEnding.begins_iff hword
  -- No word begins with a line feed or a carriage return.
  have hblank : ∀ ch text, isBlank ch = true → ¬ word <+: ch :: text := by
    intro ch text hch hword'
    cases hcases : word with
    | nil => exact hne hcases
    | cons first more =>
        rw [hcases, List.cons_prefix_cons] at hword'
        have hfirst := hword first (by rw [hcases]; exact List.mem_cons_self)
        rw [hword'.1, hch] at hfirst
        exact Bool.false_ne_true hfirst.symm
  induction text with
  | nil =>
      rw [crlf_nil]
      cases hcut : cut? word [] with
      | none => rfl
      | some found =>
          have hnil := eq_of_cut? hcut
          exact absurd (List.append_eq_nil_iff.mp (List.append_eq_nil_iff.mp hnil.symm).1).2 hne
  | cons ch text ih =>
      by_cases hch : ch = '\n'
      · -- The word begins at neither of the two blanks.
        rw [hch, crlf_lineFeed, cut?_cons_of_not_begins (hblank _ _ (by decide)),
          cut?_cons_of_not_begins (hblank _ _ (by decide)),
          cut?_cons_of_not_begins (hblank _ _ (by decide)), ih]
        simp only [Option.map_map]
        rfl
      · by_cases hfound : word <+: ch :: text
        · have hfound' : word <+: ch :: crlf text := by rwa [← crlf_cons hch, hbegins]
          have hdrop : (crlf (ch :: text)).drop word.length =
              crlf ((ch :: text).drop word.length) :=
            rewritesBlanks_lineEnding.drop hword hfound
          rw [crlf_cons hch, cut?_cons_of_begins hfound', cut?_cons_of_begins hfound,
            Option.map_some, ← hdrop, crlf_cons hch, crlf_nil]
        · have hfound' : ¬ word <+: ch :: crlf text := by rwa [← crlf_cons hch, hbegins]
          rw [crlf_cons hch, cut?_cons_of_not_begins hfound', cut?_cons_of_not_begins hfound, ih,
            Option.map_map, Option.map_map]
          cases cut? word text with
          | none => rfl
          | some found => simp only [Option.map_some, Function.comp_apply, crlf_cons hch]

end Text

open Text

variable {d : Delimiters}

namespace Delimiters

theorem isBlank_of_mem_opening {ch : Char} (h : ch ∈ d.opening) : isBlank ch = false :=
  (d.opening_isDelimiter.2 ch h).1

theorem isBlank_of_mem_closing {ch : Char} (h : ch ∈ d.closing) : isBlank ch = false :=
  (d.closing_isDelimiter.2 ch h).1

/-- A body names the same pair of delimiters. -/
theorem ofBody?_crlf (body : List Char) : ofBody? (crlf body) = ofBody? body := by
  refine Option.ext fun d => ?_
  rw [ofBody?_eq_some_iff, ofBody?_eq_some_iff, words_crlf, mem_crlf_iff (by decide)]

end Delimiters

/-- The same texts begin with a silent tag. -/
theorem startsTag_crlf (d : Delimiters) (text : List Char) :
    startsTag d (crlf text) = startsTag d text := by
  have hopening : d.opening.isPrefixOf (crlf text) = d.opening.isPrefixOf text := by
    rw [Bool.eq_iff_iff, List.isPrefixOf_iff_prefix, List.isPrefixOf_iff_prefix]
    exact rewritesBlanks_lineEnding.begins_iff fun ch => d.isBlank_of_mem_opening
  rw [startsTag, startsTag, hopening]
  by_cases hbegins : d.opening <+: text
  · have hdrop : (crlf text).drop d.opening.length = crlf (text.drop d.opening.length) :=
      rewritesBlanks_lineEnding.drop (fun ch => d.isBlank_of_mem_opening) hbegins
    rw [hdrop, trimStart_crlf]
    -- The sigil is no line feed.
    cases htrim : trimStart (text.drop d.opening.length) with
    | nil => rfl
    | cons sigil rest =>
        by_cases hsigil : sigil = '\n'
        · rw [trimStart] at htrim
          have hhead := List.head?_dropWhile_not isBlank (text.drop d.opening.length)
          rw [htrim, hsigil, List.head?_cons] at hhead
          exact absurd hhead (by decide)
        · rw [crlf_cons hsigil]
  · have hfalse : d.opening.isPrefixOf text = false := by
      rw [Bool.eq_false_iff, ne_eq, List.isPrefixOf_iff_prefix]
      exact hbegins
    rw [hfalse, Bool.false_and, Bool.false_and]

/-- The same tags follow one another. -/
theorem tagRun?_crlf (d : Delimiters) (text : List Char) :
    tagRun? d (crlf text) =
      (tagRun? d text).map fun found => (crlf found.1, crlf found.2) := by
  have hclosing : ∀ ch ∈ d.closing, isBlank ch = false := fun ch => d.isBlank_of_mem_closing
  have hself : crlf d.closing = d.closing := rewritesBlanks_lineEnding.flatMap_eq_self hclosing
  fun_induction tagRun? d text with
  | case1 text hcut =>
      -- Without a closing delimiter there is none with carriage returns either.
      cases hrun : tagRun? d (crlf text) with
      | none => rfl
      | some found =>
          rcases exists_cut?_of_tagRun? hrun with ⟨before, rest, hfound⟩
          rw [cut?_crlf hclosing d.closing_ne_nil, hcut] at hfound
          simp only [Option.map_none, reduceCtorEq] at hfound
  | case2 text content rest hcut hstart ih =>
      have hcut' : cut? d.closing (crlf text) = some (crlf content, crlf rest) := by
        rw [cut?_crlf hclosing d.closing_ne_nil, hcut]
        rfl
      -- Another tag starts behind the closing delimiter in both texts.
      rw [tagRun?_of_cut hcut', startsTag_crlf, if_pos hstart, ih, Option.map_map, Option.map_map]
      cases tagRun? d rest with
      | none => rfl
      | some found => simp only [Option.map_some, Function.comp_apply, crlf_append, hself]
  | case3 text content rest hcut hstart =>
      have hcut' : cut? d.closing (crlf text) = some (crlf content, crlf rest) := by
        rw [cut?_crlf hclosing d.closing_ne_nil, hcut]
        rfl
      rw [tagRun?_of_cut hcut', startsTag_crlf, if_neg hstart, Option.map_some, crlf_append, hself]

/-- The same texts hold nothing but tags and trailing blanks. -/
theorem onlyTags?_crlf (d : Delimiters) (text : List Char) :
    onlyTags? d (crlf text) =
      (onlyTags? d text).map fun found => (crlf found.1, crlf found.2) := by
  have hopening : ∀ ch ∈ d.opening, isBlank ch = false := fun ch => d.isBlank_of_mem_opening
  have hself : crlf d.opening = d.opening := rewritesBlanks_lineEnding.flatMap_eq_self hopening
  rw [onlyTags?, onlyTags?, startsTag_crlf]
  by_cases hstart : startsTag d text = true
  · have hbegins : d.opening <+: text := by
      rw [startsTag, Bool.and_eq_true] at hstart
      exact List.isPrefixOf_iff_prefix.mp hstart.1
    have hdrop : (crlf text).drop d.opening.length = crlf (text.drop d.opening.length) :=
      rewritesBlanks_lineEnding.drop hopening hbegins
    rw [if_pos hstart, if_pos hstart, hdrop, tagRun?_crlf]
    cases tagRun? d (text.drop d.opening.length) with
    | none => rfl
    | some found =>
        simp only [Option.map_some, all_isBlank_crlf]
        by_cases hblank : found.2.all isBlank = true
        · simp only [if_pos hblank, Option.map_some, crlf_append, hself]
        · simp only [if_neg hblank, Option.map_none]
  · rw [if_neg hstart, if_neg hstart, Option.map_none]

/-- A line is trimmed to the same tags. -/
theorem Line.ofText_crlf (d : Delimiters) (text : List Char) :
    ofText d (crlf text) =
      ⟨crlf (ofText d text).lead, crlf (ofText d text).text, crlf (ofText d text).trail⟩ := by
  have hlead : (crlf text).takeWhile isBlank = crlf (text.takeWhile isBlank) :=
    rewritesBlanks_lineEnding.takeWhile text
  rw [ofText, ofText, trimStart_crlf, onlyTags?_crlf, hlead]
  cases onlyTags? d (trimStart text) with
  | none => rfl
  | some found => rfl

theorem commentNow_crlfBehind (d : Delimiters) (inComment : Bool) (behind : List Char) :
    commentNow d inComment (crlfBehind behind) = commentNow d inComment behind := by
  have hcomment : ∀ ch ∈ d.opening ++ ['!'], isBlank ch = false :=
    fun ch hmem => Bool.eq_false_iff.mpr fun hblank => d.not_mem_comment hblank hmem
  rw [commentNow, commentNow, justRead_crlfBehind hcomment,
    justRead_crlfBehind fun ch => d.isBlank_of_mem_closing]

/-- A line ends in the same place. -/
theorem takeLine_crlf (d : Delimiters) (inComment : Bool) (behind text : List Char) :
    takeLine d inComment (crlfBehind behind) (crlf text) =
      (crlf (takeLine d inComment behind text).1, crlf (takeLine d inComment behind text).2) := by
  induction text generalizing inComment behind with
  | nil => rfl
  | cons ch text ih =>
      by_cases hch : ch = '\n'
      · -- Neither of the blanks opens or closes a comment, and the first one ends no line.
        have hblank : ∀ ch behind, isBlank ch = true →
            commentNow d inComment (ch :: behind) = inComment :=
          fun ch behind h => commentNow_blank h
        have hrest := ih inComment ('\n' :: behind)
        rw [crlfBehind_lineFeed] at hrest
        rw [hch, crlf_lineFeed, takeLine_cons, takeLine_cons, takeLine_cons, hblank _ _ (by decide),
          hblank _ _ (by decide), hblank _ _ (by decide)]
        cases inComment with
        | true =>
            simp only [hrest, crlf_lineFeed, Bool.not_true, Bool.false_and, Bool.false_eq_true,
              if_false]
        | false => rfl
      · have hrest := ih (commentNow d inComment (ch :: behind)) (ch :: behind)
        have hcomment := commentNow_crlfBehind d inComment (ch :: behind)
        rw [crlfBehind_cons hch] at hrest hcomment
        -- The character is no line feed, so the line goes on.
        have hend : (!commentNow d inComment (ch :: behind) && ch == '\n') = false := by
          rw [beq_eq_false_iff_ne.mpr hch, Bool.and_false]
        rw [crlf_cons hch, takeLine_cons, takeLine_cons, hcomment, hend, hrest]
        simp only [if_neg Bool.false_ne_true, crlf_cons hch]

end Mustache
